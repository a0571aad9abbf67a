import Lunify.Proofs.Cache.Capacity

/-!
# Grammars that are shared

The cache of grammars answers as if every text were loaded anew: whatever was loaded before, a load gives the grammar
of its text or the error of it (`GrammarCache.grammar_load_afterLoads`). An entry can go from one list to the other and
be dropped, but it keeps its value, and every value was loaded from a text with the hash that it is kept under
(`GrammarCache.FromTexts`). The entry of the last load is the newest of its list, which is the last to be dropped, so
that the next load of the same text shares the grammar.
-/

namespace Lunify

open List

namespace Adaptive

variable {κ α : Type} [DecidableEq κ] {c : Adaptive κ α} {key : κ} {value : α}

variable {entries : List (κ × α)} {e : κ × α}

/-! ### What is found in a list -/

lemma mem_of_find? (h : find? key entries = some value) : (key, value) ∈ entries := by
  obtain ⟨⟨k, v⟩, he, rfl⟩ := Option.map_eq_some_iff.1 h
  have hkey : k = key := by simpa using find?_some he
  exact hkey ▸ mem_of_find?_eq_some he

lemma find?_eq_none_iff : find? key entries = none ↔ ∀ e ∈ entries, e.1 ≠ key := by
  simp [find?, find?_eq_none]

lemma find?_push {size : Nat} (hsize : 0 < size) (key : κ) (value : α) (entries : List (κ × α)) :
    find? key (push size key value entries) = some value := by
  obtain ⟨n, rfl⟩ := Nat.exists_eq_succ_of_ne_zero hsize.ne'
  simp [find?, push]

lemma find?_without (key : κ) (entries : List (κ × α)) : find? key (without key entries) = none := by
  rw [find?_eq_none_iff]
  intro e he
  simpa using (mem_filter.1 he).2

lemma mem_of_mem_push {size : Nat} (h : e ∈ push size key value entries) :
    e = (key, value) ∨ e ∈ entries :=
  (mem_cons.1 (mem_of_mem_take h)).imp_right fun he => (mem_filter.1 he).1

/-! ### What is kept -/

/-- Whether an entry is in one of the two lists. -/
def Keeps (c : Adaptive κ α) (e : κ × α) : Prop :=
  e ∈ c.recent ∨ e ∈ c.frequent

/-- What a look-up finds is kept. -/
lemma keeps_of_get (h : (c.get key).1 = some value) : c.Keeps (key, value) := by
  unfold Adaptive.get at h
  cases hr : find? key c.recent with
  | some v =>
    simp only [hr] at h
    exact .inl (mem_of_find? (hr.trans h))
  | none =>
    cases hf : find? key c.frequent with
    | some v =>
      simp only [hr, hf] at h
      exact .inr (mem_of_find? (hf.trans h))
    | none => simp only [hr, hf, reduceCtorEq] at h

/-- A look-up brings no entry in. -/
lemma keeps_of_keeps_get (h : (c.get key).2.Keeps e) : c.Keeps e := by
  unfold Adaptive.get at h
  cases hr : find? key c.recent with
  | some v =>
    simp only [hr] at h
    rcases h with h | h
    · exact .inl (mem_filter.1 h).1
    · rcases mem_of_mem_push h with rfl | h
      · exact .inl (mem_of_find? hr)
      · exact .inr h
  | none =>
    cases hf : find? key c.frequent with
    | some v =>
      simp only [hr, hf] at h
      refine h.imp_right fun h => ?_
      rcases mem_of_mem_push h with rfl | h
      · exact mem_of_find? hf
      · exact h
    | none => simpa only [hr, hf] using h

/-- What was found is found again. -/
lemma get_get (hsize : 0 < c.size) (h : (c.get key).1 = some value) :
    ((c.get key).2.get key).1 = some value := by
  unfold Adaptive.get at h ⊢
  cases hr : find? key c.recent with
  | some v =>
    simp only [hr] at h ⊢
    simp only [find?_without, find?_push hsize, h]
  | none =>
    cases hf : find? key c.frequent with
    | some v =>
      simp only [hr, hf] at h ⊢
      simp only [find?_push hsize, h]
    | none => simp only [hr, hf, reduceCtorEq] at h

/-- Making room leaves the newest entries of both lists. -/
lemma makeRoom_newest (c : Adaptive κ α) (wasFrequent : Bool) :
    (c.makeRoom wasFrequent).size = c.size ∧ (c.makeRoom wasFrequent).recent <+: c.recent ∧
      (c.makeRoom wasFrequent).frequent <+: c.frequent := by
  simp only [makeRoom, replace]
  split
  · split
    · split
      · exact ⟨rfl, dropLast_prefix _, prefix_rfl⟩
      · exact ⟨rfl, prefix_rfl, prefix_rfl⟩
    · split
      · exact ⟨rfl, prefix_rfl, dropLast_prefix _⟩
      · exact ⟨rfl, prefix_rfl, prefix_rfl⟩
  · exact ⟨rfl, prefix_rfl, prefix_rfl⟩

/-- The two lists after an addition: some of the newest entries of both, and the added entry in front of one. -/
lemma add_spec (c : Adaptive κ α) (key : κ) (value : α) :
    ∃ recent frequent, recent <+: c.recent ∧ frequent <+: c.frequent ∧
      ((c.add key value).recent = recent ∧ (c.add key value).frequent = push c.size key value frequent ∨
        (c.add key value).recent = push c.size key value recent ∧ (c.add key value).frequent = frequent) := by
  unfold Adaptive.add
  split
  · obtain ⟨hsize, hrecent, hfrequent⟩ := makeRoom_newest
      { c with target := min c.size (c.target + stride c.droppedFrequent.length c.droppedRecent.length) } false
    exact ⟨_, _, hrecent, hfrequent, .inl ⟨rfl, congrArg (push · key value _) hsize⟩⟩
  · split
    · obtain ⟨hsize, hrecent, hfrequent⟩ := makeRoom_newest
        { c with target := c.target - stride c.droppedRecent.length c.droppedFrequent.length } true
      exact ⟨_, _, hrecent, hfrequent, .inl ⟨rfl, congrArg (push · key value _) hsize⟩⟩
    · obtain ⟨hsize, hrecent, hfrequent⟩ := makeRoom_newest c false
      exact ⟨_, _, hrecent, hfrequent, .inr ⟨congrArg (push · key value _) hsize, rfl⟩⟩

/-- An addition brings one entry in. -/
lemma keeps_of_keeps_add (h : (c.add key value).Keeps e) : e = (key, value) ∨ c.Keeps e := by
  obtain ⟨recent, frequent, hrecent, hfrequent, ⟨hr, hf⟩ | ⟨hr, hf⟩⟩ := add_spec c key value
  · rw [Keeps, hr, hf] at h
    rcases h with h | h
    · exact .inr (.inl (hrecent.subset h))
    · exact (mem_of_mem_push h).imp_right fun h => .inr (hfrequent.subset h)
  · rw [Keeps, hr, hf] at h
    rcases h with h | h
    · exact (mem_of_mem_push h).imp_right fun h => .inl (hrecent.subset h)
    · exact .inr (.inr (hfrequent.subset h))

/-- A key that is not found is found after its addition. -/
lemma get_add (hsize : 0 < c.size) (h : (c.get key).1 = none) (value : α) :
    ((c.add key value).get key).1 = some value := by
  have hnone : find? key c.recent = none := by
    cases hr : find? key c.recent with
    | some v => simp only [Adaptive.get, hr, reduceCtorEq] at h
    | none => rfl
  obtain ⟨recent, frequent, hrecent, -, ⟨hr, hf⟩ | ⟨hr, hf⟩⟩ := add_spec c key value
  · have hnone' : find? key recent = none :=
      find?_eq_none_iff.2 fun e he => find?_eq_none_iff.1 hnone e (hrecent.subset he)
    simp only [Adaptive.get, hr, hf, hnone', find?_push hsize]
  · simp only [Adaptive.get, hr, find?_push hsize]

end Adaptive

namespace GrammarCache

variable {text : Text}

/-! ### Loads -/

/-- Whether each grammar that is kept was loaded from one of some texts, with the hash that it is kept under. -/
def FromTexts (c : GrammarCache) (texts : List Text) : Prop :=
  ∀ key g, c.entries.Keeps (key, g) → ∃ text ∈ texts, Keccak.hash text = key ∧ Grammar.load text = .ok g.grammar

variable {c : GrammarCache} {texts : List Text}

/-- A load keeps grammars of the texts that were loaded before and of its own text. -/
lemma FromTexts.load (h : c.FromTexts texts) (text : Text) : (c.load text).2.FromTexts (text :: texts) := by
  intro key g hkeeps
  have hold : c.entries.Keeps (key, g) →
      ∃ a ∈ text :: texts, Keccak.hash a = key ∧ Grammar.load a = .ok g.grammar := fun hkeeps =>
    (h key g hkeeps).imp fun a => And.imp_left (mem_cons_of_mem _)
  rcases load_cases c text with ⟨g', -, heq⟩ | ⟨-, ⟨e, -, heq⟩ | ⟨g', hload, heq⟩⟩
  · rw [heq] at hkeeps
    exact hold (Adaptive.keeps_of_keeps_get hkeeps)
  · rw [heq] at hkeeps
    exact hold hkeeps
  · rw [heq] at hkeeps
    rcases Adaptive.keeps_of_keeps_add hkeeps with hnew | hkeeps
    · obtain ⟨rfl, rfl⟩ := Prod.mk.inj hnew
      exact ⟨text, mem_cons_self, rfl, hload⟩
    · exact hold hkeeps

lemma fromTexts_afterLoads (size : Int) (texts : List Text) : (afterLoads size texts).FromTexts texts := by
  induction texts with
  | nil =>
    rintro key g (h | h)
    · cases h
    · cases h
  | cons text older ih => exact ih.load text

/-- A load gives what loading its text gives, if no other text was loaded with the same hash. -/
lemma FromTexts.grammar_load (h : c.FromTexts texts)
    (hhash : ∀ a ∈ texts, Keccak.hash a = Keccak.hash text → a = text) :
    (c.load text).1.map LoadedGrammar.grammar = Grammar.load text := by
  rcases load_cases c text with ⟨g, hget, heq⟩ | ⟨-, ⟨e, hload, heq⟩ | ⟨g, hload, heq⟩⟩
  · obtain ⟨a, ha, hkey, hload⟩ := h _ g (Adaptive.keeps_of_get hget)
    obtain rfl := hhash a ha hkey
    rw [heq, hload]
    rfl
  · rw [heq, hload]
    rfl
  · rw [heq, hload]
    rfl

lemma load_of_error {e : LoadError} (h : (c.load text).1 = .error e) : (c.load text).2 = c := by
  rcases load_cases c text with ⟨g, -, heq⟩ | ⟨-, ⟨e', -, heq⟩ | ⟨g, -, heq⟩⟩
  · rw [heq] at h
    cases h
  · rw [heq]
  · rw [heq] at h
    cases h

/-- The load after a load of the same text shares its grammar. -/
lemma load_load (hsize : 0 < c.entries.size) {g : LoadedGrammar} (h : (c.load text).1 = .ok g) :
    ((c.load text).2.load text).1 = .ok g := by
  have hfound : ((c.load text).2.entries.get (Keccak.hash text)).1 = some g := by
    rcases load_cases c text with ⟨g', hget, heq⟩ | ⟨hget, ⟨e, -, heq⟩ | ⟨g', -, heq⟩⟩
    · rw [heq] at h ⊢
      obtain rfl := Except.ok.inj h
      exact Adaptive.get_get hsize hget
    · rw [heq] at h
      cases h
    · rw [heq] at h ⊢
      obtain rfl := Except.ok.inj h
      exact Adaptive.get_add hsize hget _
  rcases load_cases (c.load text).2 text with ⟨g', hget, heq⟩ | ⟨hget, -⟩
  · rw [hfound] at hget
    rw [heq, Option.some.inj hget]
  · rw [hfound] at hget
    cases hget

/-- Whatever was loaded before, a load gives the grammar that its text alone gives, or fails with the error of that;
if it fails, it changes nothing, and if not, the next load of the same text gives the same grammar with the same
number. -/
theorem grammar_load_afterLoads (size : Int) (texts : List Text) (text : Text)
    (hhash : ∀ a ∈ texts, Keccak.hash a = Keccak.hash text → a = text) :
    ((afterLoads size texts).load text).1.map LoadedGrammar.grammar = Grammar.load text ∧
      (∀ e, ((afterLoads size texts).load text).1 = .error e →
        ((afterLoads size texts).load text).2 = afterLoads size texts) ∧
      ∀ g, ((afterLoads size texts).load text).1 = .ok g →
        (((afterLoads size texts).load text).2.load text).1 = .ok g :=
  ⟨(fromTexts_afterLoads size texts).grammar_load hhash, fun _ => load_of_error,
    fun _ => load_load (wellSized_afterLoads size texts).1.size_pos⟩

/-- A text whose grammar was dropped for another one is loaded as at first, and shared after that. -/
theorem grammar_load_afterLoads_dropped :
    let text := utf8 "S -> a"
    let c := afterLoads 1 [utf8 "S -> b", text]
    (∀ a ∈ [utf8 "S -> b", text], Keccak.hash a = Keccak.hash text → a = text) ∧
      ∃ g, (c.load text).1 = .ok g ∧ g.grammar = ⟨[⟨utf8 "S", [utf8 "a"], by decide⟩], by decide⟩ ∧
        ((c.load text).2.load text).1 = .ok g := by
  intro text c
  have hhash : ∀ a ∈ [utf8 "S -> b", text], Keccak.hash a = Keccak.hash text → a = text := by
    intro a ha heq
    rcases List.mem_pair.1 ha with rfl | rfl
    · exact absurd heq.symm hash_ne_hash
    · rfl
  obtain ⟨hgrammar, -, hshared⟩ := grammar_load_afterLoads 1 _ text hhash
  rw [load_small] at hgrammar
  refine ⟨hhash, ?_⟩
  cases hload : (c.load text).1 with
  | error e =>
    rw [hload] at hgrammar
    cases hgrammar
  | ok g =>
    rw [hload] at hgrammar
    exact ⟨g, rfl, Except.ok.inj hgrammar, hshared g hload⟩

end GrammarCache

end Lunify
