import Mathlib.Data.List.Infix
import Mathlib.Tactic.Lemma
import Lunify.Cache.Grammars

/-!
# How many grammars are kept

An adaptive cache makes room before it adds an entry, but at its target the list of entries seen once gives no way to
a key that was dropped from it, and the other list may be empty. Then nothing is dropped, and the cache holds one
entry more than its size (`Adaptive.Overfills`). This is the only way to go beyond the size, and there is no way to go
further: what is one too many is dropped by the next addition.
-/

namespace Lunify

open List

namespace Adaptive

variable {κ α : Type} [DecidableEq κ] {c : Adaptive κ α} {key : κ} {value : α} {wasFrequent : Bool}

/-! ### Lists of entries -/

/-- Putting an entry in front makes a list longer by at most one, and never longer than it may be. -/
lemma length_push (size : Nat) (key : κ) (value : α) (entries : List (κ × α)) :
    (push size key value entries).length ≤ min size (entries.length + 1) := by
  rw [push, length_take, length_cons]
  have hle : (without key entries).length ≤ entries.length := length_filter_le _ _
  omega

lemma length_push_pos {size : Nat} (hsize : 0 < size) (key : κ) (value : α) (entries : List (κ × α)) :
    0 < (push size key value entries).length := by
  rw [push, length_take, length_cons]
  omega

lemma length_without_lt {entries : List (κ × α)} (h : find? key entries = some value) :
    (without key entries).length < entries.length := by
  obtain ⟨e, he, -⟩ := Option.map_eq_some_iff.1 h
  refine length_filter_lt_length_iff_exists.2 ⟨e, mem_of_find?_eq_some he, ?_⟩
  simpa using find?_some he

/-! ### Steps -/

/-- What all caches that are reached have in common: the target and the list of entries seen once stay within the
size, and all entries are at most one more than the size. -/
structure WellSized (c : Adaptive κ α) : Prop where
  size_pos : 0 < c.size
  target_le : c.target ≤ c.size
  recent_le : c.recent.length ≤ c.size
  length_le : c.length ≤ c.size + 1

/-- Whether the addition of a key finds no entry to drop: it was dropped from the entries seen once, these fill the
cache, and their target moves up to the size. -/
def Overfills (c : Adaptive κ α) (key : κ) : Prop :=
  key ∈ c.droppedRecent ∧ c.recent.length = c.size ∧
    c.size ≤ c.target + stride c.droppedFrequent.length c.droppedRecent.length

/-- What a replacement drops: the oldest entry of the first list, or that of the second if it has one. -/
lemma replace_spec (c : Adaptive κ α) (wasFrequent : Bool) :
    (c.replace wasFrequent).size = c.size ∧ (c.replace wasFrequent).target = c.target ∧
    (((c.replace wasFrequent).recent.length + 1 = c.recent.length ∧
        (c.replace wasFrequent).frequent.length = c.frequent.length ∧
        (c.target < c.recent.length ∨ wasFrequent = true)) ∨
      (c.replace wasFrequent).recent.length = c.recent.length ∧
        (c.replace wasFrequent).frequent.length = c.frequent.length - 1 ∧
        (c.recent.length = 0 ∨ c.recent.length < c.target ∨
          c.recent.length = c.target ∧ wasFrequent = false)) := by
  simp only [replace]
  split
  · rename_i hcond
    simp only [Bool.and_eq_true, Bool.or_eq_true, decide_eq_true_eq] at hcond
    split
    · refine ⟨rfl, rfl, .inl ⟨?_, rfl, hcond.2.imp_right And.right⟩⟩
      rw [length_dropLast]
      omega
    · rename_i hnil
      rw [getLast?_eq_none_iff] at hnil
      simp [hnil] at hcond
  · rename_i hcond
    simp only [Bool.and_eq_true, Bool.or_eq_true, decide_eq_true_eq, not_and, not_or] at hcond
    have hrecent : c.recent.length = 0 ∨ c.recent.length < c.target ∨
        c.recent.length = c.target ∧ wasFrequent = false := by
      by_cases hpos : 0 < c.recent.length
      · obtain ⟨hle, hnot⟩ := hcond hpos
        rcases Nat.lt_or_eq_of_le (Nat.le_of_not_lt hle) with hlt | heq
        · exact .inr (.inl hlt)
        · exact .inr (.inr ⟨heq, Bool.eq_false_iff.2 (hnot heq)⟩)
      · exact .inl (by omega)
    split
    · exact ⟨rfl, rfl, .inr ⟨rfl, length_dropLast, hrecent⟩⟩
    · rename_i hnil
      rw [getLast?_eq_none_iff] at hnil
      exact ⟨rfl, rfl, .inr ⟨rfl, by simp [hnil], hrecent⟩⟩

/-- How room is made: there is some, or one entry is dropped, or there is none and nothing can be dropped. -/
lemma makeRoom_spec (hc : c.WellSized) (wasFrequent : Bool) :
    (c.makeRoom wasFrequent).size = c.size ∧ (c.makeRoom wasFrequent).target = c.target ∧
      (c.makeRoom wasFrequent).recent.length ≤ c.recent.length ∧
      ((c.length < c.size ∧ (c.makeRoom wasFrequent).length = c.length) ∨
        ((c.makeRoom wasFrequent).length + 1 = c.length ∧
          (c.target < c.recent.length ∨ wasFrequent = true ∨ 0 < c.frequent.length)) ∨
        (c.makeRoom wasFrequent).length = c.size ∧ (c.makeRoom wasFrequent).recent.length = c.size ∧
          c.length = c.size ∧ c.recent.length = c.size ∧ c.target = c.size ∧ wasFrequent = false) := by
  obtain ⟨hpos, htarget, hrecent, -⟩ := hc
  unfold makeRoom
  split
  · rename_i hfull
    obtain ⟨hsize, htarget', hcases⟩ := replace_spec c wasFrequent
    refine ⟨hsize, htarget', by omega, .inr ?_⟩
    simp only [length] at hfull ⊢
    rcases hcases with ⟨hr, hf, hwhy⟩ | ⟨hr, hf, hwhy⟩
    · exact .inl ⟨by omega, hwhy.imp_right .inl⟩
    · by_cases hfrequent : 0 < c.frequent.length
      · exact .inl ⟨by omega, .inr (.inr hfrequent)⟩
      · rcases hwhy with hzero | hlt | ⟨heq, hflag⟩
        · omega
        · omega
        · exact .inr ⟨by omega, by omega, by omega, by omega, by omega, hflag⟩
  · rename_i hfull
    exact ⟨rfl, rfl, Nat.le_refl _, .inl ⟨by omega, rfl⟩⟩

/-- Looking a key up keeps the bounds, and adds no entry. -/
lemma WellSized.get (hc : c.WellSized) (key : κ) :
    (c.get key).2.WellSized ∧ (c.get key).2.size = c.size ∧ (c.get key).2.length ≤ c.length := by
  obtain ⟨hpos, htarget, hrecent, hlength⟩ := hc
  unfold Adaptive.get
  cases hr : find? key c.recent with
  | some v =>
    have hlt := length_without_lt hr
    have hpush := length_push c.size key v c.frequent
    have hle : (without key c.recent).length + (push c.size key v c.frequent).length ≤ c.length := by
      simp only [length]
      omega
    exact ⟨⟨hpos, htarget, by simp only; omega, hle.trans hlength⟩, rfl, hle⟩
  | none =>
    cases hf : find? key c.frequent with
    | some v =>
      have hlt := length_without_lt hf
      have hle : c.recent.length + (push c.size key v c.frequent).length ≤ c.length := by
        rw [push, length_take, length_cons]
        simp only [length]
        omega
      exact ⟨⟨hpos, htarget, hrecent, hle.trans hlength⟩, rfl, hle⟩
    | none => exact ⟨⟨hpos, htarget, hrecent, hlength⟩, rfl, Nat.le_refl _⟩

omit [DecidableEq κ] in
/-- The bounds stay with another target within the size. -/
lemma WellSized.withTarget (hc : c.WellSized) {target : Nat} (h : target ≤ c.size) :
    WellSized { c with target } :=
  ⟨hc.size_pos, h, hc.recent_le, hc.length_le⟩

/-- Making room and putting an entry into the second list keeps the bounds, and a cache within its size stays there
unless nothing could be dropped. -/
lemma WellSized.takeBack (hc : c.WellSized) (wasFrequent : Bool) (key : κ) (value : α)
    (droppedRecent droppedFrequent : List κ) :
    let c' := c.makeRoom wasFrequent
    let c'' : Adaptive κ α :=
      ⟨c'.size, c'.target, c'.recent, push c'.size key value c'.frequent, droppedRecent, droppedFrequent⟩
    c''.WellSized ∧ c''.size = c.size ∧ (c.length ≤ c.size →
      (c''.length ≤ c.size ↔ ¬ (c.recent.length = c.size ∧ c.target = c.size ∧ wasFrequent = false))) := by
  obtain ⟨hsize, htarget, hrecent, hcases⟩ := makeRoom_spec hc wasFrequent
  obtain ⟨hpos, htarget_le, hrecent_le, hlength⟩ := hc
  generalize c.makeRoom wasFrequent = c' at hsize htarget hrecent hcases ⊢
  have hpush := length_push c'.size key value c'.frequent
  have hpushed : 0 < (push c'.size key value c'.frequent).length :=
    length_push_pos (hsize ▸ hpos) key value _
  simp only [length] at hcases hlength
  have hbound : c'.recent.length + (push c'.size key value c'.frequent).length ≤ c'.size + 1 := by omega
  refine ⟨⟨hsize ▸ hpos, ?_, hsize ▸ hrecent.trans hrecent_le, hbound⟩, hsize, fun hle => ?_⟩
  · simpa only [hsize, htarget] using htarget_le
  · simp only [length] at hle ⊢
    rcases hcases with ⟨hroom, heq⟩ | ⟨heq, hwhy⟩ | ⟨heq, hr', -, hr, ht, hflag⟩
    · exact ⟨fun _ => by omega, fun _ => by omega⟩
    · refine ⟨fun _ => ?_, fun _ => by omega⟩
      rintro ⟨hr, ht, hflag⟩
      rcases hwhy with hlt | htrue | hfrequent
      · omega
      · rw [hflag] at htrue
        cases htrue
      · omega
    · exact ⟨fun _ => by omega, fun hnot => absurd ⟨hr, ht, hflag⟩ hnot⟩

/-- Adding a key keeps the bounds, and a cache within its size stays there unless the key overfills it. -/
lemma WellSized.add (hc : c.WellSized) (key : κ) (value : α) :
    (c.add key value).WellSized ∧ (c.add key value).size = c.size ∧
      (c.length ≤ c.size → ((c.add key value).length ≤ c.size ↔ ¬ c.Overfills key)) := by
  unfold Adaptive.add
  split
  · -- The key was dropped from the first list.
    rename_i hmem
    obtain ⟨hsized, hsize, hiff⟩ :=
      (hc.withTarget (Nat.min_le_left c.size _)).takeBack false key value _ _
    refine ⟨hsized, hsize, fun hle => (hiff hle).trans (not_congr ⟨?_, ?_⟩)⟩
    · rintro ⟨hr, ht, -⟩
      exact ⟨hmem, hr, ht.ge.trans (Nat.min_le_right _ _)⟩
    · rintro ⟨-, hr, ht⟩
      exact ⟨hr, Nat.min_eq_left ht, rfl⟩
  · rename_i hmem
    have hnot : ¬ c.Overfills key := fun h => hmem h.1
    split
    · -- The key was dropped from the second list.
      obtain ⟨hsized, hsize, hiff⟩ :=
        (hc.withTarget ((Nat.sub_le _ _).trans hc.target_le)).takeBack true key value _ _
      exact ⟨hsized, hsize, fun hle => (hiff hle).trans (by simp [hnot])⟩
    · -- The key is new, and goes into the first list, which is cut to the size.
      obtain ⟨hsize, htarget, hrecent, hcases⟩ := makeRoom_spec hc false
      obtain ⟨hpos, htarget_le, hrecent_le, hlength⟩ := hc
      generalize c.makeRoom false = c' at hsize htarget hrecent hcases ⊢
      have hpush := length_push c'.size key value c'.recent
      simp only [Adaptive.length] at hcases hlength
      have hbound : (push c'.size key value c'.recent).length + c'.frequent.length ≤ c'.size + 1 := by omega
      refine ⟨⟨hsize ▸ hpos, ?_, hpush.trans (Nat.min_le_left _ _), hbound⟩, hsize, fun hle => ?_⟩
      · simpa only [hsize, htarget] using htarget_le
      · simp only [Adaptive.length, hnot, not_false_iff, iff_true] at hle ⊢
        omega

end Adaptive

namespace GrammarCache

/-! ### Loads -/

/-- Whether a text overfills a cache: it is loaded anew, and its hash finds no entry to drop. -/
def Overfills (c : GrammarCache) (text : Text) : Prop :=
  (c.entries.get (Keccak.hash text)).1 = none ∧ (∃ g, Grammar.load text = .ok g) ∧
    c.entries.Overfills (Keccak.hash text)

/-- The cache of a size after texts were loaded, the latest of which comes first. -/
def afterLoads (size : Int) : List Text → GrammarCache
  | [] => ofSize size
  | text :: older => ((afterLoads size older).load text).2

variable {c : GrammarCache} {text : Text}

/-- What a load can do: it finds the grammar, or it fails and changes nothing, or it adds the grammar. -/
lemma load_cases (c : GrammarCache) (text : Text) :
    (∃ g, (c.entries.get (Keccak.hash text)).1 = some g ∧
      c.load text = (.ok g, ⟨(c.entries.get (Keccak.hash text)).2, c.next⟩)) ∨
    (c.entries.get (Keccak.hash text)).1 = none ∧
      ((∃ e, Grammar.load text = .error e ∧ c.load text = (.error e, c)) ∨
        ∃ g, Grammar.load text = .ok g ∧
          c.load text = (.ok ⟨c.next, g⟩, ⟨c.entries.add (Keccak.hash text) ⟨c.next, g⟩, c.next + 1⟩)) := by
  unfold load
  rcases hentry : c.entries.get (Keccak.hash text) with ⟨_ | g, entries⟩
  · refine .inr ⟨rfl, ?_⟩
    cases hload : Grammar.load text with
    | error e => exact .inl ⟨e, rfl, by simp only [hentry]⟩
    | ok g => exact .inr ⟨g, rfl, by simp only [hentry]⟩
  · exact .inl ⟨g, rfl, by simp only [hentry]⟩

/-- A load keeps the bounds, and a cache within its size stays there unless the text overfills it. -/
lemma wellSized_load (hc : c.entries.WellSized) (text : Text) :
    (c.load text).2.entries.WellSized ∧ (c.load text).2.entries.size = c.entries.size ∧
      (c.length ≤ c.entries.size → ((c.load text).2.length ≤ c.entries.size ↔ ¬ c.Overfills text)) := by
  rcases load_cases c text with ⟨g, hget, heq⟩ | ⟨hget, ⟨e, hload, heq⟩ | ⟨g, hload, heq⟩⟩
  · obtain ⟨hsized, hsize, hle⟩ := hc.get (Keccak.hash text)
    rw [heq]
    refine ⟨hsized, hsize, fun hle' => iff_of_true (hle.trans hle') fun hover => ?_⟩
    rw [hover.1] at hget
    cases hget
  · rw [heq]
    refine ⟨hc, rfl, fun hle => iff_of_true hle fun hover => ?_⟩
    obtain ⟨g, hg⟩ := hover.2.1
    rw [hload] at hg
    cases hg
  · obtain ⟨hsized, hsize, hiff⟩ := hc.add (Keccak.hash text) (⟨c.next, g⟩ : LoadedGrammar)
    rw [heq]
    exact ⟨hsized, hsize, fun hle =>
      (hiff hle).trans (not_congr ⟨fun h => ⟨hget, ⟨g, hload⟩, h⟩, fun h => h.2.2⟩)⟩

/-- The bounds hold after every load, and the size stays. -/
lemma wellSized_afterLoads (size : Int) (texts : List Text) :
    (afterLoads size texts).entries.WellSized ∧
      (afterLoads size texts).entries.size = (max size 1).toNat := by
  induction texts with
  | nil =>
    refine ⟨⟨?_, Nat.zero_le _, Nat.zero_le _, Nat.zero_le _⟩, rfl⟩
    simp only [afterLoads, ofSize, Adaptive.empty]
    omega
  | cons text older ih =>
    obtain ⟨hsized, hsize, -⟩ := wellSized_load ih.1 text
    exact ⟨hsized, hsize.trans ih.2⟩

/-- A cache of any size holds at most that many grammars, and at least one, after each of some loads exactly when none
of these overfills it. It never holds more than one too many. -/
theorem length_afterLoads_le_iff (size : Int) (texts : List Text) :
    ((∀ some, some <:+ texts → (afterLoads size some).length ≤ (max size 1).toNat) ↔
      ∀ text older, text :: older <:+ texts → ¬ (afterLoads size older).Overfills text) ∧
    (afterLoads size texts).length ≤ (max size 1).toNat + 1 := by
  obtain ⟨hsized, hsize⟩ := wellSized_afterLoads size texts
  refine ⟨⟨fun h text older hsuffix => ?_, fun h => ?_⟩, hsize ▸ hsized.length_le⟩
  · obtain ⟨hsized, hsize⟩ := wellSized_afterLoads size older
    have holder := h older ((List.suffix_cons _ _).trans hsuffix)
    refine ((wellSized_load hsized text).2.2 (hsize ▸ holder)).1 ?_
    rw [hsize]
    exact h (text :: older) hsuffix
  · intro loaded hloaded
    induction loaded with
    | nil => exact Nat.zero_le _
    | cons text older ih =>
      obtain ⟨hsized, hsize⟩ := wellSized_afterLoads size older
      have holder := ih ((List.suffix_cons _ _).trans hloaded)
      have hload := ((wellSized_load hsized text).2.2 (hsize ▸ holder)).2 (h text older hloaded)
      rwa [hsize] at hload

/-- A text that was dropped for another one comes back to a cache of size one, which keeps the other one too. -/
lemma length_readmitted {a b : Text} {g g' : Grammar} (ha : Grammar.load a = .ok g)
    (hb : Grammar.load b = .ok g') (hne : Keccak.hash a ≠ Keccak.hash b) :
    (afterLoads 1 [a, b, a]).length = 2 := by
  simp [afterLoads, ofSize, load, Adaptive.get, Adaptive.find?, Adaptive.empty, Adaptive.add, Adaptive.makeRoom,
    Adaptive.length, Adaptive.push, Adaptive.without, Adaptive.replace, Adaptive.pushKey, Adaptive.stride, ha, hb,
    hne, Ne.symm hne, length]

lemma hash_ne_hash : Keccak.hash (utf8 "S -> a") ≠ Keccak.hash (utf8 "S -> b") := by decide +kernel

lemma load_small : Grammar.load (utf8 "S -> a") = .ok ⟨[⟨utf8 "S", [utf8 "a"], by decide⟩], by decide⟩ := by
  decide +kernel

/-- A cache of size one that holds two grammars. -/
theorem length_afterLoads_exceeds_size :
    (max (1 : Int) 1).toNat < (afterLoads 1 [utf8 "S -> a", utf8 "S -> b", utf8 "S -> a"]).length := by
  have hb : Grammar.load (utf8 "S -> b") = .ok ⟨[⟨utf8 "S", [utf8 "b"], by decide⟩], by decide⟩ := by
    decide +kernel
  rw [length_readmitted load_small hb hash_ne_hash]
  decide

end GrammarCache

end Lunify
