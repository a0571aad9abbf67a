import Lunify.Proofs.Chart.Justified

/-!
# The entries of a chart

A chart is built from left to right. `Chart.getD_build` says what its entry at a position is: the
work list that starts from the states that read the previous symbol, run against the entries before
it. From there on charts are not unfolded any more: the states of an entry are justified and end at
its position (`Chart.justified_of_mem`), no two of them share a key (`Chart.nodup_build`), and the
entry is closed under prediction and completion (`Chart.closed_build`). Reading leads from one entry
to the next (`Chart.key_mem_of_scan`).

A predictor may leave out rules, but only rules of a tag that do not begin with the next symbol.
-/

namespace Lunify

open List

namespace Chart

variable {i : Nat} {s t : State} {chart : Chart}

/-- What a chart relies on: its predictor gives only rules of the symbol, and leaves out only rules
of tags that the next symbol rules out. -/
structure Predictor.Fits (g : Grammar) (rulesOf : Predictor) : Prop where
  mem : ∀ {s : Symbol} {ahead : Option Symbol} {n : Nat} {r : Rule}, (n, r) ∈ rulesOf s ahead →
    (n, r) ∈ g.numbered ∧ r.lhs = s
  complete : ∀ {ahead : Option Symbol} {n : Nat} {r : Rule}, (n, r) ∈ g.numbered →
    (g.isTag r.lhs = true → some r.first = ahead) → (n, r) ∈ rulesOf r.lhs ahead

lemma lookup_tabulated {β : Type} (f : Symbol → β) (l : List Symbol) (s : Symbol) :
    (l.map fun t => (t, f t)).lookup s = if s ∈ l then some (f s) else none := by
  induction l with
  | nil => rfl
  | cons t l ih =>
    rw [map_cons, lookup_cons, ih]
    by_cases hst : s = t
    · subst hst
      simp
    · rw [beq_false_of_ne hst]
      simp [hst]

/-- Removing repetitions keeps the elements. -/
lemma mem_distinct {l : List Text} {t : Text} : t ∈ Text.distinct l ↔ t ∈ l := by
  have hfold : ∀ (l acc : List Text),
      t ∈ l.foldl (fun seen t => if seen.contains t then seen else seen ++ [t]) acc ↔
        t ∈ acc ∨ t ∈ l := by
    intro l
    induction l with
    | nil => simp
    | cons u l ih =>
      intro acc
      rw [foldl_cons, ih]
      split
      · rename_i hu
        have hu' : u ∈ acc := contains_iff_mem.1 hu
        constructor
        · rintro (h | h)
          · exact Or.inl h
          · exact Or.inr (mem_cons_of_mem u h)
        · rintro (h | h)
          · exact Or.inl h
          · rcases mem_cons.1 h with rfl | h
            · exact Or.inl hu'
            · exact Or.inr h
      · simp [or_assoc]
  unfold Text.distinct
  rw [hfold]
  simp

lemma mem_symbols_iff (g : Grammar) (s : Symbol) : s ∈ g.symbols ↔ g.isTerminal s = false := by
  rw [Grammar.symbols, mem_distinct, mem_map, Grammar.isTerminal_eq_false_iff]

/-- The predictor of a grammar gives the rules of a symbol, those of a tag only when they begin with
the next symbol. -/
lemma mem_predict_iff (g : Grammar) (s : Symbol) (ahead : Option Symbol) (n : Nat) (r : Rule) :
    (n, r) ∈ predict g.expansions s ahead ↔
      (n, r) ∈ g.numbered ∧ r.lhs = s ∧ (g.isTag s = true → some r.first = ahead) := by
  unfold predict Grammar.expansions
  rw [lookup_tabulated]
  by_cases hs : s ∈ g.symbols
  · rw [if_pos hs]
    by_cases htag : g.isTag s = true
    · simp only [htag, if_true, mem_filter, decide_eq_true_eq, forall_const]
      rw [and_assoc]
    · simp [htag, mem_filter]
  · rw [if_neg hs]
    have hne : (n, r) ∈ g.numbered → r.lhs ≠ s := by
      rintro hmem rfl
      have hterminal := Grammar.isTerminal_lhs (Grammar.mem_rules_of_mem_numbered hmem)
      exact hs ((mem_symbols_iff g r.lhs).2 hterminal)
    simp only [not_mem_nil, false_iff]
    rintro ⟨hmem, hlhs, -⟩
    exact hne hmem hlhs

/-- The predictor of a grammar leaves out nothing else. -/
theorem fits_predict (g : Grammar) : Predictor.Fits g (predict g.expansions) where
  mem := fun {s ahead n r} h => by
    have h' := (mem_predict_iff g s ahead n r).1 h
    exact ⟨h'.1, h'.2.1⟩
  complete := fun {ahead n r} hmem htag => (mem_predict_iff g r.lhs ahead n r).2 ⟨hmem, rfl, htag⟩

/-! ### The entry at a position -/

/-- The state with which a chart begins. -/
def initial (g : Grammar) : State :=
  ⟨0, g.acceptRule, 0, 0, 0, []⟩

/-- The states with which the entry at a position begins. -/
def seeds (g : Grammar) (input : List Symbol) (chart : Chart) : Nat → List State
  | 0 => [initial g]
  | i + 1 => (input[i]?).elim [] (scan g (chart.getD i []))

/-- Extending a chart keeps its entries and adds one for each symbol of the rest and one for its
end. -/
lemma exists_extend (g : Grammar) (rulesOf : Predictor) (chart : Chart) (new : List State)
    (rest : List Symbol) :
    ∃ later : Chart, extend g rulesOf chart new rest = chart ++ later ∧
      later.size = rest.length + 1 := by
  induction rest generalizing chart new with
  | nil => exact ⟨#[entry g rulesOf chart chart.size none new], by simp [extend], rfl⟩
  | cons a rest ih =>
    obtain ⟨later, hlater, hsize⟩ := ih (chart.push (entry g rulesOf chart chart.size (some a) new))
      (scan g (entry g rulesOf chart chart.size (some a) new) a)
    refine ⟨#[entry g rulesOf chart chart.size (some a) new] ++ later, ?_, ?_⟩
    · rw [extend, hlater, Array.push_eq_append, Array.append_assoc]
    · rw [Array.size_append, hsize]
      simp [Nat.add_comm]

/-- The entry at the end of a chart that is being extended. -/
lemma getD_extend_size (g : Grammar) (rulesOf : Predictor) (chart : Chart) (new : List State)
    (rest : List Symbol) :
    (extend g rulesOf chart new rest).getD chart.size [] =
      entry g rulesOf chart chart.size rest.head? new := by
  cases rest with
  | nil => simp [extend]
  | cons a rest =>
    rw [extend]
    obtain ⟨later, hlater, -⟩ := exists_extend g rulesOf
      (chart.push (entry g rulesOf chart chart.size (some a) new))
      (scan g (entry g rulesOf chart chart.size (some a) new) a) rest
    rw [hlater]
    simp [Array.getD_eq_getD_getElem?, Array.getElem?_append]

lemma extract_extend (g : Grammar) (rulesOf : Predictor) (chart : Chart) (new : List State)
    (rest : List Symbol) :
    (extend g rulesOf chart new rest).extract 0 chart.size = chart := by
  obtain ⟨later, hlater, -⟩ := exists_extend g rulesOf chart new rest
  rw [hlater, Array.extract_append_left]
  simp

/-- The entries that extending adds: the first one begins with the given states, and each later one
with the states of its predecessor that read a symbol. -/
lemma getD_extend (g : Grammar) (rulesOf : Predictor) (chart : Chart) (new : List State)
    (rest : List Symbol) (k : Nat) (hk : k ≤ rest.length) :
    (extend g rulesOf chart new rest).getD (chart.size + k) [] =
      entry g rulesOf ((extend g rulesOf chart new rest).extract 0 (chart.size + k))
        (chart.size + k) rest[k]?
        (match k with
          | 0 => new
          | k + 1 => (rest[k]?).elim []
            (scan g ((extend g rulesOf chart new rest).getD (chart.size + k) []))) := by
  induction rest generalizing chart new k with
  | nil =>
    obtain rfl : k = 0 := Nat.le_zero.1 hk
    rw [Nat.add_zero, getD_extend_size, extract_extend]
    rfl
  | cons a rest ih =>
    cases k with
    | zero =>
      rw [Nat.add_zero, getD_extend_size, extract_extend]
      rfl
    | succ k =>
      have hk' : k ≤ rest.length := Nat.le_of_succ_le_succ hk
      have hfirst := getD_extend_size g rulesOf chart new (a :: rest)
      rw [extend] at hfirst ⊢
      have hstep := ih (chart.push (entry g rulesOf chart chart.size (some a) new))
        (scan g (entry g rulesOf chart chart.size (some a) new) a) k hk'
      rw [Array.size_push, Nat.add_assoc, Nat.add_comm 1 k] at hstep
      rw [hstep, getElem?_cons_succ]
      cases k with
      | zero =>
        simp only [Nat.add_zero, getElem?_cons_zero, Option.elim_some, hfirst, head?_cons]
      | succ k =>
        simp only [Nat.add_assoc, Nat.add_comm 1 k, getElem?_cons_succ]

lemma size_build (g : Grammar) (rulesOf : Predictor) (input : List Symbol) :
    (build g rulesOf input).size = input.length + 1 := by
  obtain ⟨later, hlater, hsize⟩ := exists_extend g rulesOf #[] [initial g] input
  change (extend g rulesOf #[] [initial g] input).size = input.length + 1
  rw [hlater, Array.size_append, hsize]
  simp

/-- The entry at a position is worked out from the entries before it. -/
theorem getD_build (g : Grammar) (rulesOf : Predictor) (input : List Symbol) (hi : i ≤ input.length) :
    (build g rulesOf input).getD i [] =
      entry g rulesOf ((build g rulesOf input).extract 0 i) i input[i]?
        (seeds g input (build g rulesOf input) i) := by
  have h := getD_extend g rulesOf #[] [initial g] input i hi
  simp only [size_toArray, length_nil, Nat.zero_add] at h
  change (extend g rulesOf #[] [initial g] input).getD i [] = _
  rw [h]
  cases i with
  | zero => rfl
  | succ i => rfl

/-- The entries before a position, seen from there: those at or after it are empty. -/
lemma getD_extract (chart : Chart) (i j : Nat) :
    (chart.extract 0 i).getD j [] = if j < i then chart.getD j [] else [] := by
  simp only [Array.getD_eq_getD_getElem?, Array.getElem?_extract]
  split <;> simp_all

/-! ### The states of an entry -/

variable {g : Grammar} {rulesOf : Predictor} {input : List Symbol}

/-- The states with other keys that a state adds to its entry are justified when it is, and when the
states of the earlier entries are. -/
lemma justified_successors (hfits : Predictor.Fits g rulesOf)
    (hchart : ∀ j < i, ∀ s ∈ chart.getD j [], Justified g input s ∧ s.finish = j) {ahead : Option Symbol}
    (hs : Justified g input s ∧ s.finish = i) (ht : t ∈ successors rulesOf (chart.extract 0 i) i ahead s)
    (hnew : t.key ≠ s.key) :
    Justified g input t ∧ t.finish = i := by
  unfold successors at ht
  split at ht
  · rename_i hnone
    obtain ⟨w, hw, rfl⟩ := mem_map.1 ht
    obtain ⟨hw, hnext⟩ := mem_filter.1 hw
    rw [getD_extract] at hw
    split at hw
    · rename_i hlt
      obtain ⟨hjust, hfinish⟩ := hchart s.origin hlt w hw
      exact ⟨.advanced hjust hs.1 hnone (of_decide_eq_true hnext) hfinish.symm hnew, hs.2⟩
    · exact absurd hw not_mem_nil
  · obtain ⟨⟨n, r⟩, hmem, rfl⟩ := mem_map.1 ht
    exact ⟨.predicted i (mem_cons_of_mem _ (hfits.mem hmem).1), rfl⟩

/-- A state that begins an entry after the first one comes from reading a symbol. -/
lemma mem_seeds_succ :
    t ∈ seeds g input chart (i + 1) ↔
      ∃ a, input[i]? = some a ∧ g.isTerminal a = true ∧
        ∃ s ∈ chart.getD i [], s.next? = some a ∧ s.scanned = t := by
  simp only [seeds]
  cases hread : input[i]? with
  | none => simp
  | some a =>
    simp only [Option.elim_some, scan, Option.some.injEq, exists_eq_left']
    by_cases ha : g.isTerminal a = true
    · simp [ha, waiting, and_assoc]
    · simp [ha]

/-- The states with which an entry begins are justified. -/
lemma justified_seeds (hchart : ∀ j < i, ∀ s ∈ chart.getD j [], Justified g input s ∧ s.finish = j)
    (ht : t ∈ seeds g input chart i) : Justified g input t ∧ t.finish = i := by
  cases i with
  | zero =>
    obtain rfl := mem_singleton.1 ht
    exact ⟨.predicted 0 mem_cons_self, rfl⟩
  | succ i =>
    obtain ⟨a, hread, ha, s, hs, hnext, rfl⟩ := mem_seeds_succ.1 ht
    obtain ⟨hjust, hfinish⟩ := hchart i (Nat.lt_succ_self i) s hs
    exact ⟨.scanned hjust hnext ha (hfinish ▸ hread), congrArg (· + 1) hfinish⟩

/-- Every state of an entry is justified and ends at the position of the entry. -/
theorem justified_of_mem (hfits : Predictor.Fits g rulesOf) (hi : i ≤ input.length)
    (hs : s ∈ (build g rulesOf input).getD i []) :
    Justified g input s ∧ s.finish = i := by
  induction i using Nat.strong_induction_on generalizing s with
  | _ i ih =>
    have hchart : ∀ j < i, ∀ s ∈ (build g rulesOf input).getD j [],
        Justified g input s ∧ s.finish = j :=
      fun j hj s hs => ih j hj (le_trans hj.le hi) hs
    rw [getD_build g rulesOf input hi] at hs
    refine forall_mem_work (P := fun s => Justified g input s ∧ s.finish = i) ?_ ?_ s hs
    · intro s hs t ht hnew
      exact justified_successors hfits hchart hs ht hnew
    · intro s hs
      exact justified_seeds hchart hs

/-! ### Keys -/

/-- The keys that states of an entry can have: a number, a dot inside its rule, and an origin that
is not after the entry. -/
def keys (g : Grammar) (i : Nat) : List (Nat × Nat × Nat) :=
  g.allNumbered.flatMap fun p =>
    (List.range (p.2.rhs.length + 1)).flatMap fun dot =>
      (List.range (i + 1)).map fun origin => (p.1, dot, origin)

lemma map_snd_allNumbered (g : Grammar) : g.allNumbered.map Prod.snd = g.acceptRule :: g.rules := by
  have hsnd : (Prod.snd ∘ fun p : Rule × Nat => (p.2, p.1)) = Prod.fst := rfl
  simp only [Grammar.allNumbered, Grammar.numbered, map_cons, map_map]
  rw [hsnd, zipIdx_map_fst]

/-- There are as many keys as dots for each origin. -/
lemma length_keys (g : Grammar) (i : Nat) : (keys g i).length = (i + 1) * g.dotCount := by
  have hdots : ∀ p : Nat × Rule, ((List.range (p.2.rhs.length + 1)).flatMap fun dot =>
      (List.range (i + 1)).map fun origin => (p.1, dot, origin)).length =
        (i + 1) * (p.2.rhs.length + 1) := by
    intro p
    simp [length_flatMap, Nat.mul_comm]
  have hmap : (g.acceptRule :: g.rules).map (fun r => r.rhs.length + 1) =
      g.allNumbered.map fun p => p.2.rhs.length + 1 := by
    rw [← map_snd_allNumbered, map_map]
    rfl
  rw [keys, Grammar.dotCount, hmap]
  generalize g.allNumbered = l
  induction l with
  | nil => rfl
  | cons p l ih =>
    rw [flatMap_cons, length_append, hdots, ih, map_cons, total]
    exact (Nat.mul_add (i + 1) (p.2.rhs.length + 1) _).symm

/-- The key of a justified state is one of these. -/
lemma Justified.key_mem (h : Justified g input s) (hi : s.finish = i) : s.key ∈ keys g i := by
  have hle := h.origin_add_dot_le
  have hdot := h.dot_le
  refine mem_flatMap.2 ⟨(s.number, s.rule), h.rule_mem, ?_⟩
  refine mem_flatMap.2 ⟨s.dot, mem_range.2 (Nat.lt_succ_of_le hdot), ?_⟩
  exact mem_map.2 ⟨s.origin, mem_range.2 (by omega), rfl⟩

/-- Reading a symbol keeps different states apart. -/
lemma nodup_seeds (hchart : ∀ j < i, ((chart.getD j []).map State.key).Nodup) :
    ((seeds g input chart i).map State.key).Nodup := by
  cases i with
  | zero => exact nodup_singleton _
  | succ i =>
    simp only [seeds]
    cases input[i]? with
    | none => exact nodup_nil
    | some a =>
      simp only [Option.elim_some, scan]
      split
      · have hwaiting : ((waiting (chart.getD i []) a).map State.key).Nodup :=
          (hchart i (Nat.lt_succ_self i)).sublist (filter_sublist.map State.key)
        have hinj : Function.Injective fun k : Nat × Nat × Nat => (k.1, k.2.1 + 1, k.2.2) := by
          rintro ⟨n, d, o⟩ ⟨n', d', o'⟩ h
          simpa using h
        have hmap := hwaiting.map hinj
        rw [map_map] at hmap ⊢
        exact hmap
      · exact nodup_nil

/-- No two states of an entry have the same key. -/
theorem nodup_build (hi : i ≤ input.length) :
    (((build g rulesOf input).getD i []).map State.key).Nodup := by
  induction i using Nat.strong_induction_on with
  | _ i ih =>
    rw [getD_build g rulesOf input hi]
    exact nodup_work (nodup_seeds fun j hj => ih j hj (le_trans hj.le hi))

/-- Working out an entry comes to an end. -/
lemma ends_build (hfits : Predictor.Fits g rulesOf) (hi : i ≤ input.length) :
    Ends (successors rulesOf ((build g rulesOf input).extract 0 i) i input[i]?)
      ((i + 1) * g.dotCount + 1) [] (seeds g input (build g rulesOf input) i) := by
  have hchart : ∀ j < i, ∀ s ∈ (build g rulesOf input).getD j [],
      Justified g input s ∧ s.finish = j :=
    fun j hj s hs => justified_of_mem hfits (le_trans hj.le hi) hs
  refine ends_of_keys (P := fun s => Justified g input s ∧ s.finish = i) (K := keys g i)
    ?_ ?_ ?_ ?_ ?_
  · intro s hs
    exact hs.1.key_mem hs.2
  · intro s hs t ht hnew
    exact justified_successors hfits hchart hs ht hnew
  · intro s hs
    exact justified_seeds hchart hs
  · exact nodup_seeds fun j hj => nodup_build (le_trans hj.le hi)
  · rw [length_keys]
    exact Nat.lt_succ_self _

/-- An entry is closed under prediction and completion. -/
theorem closed_build (hfits : Predictor.Fits g rulesOf) (hi : i ≤ input.length) :
    Closed (successors rulesOf ((build g rulesOf input).extract 0 i) i input[i]?)
      ((build g rulesOf input).getD i []) := by
  rw [getD_build g rulesOf input hi]
  refine closed_work (ends_build hfits hi) ?_
  intro s hs
  exact absurd hs not_mem_nil

/-! ### The operations of a chart -/

lemma initial_mem (g : Grammar) (rulesOf : Predictor) (input : List Symbol) :
    initial g ∈ (build g rulesOf input).getD 0 [] := by
  rw [getD_build g rulesOf input (Nat.zero_le _)]
  exact mem_work mem_cons_self

/-- The rules of the symbol after the dot are in the entry, apart from those of a tag that the next
symbol rules out. -/
theorem key_mem_of_predict (hfits : Predictor.Fits g rulesOf) (hi : i ≤ input.length)
    (hs : s ∈ (build g rulesOf input).getD i []) {n : Nat} {r : Rule} (hr : (n, r) ∈ g.numbered)
    (hnext : s.next? = some r.lhs) (htag : g.isTag r.lhs = true → some r.first = input[i]?) :
    (n, 0, i) ∈ ((build g rulesOf input).getD i []).map State.key := by
  refine closed_build hfits hi s hs ⟨n, r, 0, i, i, []⟩ ?_
  unfold successors
  rw [hnext]
  exact mem_map.2 ⟨(n, r), hfits.complete hr htag, rfl⟩

/-- A complete state advances the states at its origin that wait for its symbol. -/
theorem key_mem_of_complete (hfits : Predictor.Fits g rulesOf) (hi : i ≤ input.length)
    (ht : t ∈ (build g rulesOf input).getD i []) (hcomplete : t.next? = none)
    (hs : s ∈ (build g rulesOf input).getD t.origin []) (hnext : s.next? = some t.rule.lhs) :
    (s.number, s.dot + 1, s.origin) ∈ ((build g rulesOf input).getD i []).map State.key := by
  obtain ⟨hjust, hfinish⟩ := justified_of_mem hfits hi ht
  have hlt : t.origin < i := hfinish ▸ hjust.origin_lt_of_complete hcomplete
  refine closed_build hfits hi t ht (s.advanced t) ?_
  unfold successors
  rw [hcomplete]
  refine mem_map.2 ⟨s, mem_filter.2 ⟨?_, decide_eq_true hnext⟩, rfl⟩
  rw [getD_extract, if_pos hlt]
  exact hs

/-- A state that waits for the next symbol of the input reads it. -/
theorem key_mem_of_scan {a : Symbol} (hread : input[i]? = some a) (ha : g.isTerminal a = true)
    (hs : s ∈ (build g rulesOf input).getD i []) (hnext : s.next? = some a) :
    (s.number, s.dot + 1, s.origin) ∈ ((build g rulesOf input).getD (i + 1) []).map State.key := by
  have hi : i + 1 ≤ input.length := (List.getElem?_eq_some_iff.1 hread).1
  have hseed : s.scanned ∈ seeds g input (build g rulesOf input) (i + 1) :=
    mem_seeds_succ.2 ⟨a, hread, ha, s, hs, hnext, rfl⟩
  rw [getD_build g rulesOf input hi]
  exact mem_map.2 ⟨s.scanned, mem_work hseed, rfl⟩

end Chart

end Lunify
