import Mathlib
import Lunify.Proofs.Chart.Entries
import Lunify.Parse

/-!
# The states of a chart in the order of their insertion

The loop over the states of an entry grows the entry while it walks it, and a state that reads a symbol is put into the
next entry at once. `Chart.Walks` is this loop with no bound on its steps, and `Chart.Recorded` the whole
construction, with a record of all states in the order in which they are inserted. The record of a chart exists, so
that the loop ends at each position; it holds the states of the entries in their order, and every state comes after
the states that it points back to (`Chart.exists_recorded`).
-/

namespace Lunify

open List

namespace Chart

variable {g : Grammar} {rulesOf : Predictor} {input : List Symbol} {chart : Chart}
  {step read : State → List State} {seen queue log : List State} {e : Entry} {i : Nat}

variable {s t : State} {a : Option Symbol}

/-- The loop over the states of an entry comes to its end, with the states `e` in the entry. On the way it inserts the
states `log`, in this order: for each state that is walked, those that it adds to the entry, and those that it adds to
the next one. -/
inductive Walks (step read : State → List State) : List State → List State → Entry → List State → Prop
  | done (seen : List State) : Walks step read seen [] seen.reverse []
  | next {seen queue new log : List State} {s : State} {e : Entry}
      (hnew : enqueue (s :: seen) queue (step s) = queue ++ new)
      (hrest : Walks step read (s :: seen) (queue ++ new) e log) :
      Walks step read seen (s :: queue) e (new ++ read s ++ log)

/-- The states that a state adds to the next entry. -/
def readings (g : Grammar) (ahead : Option Symbol) (s : State) : List State :=
  ahead.elim [] (scan g [s])

/-- The states of a record that belong to one entry. -/
def endingAt (i : Nat) (log : List State) : Entry :=
  log.filter fun s => s.finish = i

/-- The entries before a position have been walked, each from the states inserted into it before, and they are those
of the chart. All states that have been inserted are `log`, in this order. -/
inductive Recorded (g : Grammar) (rulesOf : Predictor) (input : List Symbol) (chart : Chart) :
    Nat → List State → Prop
  | start : Recorded g rulesOf input chart 0 [initial g]
  | walked {i : Nat} {log new : List State} (hlog : Recorded g rulesOf input chart i log)
      (hwalk : Walks (successors rulesOf (chart.extract 0 i) i input[i]?) (readings g input[i]?)
        [] (endingAt i log) (chart.getD i []) new) :
      Recorded g rulesOf input chart (i + 1) (log ++ new)

/-! ### Walking an entry -/

/-- A loop whose queue is worked off before the fuel runs out comes to its end. -/
lemma exists_walks {fuel : Nat} (read : State → List State) (h : Ends step fuel seen queue) :
    ∃ log, Walks step read seen queue (work step fuel seen queue) log := by
  induction fuel generalizing seen queue with
  | zero =>
    cases queue with
    | nil => exact ⟨[], by simpa [work] using Walks.done seen⟩
    | cons s queue => exact h.elim
  | succ fuel ih =>
    cases queue with
    | nil => exact ⟨[], .done seen⟩
    | cons s queue =>
      obtain ⟨new, hnew⟩ := queue_prefix_enqueue (s :: seen) queue (step s)
      obtain ⟨log, hlog⟩ := ih h
      rw [← hnew] at hlog
      exact ⟨_, .next hnew.symm (by rwa [work, ← hnew])⟩

lemma endingAt_append (i : Nat) (l m : List State) : endingAt i (l ++ m) = endingAt i l ++ endingAt i m :=
  filter_append l m

lemma endingAt_eq_self {l : List State} (h : ∀ t ∈ l, t.finish = i) : endingAt i l = l :=
  filter_eq_self.2 fun t ht => decide_eq_true (h t ht)

lemma endingAt_eq_nil {l : List State} (h : ∀ t ∈ l, t.finish ≠ i) : endingAt i l = [] :=
  filter_eq_nil_iff.2 fun t ht hi => h t ht (of_decide_eq_true hi)

/-- What a loop inserts: the rest of its entry, and the states with which the next one begins. -/
lemma Walks.endingAt_log (h : Walks step read seen queue e log)
    (hstep : ∀ s, s.finish = i → ∀ t ∈ step s, t.finish = i)
    (hread : ∀ s, s.finish = i → ∀ t ∈ read s, t.finish = i + 1) (hqueue : ∀ s ∈ queue, s.finish = i) :
    e = seen.reverse ++ queue ++ endingAt i log ∧
      endingAt (i + 1) log = (queue ++ endingAt i log).flatMap read ∧
      ∀ t ∈ log, t.finish = i ∨ t.finish = i + 1 := by
  induction h with
  | done seen => simp [endingAt]
  | @next seen queue new log s e hnew hrest ih =>
    obtain ⟨hs, hqueue⟩ := forall_mem_cons.1 hqueue
    have hnew' : ∀ t ∈ new, t.finish = i := by
      intro t ht
      have hmem : t ∈ enqueue (s :: seen) queue (step s) := hnew ▸ mem_append_right queue ht
      exact (mem_enqueue hmem).elim (hqueue t) fun h => hstep s hs t h.1
    have hread' := hread s hs
    obtain ⟨he, hnext, hall⟩ := ih fun t ht => (mem_append.1 ht).elim (hqueue t) (hnew' t)
    have hthis : endingAt i (new ++ read s ++ log) = new ++ endingAt i log := by
      rw [endingAt_append, endingAt_append, endingAt_eq_self hnew', endingAt_eq_nil fun t ht => ?_, append_nil]
      have := hread' t ht
      omega
    have hthat : endingAt (i + 1) (new ++ read s ++ log) = read s ++ endingAt (i + 1) log := by
      rw [endingAt_append, endingAt_append, endingAt_eq_self hread', endingAt_eq_nil fun t ht => ?_, nil_append]
      have := hnew' t ht
      omega
    refine ⟨?_, ?_, ?_⟩
    · rw [he, hthis]
      simp
    · rw [hthis, hthat, hnext]
      simp
    · simp only [mem_append]
      rintro t ((ht | ht) | ht)
      · exact .inl (hnew' t ht)
      · exact .inr (hread' t ht)
      · exact hall t ht

/-! ### Back-pointers -/

/-- Every state comes after the states that it points back to. -/
def Ordered (log : List State) : Prop :=
  ∀ before s after, log = before ++ s :: after → ∀ u ∈ s.back, u ∈ before

lemma Ordered.mem_of_mem_back (h : Ordered log) {u : State} (hs : s ∈ log) (hu : u ∈ s.back) : u ∈ log := by
  obtain ⟨before, after, rfl⟩ := append_of_mem hs
  exact mem_append_left _ (h before s after rfl u hu)

lemma Ordered.append (h : Ordered log) {new : List State} (hnew : ∀ t ∈ new, ∀ u ∈ t.back, u ∈ log) :
    Ordered (log ++ new) := by
  intro before s after heq u hu
  rcases append_eq_append_iff.1 heq with ⟨first, rfl, hfirst⟩ | ⟨last, rfl, hlast⟩
  · exact mem_append_left _ (hnew s (by simp [hfirst]) u hu)
  · cases last with
    | nil =>
      rw [nil_append] at hlast
      simpa using hnew s (by simp [← hlast]) u hu
    | cons t last =>
      obtain ⟨rfl, -⟩ := List.cons.inj hlast
      exact h before s last rfl u hu

/-- A loop keeps the order, if a state that is added points back only to the state that is walked, or as a state
does that has been inserted already. -/
lemma Walks.ordered (h : Walks step read seen queue e log) {before : List State} (hbefore : Ordered before)
    (hstep : ∀ s, ∀ t ∈ step s, ∀ u ∈ t.back, u = s ∨ ∃ p ∈ before, u ∈ p.back)
    (hread : ∀ s, ∀ t ∈ read s, t.back = s.back) (hqueue : ∀ s ∈ queue, s ∈ before) : Ordered (before ++ log) := by
  induction h generalizing before with
  | done seen => rwa [append_nil]
  | @next seen queue new log s e hnew hrest ih =>
    obtain ⟨hs, hqueue⟩ := forall_mem_cons.1 hqueue
    have hadded : ∀ t ∈ new ++ read s, ∀ u ∈ t.back, u ∈ before := by
      intro t ht u hu
      rcases mem_append.1 ht with ht | ht
      · have hmem : t ∈ enqueue (s :: seen) queue (step s) := hnew ▸ mem_append_right queue ht
        rcases mem_enqueue hmem with ht | ht
        · exact hbefore.mem_of_mem_back (hqueue t ht) hu
        · rcases hstep s t ht.1 u hu with rfl | ⟨p, hp, hup⟩
          · exact hs
          · exact hbefore.mem_of_mem_back hp hup
      · exact hbefore.mem_of_mem_back hs (hread s t ht ▸ hu)
    rw [← append_assoc]
    refine ih (hbefore.append hadded) (fun s t ht u hu => ?_) fun t ht => ?_
    · exact (hstep s t ht u hu).imp_right fun ⟨p, hp, hup⟩ => ⟨p, mem_append_left _ hp, hup⟩
    · rcases mem_append.1 ht with ht | ht
      · exact mem_append_left _ (hqueue t ht)
      · exact mem_append_right _ (mem_append_left _ ht)

/-! ### The whole chart -/

lemma seeds_succ (g : Grammar) (input : List Symbol) (chart : Chart) (i : Nat) :
    seeds g input chart (i + 1) = (chart.getD i []).flatMap (readings g input[i]?) := by
  have hscan : ∀ (e : Entry) (a : Symbol), scan g e a = e.flatMap fun s => scan g [s] a := by
    intro e a
    simp only [scan, waiting]
    split
    · induction e with
      | nil => rfl
      | cons s e ih => by_cases hs : s.next? = some a <;> simp [hs, ih]
    · simp
  rw [seeds]
  cases input[i]? with
  | none => simp [readings]
  | some a => exact hscan _ a

lemma eq_scanned_of_mem_readings (ht : t ∈ readings g a s) : t = s.scanned := by
  cases a with
  | none => exact absurd ht not_mem_nil
  | some a =>
    simp only [readings, Option.elim_some, scan, waiting] at ht
    split at ht
    · obtain ⟨w, hw, rfl⟩ := mem_map.1 ht
      rw [mem_singleton.1 (mem_filter.1 hw).1]
    · exact absurd ht not_mem_nil

lemma finish_of_mem_successors (hs : s.finish = i) (ht : t ∈ successors rulesOf chart i a s) : t.finish = i := by
  unfold successors at ht
  split at ht
  · obtain ⟨w, -, rfl⟩ := mem_map.1 ht
    exact hs
  · obtain ⟨p, -, rfl⟩ := mem_map.1 ht
    rfl

/-- A state that is added to an entry points back to the state that adds it, or as a state of an earlier entry. -/
lemma back_of_mem_successors {u : State} (ht : t ∈ successors rulesOf (chart.extract 0 i) i a s)
    (hu : u ∈ t.back) :
    u = s ∨ ∃ j < i, ∃ p ∈ chart.getD j [], u ∈ p.back := by
  unfold successors at ht
  split at ht
  · obtain ⟨w, hw, rfl⟩ := mem_map.1 ht
    have hw := (mem_filter.1 hw).1
    rw [getD_extract] at hw
    split at hw
    · rename_i hlt
      rcases mem_append.1 hu with hu | hu
      · exact .inr ⟨s.origin, hlt, w, hw, hu⟩
      · exact .inl (mem_singleton.1 hu)
    · exact absurd hw not_mem_nil
  · obtain ⟨p, -, rfl⟩ := mem_map.1 ht
    exact absurd hu not_mem_nil

/-- The record of a chart exists. It holds the states of each entry in their order, and each of them comes after those
that it points back to. -/
theorem exists_recorded (input : List Symbol) (hfits : Predictor.Fits g rulesOf) {k : Nat} (hk : k ≤ input.length + 1) :
    ∃ log, Recorded g rulesOf input (build g rulesOf input) k log ∧ Ordered log ∧
      (∀ i < k, endingAt i log = (build g rulesOf input).getD i []) ∧
      endingAt k log = seeds g input (build g rulesOf input) k ∧ ∀ i > k, endingAt i log = [] := by
  induction k with
  | zero =>
    refine ⟨[initial g], .start, ?_, by simp, by simp [endingAt, initial, seeds], ?_⟩
    · intro before s after h u hu
      have hs : s ∈ [initial g] := h ▸ mem_append_right _ mem_cons_self
      rw [mem_singleton.1 hs] at hu
      exact absurd hu not_mem_nil
    · intro i hi
      simp [endingAt, initial, Nat.ne_of_lt hi]
  | succ i ih =>
    obtain ⟨log, hrecord, hordered, hbefore, hseeds, hafter⟩ := ih (by omega)
    have hi : i ≤ input.length := by omega
    set chart := build g rulesOf input
    obtain ⟨new, hwalk⟩ := exists_walks (readings g input[i]?) (ends_build hfits hi)
    have hentry : chart.getD i [] = work (successors rulesOf (chart.extract 0 i) i input[i]?)
        ((i + 1) * g.dotCount + 1) [] (seeds g input chart i) := getD_build g rulesOf input hi
    rw [← hentry] at hwalk
    rw [← hseeds] at hwalk
    obtain ⟨he, hnext, hall⟩ := hwalk.endingAt_log (fun s hs t ht => finish_of_mem_successors hs ht)
      (fun s hs t ht => eq_scanned_of_mem_readings ht ▸ congrArg (· + 1) hs)
      fun s hs => of_decide_eq_true (mem_filter.1 hs).2
    have hnone : ∀ j, j ≠ i → j ≠ i + 1 → endingAt j new = [] := fun j hj hj' =>
      endingAt_eq_nil fun t ht h => (hall t ht).elim (fun ht => hj (h ▸ ht)) fun ht => hj' (h ▸ ht)
    refine ⟨log ++ new, .walked hrecord hwalk, ?_, ?_, ?_, ?_⟩
    · refine hwalk.ordered hordered (fun s t ht u hu => ?_) (fun s t ht => ?_) fun s hs => (mem_filter.1 hs).1
      · refine (back_of_mem_successors ht hu).imp_right ?_
        rintro ⟨j, hj, p, hp, hup⟩
        rw [← hbefore j hj] at hp
        exact ⟨p, (mem_filter.1 hp).1, hup⟩
      · rw [eq_scanned_of_mem_readings ht]
        rfl
    · intro j hj
      rcases Nat.lt_succ_iff_lt_or_eq.1 hj with hj | rfl
      · rw [endingAt_append, hbefore j hj, hnone j (by omega) (by omega), append_nil]
      · rw [endingAt_append, he]
        rfl
    · rw [endingAt_append, hafter _ (Nat.lt_succ_self i), hnext, seeds_succ, he]
      rfl
    · intro j hj
      rw [endingAt_append, hafter j (by omega), hnone j (by omega) (by omega)]
      rfl

/-- The construction of a chart comes to its end, with an entry for every position. The states of an entry end at its
position and begin no later, complete ones earlier; no two of them have the same rule, dot and origin, so that their
number is bounded. All states are inserted one after the other, each after those that it points back to. -/
theorem recognize_bounded (g : Grammar) (tokens : List Token) :
    let chart := recognize g tokens
    chart.size = tokens.length + 1 ∧
    (∀ i ≤ tokens.length,
      (∀ s ∈ chart.getD i [], s.origin ≤ i ∧ s.finish = i ∧ (s.isComplete = true → s.origin < s.finish)) ∧
      (chart.getD i []).Pairwise (fun s t => (s.number, s.dot, s.origin) ≠ (t.number, t.dot, t.origin)) ∧
      (chart.getD i []).length ≤ (i + 1) * ((g.acceptRule :: g.rules).map fun r => r.rhs.length + 1).sum) ∧
    ∃ log, Recorded g (predict g.expansions) (tokens.map Token.symbol) chart (tokens.length + 1) log ∧
      (∀ i ≤ tokens.length, endingAt i log = chart.getD i []) ∧
      ∀ before s after, log = before ++ s :: after → ∀ t ∈ s.back, t ∈ before := by
  intro chart
  have hfits := fits_predict g
  set input := tokens.map Token.symbol with hinput
  have hlength : input.length = tokens.length := List.length_map _
  refine ⟨?_, fun i hi => ?_, ?_⟩
  · rw [← hlength]
    exact size_build g _ input
  · have hi : i ≤ input.length := hlength ▸ hi
    have hjust : ∀ s ∈ chart.getD i [], Justified g input s ∧ s.finish = i := fun s hs =>
      justified_of_mem hfits hi hs
    have hnodup : ((chart.getD i []).map State.key).Nodup := nodup_build hi
    refine ⟨fun s hs => ?_, List.pairwise_map.1 hnodup, ?_⟩
    · obtain ⟨hjust, hfinish⟩ := hjust s hs
      have hle := hjust.origin_add_dot_le
      exact ⟨by omega, hfinish, fun h => hjust.origin_lt_of_complete (hjust.isComplete_iff.1 h)⟩
    · have hsubset : (chart.getD i []).map State.key ⊆ keys g i := by
        intro key hkey
        obtain ⟨s, hs, rfl⟩ := List.mem_map.1 hkey
        exact (hjust s hs).1.key_mem (hjust s hs).2
      have hle := (List.subperm_of_subset hnodup hsubset).length_le
      have htotal : ∀ l : List Nat, total l = l.sum := by
        intro l
        induction l with
        | nil => rfl
        | cons n l ih => rw [total, ih, List.sum_cons]
      rwa [List.length_map, length_keys, Grammar.dotCount, htotal] at hle
  · obtain ⟨log, hrecord, hordered, hentries, -⟩ := exists_recorded input hfits (le_refl _)
    rw [hlength] at hrecord hentries
    exact ⟨log, hrecord, fun i hi => hentries i (Nat.lt_succ_of_le hi), hordered⟩

end Chart

end Lunify
