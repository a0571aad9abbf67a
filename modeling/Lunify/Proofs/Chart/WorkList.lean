import Mathlib.Data.List.Nodup
import Mathlib.Data.List.Perm.Subperm
import Lunify.Chart.Basic

/-!
# The work list of an entry

An entry is built by `Chart.work`, which takes states from a queue, and by `Chart.enqueue`, which
puts the states that follow from them at its end unless their keys have been seen. Nothing here
depends on what the states mean: the step function is arbitrary.

The list that remains holds the states it began with, has no two states with one key, keeps every
property that steps to other keys keep, and, when the fuel exceeds the number of keys there are, is closed under
steps: a state that a step gives is represented by one with the same key.
-/

namespace Lunify

open List

namespace State

/-- What tells states of one entry apart: the number of the rule, the dot and the origin. -/
def key (s : State) : Nat × Nat × Nat :=
  (s.number, s.dot, s.origin)

lemma same_iff (s t : State) : s.same t = true ↔ s.key = t.key := by
  simp [same, key, and_assoc]

/-- Some state of a list is the same as `s` when the key of `s` occurs in it. -/
lemma any_same_iff (l : List State) (s : State) :
    l.any s.same = true ↔ s.key ∈ l.map key := by
  rw [any_eq_true, mem_map]
  constructor
  · rintro ⟨t, ht, hst⟩
    exact ⟨t, ht, ((same_iff s t).1 hst).symm⟩
  · rintro ⟨t, ht, hst⟩
    exact ⟨t, ht, (same_iff s t).2 hst.symm⟩

end State

namespace Chart

variable {queue seen : List State} {fuel : Nat} {P : State → Prop}

/-! ### Putting states into the queue -/

/-- A state is left out of the queue exactly when its key has been seen or is in the queue. -/
lemma seen_iff (seen queue : List State) (s : State) :
    (seen.any s.same || queue.any s.same) = true ↔ s.key ∈ (seen ++ queue).map State.key := by
  rw [Bool.or_eq_true, State.any_same_iff, State.any_same_iff, map_append, mem_append]

lemma queue_prefix_enqueue (seen queue new : List State) :
    queue <+: enqueue seen queue new := by
  induction new generalizing queue with
  | nil => exact prefix_rfl
  | cons s new ih =>
    rw [enqueue]
    split
    · exact ih queue
    · exact (prefix_append queue [s]).trans (ih (queue ++ [s]))

/-- What is in the queue afterwards was there before, or is new and has a key that was not seen. -/
lemma mem_enqueue {new : List State} {t : State} (ht : t ∈ enqueue seen queue new) :
    t ∈ queue ∨ (t ∈ new ∧ t.key ∉ seen.map State.key) := by
  induction new generalizing queue with
  | nil => exact Or.inl ht
  | cons s new ih =>
    have hlater : t ∈ new ∧ t.key ∉ seen.map State.key →
        t ∈ s :: new ∧ t.key ∉ seen.map State.key :=
      And.imp_left (mem_cons_of_mem s)
    rw [enqueue] at ht
    split at ht
    · exact (ih ht).imp_right hlater
    · rename_i hs
      rcases ih ht with h | h
      · rcases mem_append.1 h with h | h
        · exact Or.inl h
        · obtain rfl := mem_singleton.1 h
          refine Or.inr ⟨mem_cons_self, fun hkey => hs ((seen_iff seen queue t).2 ?_)⟩
          rw [map_append]
          exact mem_append_left _ hkey
      · exact Or.inr (hlater h)

/-- Putting states into a queue repeats no key. -/
lemma nodup_enqueue (new : List State) (h : ((seen ++ queue).map State.key).Nodup) :
    ((seen ++ enqueue seen queue new).map State.key).Nodup := by
  induction new generalizing queue with
  | nil => exact h
  | cons s new ih =>
    rw [enqueue]
    split
    · exact ih h
    · rename_i hs
      have hkey : s.key ∉ (seen ++ queue).map State.key := fun hmem =>
        hs ((seen_iff seen queue s).2 hmem)
      refine ih ?_
      rw [← append_assoc, map_append, map_singleton, nodup_append]
      refine ⟨h, nodup_singleton _, ?_⟩
      rintro k hk k' hk' rfl
      exact hkey (mem_singleton.1 hk' ▸ hk)

/-- Every new state is represented afterwards. -/
lemma key_mem_enqueue {new : List State} (queue : List State) {s : State} (hs : s ∈ new) :
    s.key ∈ (seen ++ enqueue seen queue new).map State.key := by
  have hmono : ∀ (q new' : List State) (k : Nat × Nat × Nat), k ∈ (seen ++ q).map State.key →
      k ∈ (seen ++ enqueue seen q new').map State.key := by
    intro q new' k hk
    obtain ⟨rest, hrest⟩ := queue_prefix_enqueue seen q new'
    rw [← hrest, ← append_assoc, map_append]
    exact mem_append_left _ hk
  induction new generalizing queue with
  | nil => exact absurd hs not_mem_nil
  | cons t new ih =>
    rw [enqueue]
    split
    · rename_i ht
      rcases mem_cons.1 hs with rfl | hs
      · exact hmono queue new _ ((seen_iff seen queue s).1 ht)
      · exact ih queue hs
    · rcases mem_cons.1 hs with rfl | hs
      · refine hmono (queue ++ [s]) new _ (mem_map_of_mem ?_)
        exact mem_append_right _ (mem_append_right _ mem_cons_self)
      · exact ih (queue ++ [t]) hs

/-! ### Working through the queue -/

variable {step : State → List State}

/-- The states that a work list begins with are in the entry. -/
lemma mem_work {s : State} (hs : s ∈ seen ++ queue) : s ∈ work step fuel seen queue := by
  induction fuel generalizing seen queue with
  | zero => simpa [work] using hs
  | succ fuel ih =>
    cases queue with
    | nil => simpa [work] using hs
    | cons t queue =>
      rw [work]
      refine ih ?_
      rcases mem_append.1 hs with h | h
      · exact mem_append_left _ (mem_cons_of_mem t h)
      · rcases mem_cons.1 h with rfl | h
        · exact mem_append_left _ mem_cons_self
        · exact mem_append_right _ ((queue_prefix_enqueue _ queue _).subset h)

/-- One step of the work list keeps what holds of all its states, if steps to other keys keep it. -/
lemma forall_mem_move (hstep : ∀ s, P s → ∀ t ∈ step s, t.key ≠ s.key → P t) {u : State}
    (h : ∀ s ∈ seen ++ u :: queue, P s) :
    ∀ s ∈ (u :: seen) ++ enqueue (u :: seen) queue (step u), P s := by
  intro s hs
  have hu : P u := h u (mem_append_right _ mem_cons_self)
  rcases mem_append.1 hs with hs | hs
  · rcases mem_cons.1 hs with rfl | hs
    · exact hu
    · exact h s (mem_append_left _ hs)
  · rcases mem_enqueue hs with hs | ⟨hs, hkey⟩
    · exact h s (mem_append_right _ (mem_cons_of_mem u hs))
    · exact hstep u hu s hs fun heq => hkey (heq ▸ mem_cons_self)

/-- What holds of the states that a work list begins with, and is kept by steps to other keys, holds
of all states of the entry. -/
lemma forall_mem_work (hstep : ∀ s, P s → ∀ t ∈ step s, t.key ≠ s.key → P t) (h : ∀ s ∈ seen ++ queue, P s) :
    ∀ s ∈ work step fuel seen queue, P s := by
  induction fuel generalizing seen queue with
  | zero =>
    intro s hs
    exact h s (by simpa [work] using hs)
  | succ fuel ih =>
    cases queue with
    | nil =>
      intro s hs
      exact h s (by simpa [work] using hs)
    | cons u queue =>
      rw [work]
      exact ih (forall_mem_move hstep h)

lemma perm_move (seen queue : List State) (t : State) :
    (((t :: seen) ++ queue).map State.key).Perm ((seen ++ t :: queue).map State.key) :=
  (perm_middle.symm).map State.key

/-- An entry has no two states with one key. -/
lemma nodup_work (h : ((seen ++ queue).map State.key).Nodup) :
    ((work step fuel seen queue).map State.key).Nodup := by
  have hreverse : ∀ l q : List State, ((l ++ q).map State.key).Nodup →
      ((l.reverse ++ q).map State.key).Nodup := by
    intro l q hl
    exact ((((reverse_perm l).append_right q).map State.key).nodup_iff).2 hl
  induction fuel generalizing seen queue with
  | zero => exact hreverse seen queue h
  | succ fuel ih =>
    cases queue with
    | nil => simpa [work] using hreverse seen [] h
    | cons t queue =>
      rw [work]
      exact ih (nodup_enqueue _ ((perm_move seen queue t).nodup_iff.2 h))

/-- The queue is worked off before the fuel runs out. -/
def Ends (step : State → List State) : Nat → List State → List State → Prop
  | _, _, [] => True
  | 0, _, _ :: _ => False
  | fuel + 1, seen, s :: queue => Ends step fuel (s :: seen) (enqueue (s :: seen) queue (step s))

/-- Fuel that exceeds the number of keys does not run out. The keys are those in `K`, and `P` is what
confines the states to them. -/
lemma ends_of_keys {K : List (Nat × Nat × Nat)} (hkeys : ∀ s, P s → s.key ∈ K)
    (hstep : ∀ s, P s → ∀ t ∈ step s, t.key ≠ s.key → P t) (hP : ∀ s ∈ seen ++ queue, P s)
    (hnodup : ((seen ++ queue).map State.key).Nodup) (hfuel : K.length < fuel + seen.length) :
    Ends step fuel seen queue := by
  induction fuel generalizing seen queue with
  | zero =>
    -- All keys of `seen` differ and lie in `K`, so that fuel cannot have run out.
    have hsub : seen.map State.key ⊆ K := by
      intro k hk
      obtain ⟨s, hs, rfl⟩ := mem_map.1 hk
      exact hkeys s (hP s (mem_append_left _ hs))
    have hnodup' : (seen.map State.key).Nodup := by
      rw [map_append] at hnodup
      exact (nodup_append.1 hnodup).1
    have hle : (seen.map State.key).length ≤ K.length :=
      (subperm_of_subset hnodup' hsub).length_le
    rw [length_map] at hle
    omega
  | succ fuel ih =>
    cases queue with
    | nil => trivial
    | cons u queue =>
      have hnodup' := nodup_enqueue (step u) ((perm_move seen queue u).nodup_iff.2 hnodup)
      refine ih (forall_mem_move hstep hP) hnodup' ?_
      rw [length_cons]
      omega

/-- An entry whose queue is empty holds the states seen, the first one first. -/
lemma work_nil (fuel : Nat) (seen : List State) : work step fuel seen [] = seen.reverse := by
  cases fuel with
  | zero => rw [work, append_nil]
  | succ fuel => rw [work]

/-- A list of states is closed under steps when it represents every state that a step from one of
its states gives. -/
def Closed (step : State → List State) (e : Entry) : Prop :=
  ∀ s ∈ e, ∀ t ∈ step s, t.key ∈ e.map State.key

/-- An entry whose queue is worked off is closed under steps. -/
lemma closed_work (hends : Ends step fuel seen queue)
    (hseen : ∀ s ∈ seen, ∀ t ∈ step s, t.key ∈ (seen ++ queue).map State.key) :
    Closed step (work step fuel seen queue) := by
  have hnil : ∀ {seen : List State} (fuel : Nat),
      (∀ s ∈ seen, ∀ t ∈ step s, t.key ∈ (seen ++ []).map State.key) →
        Closed step (work step fuel seen []) := by
    intro seen fuel hseen s hs t ht
    rw [work_nil] at hs ⊢
    rw [map_reverse, mem_reverse, ← append_nil seen]
    exact hseen s (mem_reverse.1 hs) t ht
  induction fuel generalizing seen queue with
  | zero =>
    cases queue with
    | nil => exact hnil _ hseen
    | cons u queue => exact hends.elim
  | succ fuel ih =>
    cases queue with
    | nil => exact hnil _ hseen
    | cons u queue =>
      rw [work]
      refine ih hends ?_
      intro s hs t ht
      rcases mem_cons.1 hs with rfl | hs
      · exact key_mem_enqueue queue ht
      · have hkey := (perm_move seen queue u).mem_iff.2 (hseen s hs t ht)
        obtain ⟨rest, hrest⟩ := queue_prefix_enqueue (u :: seen) queue (step u)
        rw [← hrest, ← append_assoc, map_append]
        exact mem_append_left _ hkey

/-- What an entry holds was there at the beginning or is a step from something that it holds. -/
lemma exists_of_mem_work {t : State} (ht : t ∈ work step fuel seen queue) :
    t ∈ seen ++ queue ∨ ∃ s ∈ work step fuel seen queue, t ∈ step s := by
  induction fuel generalizing seen queue with
  | zero => exact Or.inl (by simpa [work] using ht)
  | succ fuel ih =>
    cases queue with
    | nil => exact Or.inl (by simpa [work] using ht)
    | cons u queue =>
      rw [work] at ht ⊢
      rcases ih ht with h | h
      · rcases mem_append.1 h with h | h
        · rcases mem_cons.1 h with rfl | h
          · exact Or.inl (mem_append_right _ mem_cons_self)
          · exact Or.inl (mem_append_left _ h)
        · rcases mem_enqueue h with h | ⟨h, -⟩
          · exact Or.inl (mem_append_right _ (mem_cons_of_mem u h))
          · exact Or.inr ⟨u, mem_work (mem_append_left _ mem_cons_self), h⟩
      · exact Or.inr h

end Chart

end Lunify
