import Lunify.Cache.Store
import Lunify.Proofs.Cache.Block

/-!
# What a store answers

A store with a working disk tier is taken through puts, lookups and openings. Both tiers are described by the
history of these steps: the disk tier holds what was put last under a key (`Store.lastPut`), and the memory tier
holds the last value that fits it (`Store.lastFitting`), if one came into it since the last opening
(`Store.remembers`). The two differ when a large value is put over a small one that is in memory, and then a
lookup is answered with the small one.
-/

namespace Lunify

open List

/-! ### Entries -/

variable {key k v : Text}

/-- What is under a key after some key was taken away. -/
lemma lookup_filter_ne (key k : Text) (entries : List (Text × Text)) :
    (entries.filter fun e => e.1 ≠ k).lookup key = if key = k then none else entries.lookup key := by
  induction entries with
  | nil => simp
  | cons e entries ih =>
    obtain ⟨k', v'⟩ := e
    by_cases hk : k' = k
    · rw [filter_cons_of_neg (by simpa using hk), ih, lookup_cons]
      by_cases hkey : key = k
      · simp [hkey]
      · have hne : (key == k') = false := by simp [hk, hkey]
        simp [hkey, hne]
    · rw [filter_cons_of_pos (by simpa using hk), lookup_cons, lookup_cons, ih]
      by_cases hkey : key = k'
      · simp [hkey, hk]
      · have hne : (key == k') = false := by simp [hkey]
        simp [hne]

lemma lookup_putEntry (key k v : Text) (entries : List (Text × Text)) :
    (putEntry k v entries).lookup key = if key = k then some v else entries.lookup key := by
  rw [putEntry, lookup_cons, lookup_filter_ne]
  by_cases hkey : key = k
  · simp [hkey]
  · have hne : (key == k) = false := by simp [hkey]
    simp [hkey, hne]

namespace Store

/-! ### Histories -/

/-- What can be done with a store whose disk tier works. An opening closes the store first. -/
inductive Step where
  | put (key value : Text)
  | get (key : Text)
  | reopen
deriving DecidableEq, Repr

/-- The store after a step. -/
def Step.apply : Step → Store → Store
  | .put key value, s => s.put key value
  | .get key, s => (s.get key).2
  | .reopen, s => s.close.reopen

/-- The store after a history, whose latest step comes first. It begins on an empty disk tier. -/
def after : List Step → Store
  | [] => onDisk (some Disk.empty)
  | step :: older => step.apply (after older)

/-- The value that was put last under a key. -/
def lastPut (key : Text) : List Step → Option Text
  | [] => none
  | .put k value :: older => if k = key then some value else lastPut key older
  | .get _ :: older | .reopen :: older => lastPut key older

/-- The value that was put last under a key among those that fit memory. -/
def lastFitting (key : Text) : List Step → Option Text
  | [] => none
  | .put k value :: older =>
    if k = key && fitsMemory key value then some value else lastFitting key older
  | .get _ :: older | .reopen :: older => lastFitting key older

/-- Whether a value of a key came into memory since the last opening: one that fits was put, or was looked up
when it was the last one put. -/
def remembers (key : Text) : List Step → Bool
  | [] => false
  | .put k value :: older => (k = key && fitsMemory key value) || remembers key older
  | .get k :: older => (k = key && (lastPut key older).any (fitsMemory key)) || remembers key older
  | .reopen :: _ => false

/-- The number of lookups since the last opening. -/
def lookups : List Step → Nat
  | [] => 0
  | .put _ _ :: older => lookups older
  | .get _ :: older => lookups older + 1
  | .reopen :: _ => 0

/-- How a store reflects its history in its two tiers and its counters. -/
structure Reflects (history : List Step) (s : Store) : Prop where
  disk : ∃ d, s.disk? = some d ∧ d.isOpen = true ∧
    ∀ key, d.blocks.lookup key = (lastPut key history).map Block.encode
  memory : ∀ key, s.memory.lookup key = if remembers key history then lastFitting key history else none
  tally : s.tally.memory + s.tally.disk + s.tally.missed = lookups history

variable {history : List Step} {s : Store}

/-- The last value is the last fitting one if it fits. -/
lemma lastFitting_of_lastPut (h : lastPut key history = some v) (hfits : fitsMemory key v = true) :
    lastFitting key history = some v := by
  induction history with
  | nil => cases h
  | cons step older ih =>
    cases step with
    | put k value =>
      rw [lastPut] at h
      split at h
      · rename_i hk
        cases h
        simp [lastFitting, hk, hfits]
      · rename_i hk
        simp [lastFitting, hk, ih h]
    | get k => exact ih h
    | reopen => exact ih h

lemma lastFitting_of_lastPut_eq_none (h : lastPut key history = none) : lastFitting key history = none := by
  induction history with
  | nil => rfl
  | cons step older ih =>
    cases step with
    | put k value =>
      rw [lastPut] at h
      split at h
      · cases h
      · rename_i hk
        simp [lastFitting, hk, ih h]
    | get k => exact ih h
    | reopen => exact ih h

lemma fitsMemory_of_lastFitting (h : lastFitting key history = some v) : fitsMemory key v = true := by
  induction history with
  | nil => cases h
  | cons step older ih =>
    cases step with
    | put k value =>
      rw [lastFitting] at h
      split at h
      · rename_i hk
        cases h
        exact (Bool.and_eq_true_iff.1 hk).2
      · exact ih h
    | get k => exact ih h
    | reopen => exact ih h

/-- The last value was put. -/
lemma mem_of_lastPut (h : lastPut key history = some v) : .put key v ∈ history := by
  induction history with
  | nil => cases h
  | cons step older ih =>
    cases step with
    | put k value =>
      rw [lastPut] at h
      split at h
      · rename_i hk
        cases h
        exact hk ▸ mem_cons_self
      · exact mem_cons_of_mem _ (ih h)
    | get k => exact mem_cons_of_mem _ (ih h)
    | reopen => exact mem_cons_of_mem _ (ih h)

/-- A value of a key that is in memory fits there. -/
lemma exists_lastFitting (h : remembers key history = true) : ∃ v, lastFitting key history = some v := by
  induction history with
  | nil => cases h
  | cons step older ih =>
    cases step with
    | put k value =>
      rw [lastFitting]
      split
      · exact ⟨value, rfl⟩
      · rename_i hk
        rw [remembers, Bool.eq_false_iff.2 hk, Bool.false_or] at h
        exact ih h
    | get k =>
      rw [remembers, Bool.or_eq_true] at h
      rcases h with h | h
      · obtain ⟨v, hv, hfits⟩ := (Option.any_eq_true _ _).1 (Bool.and_eq_true_iff.1 h).2
        exact ⟨v, lastFitting_of_lastPut hv hfits⟩
      · exact ih h
    | reopen => cases h

/-! ### One step -/

lemma lookup_memory_remember (s : Store) (k v key : Text) :
    (s.remember k v).memory.lookup key =
      if key = k ∧ fitsMemory k v = true then some v else s.memory.lookup key := by
  rw [remember]
  split
  · rename_i hfits
    simp [lookup_putEntry, hfits]
  · rename_i hfits
    simp [hfits]

@[simp] lemma disk?_remember (s : Store) (k v : Text) : (s.remember k v).disk? = s.disk? := by
  unfold remember
  split <;> rfl

@[simp] lemma tally_remember (s : Store) (k v : Text) : (s.remember k v).tally = s.tally := by
  unfold remember
  split <;> rfl

/-- What a lookup can do: it is answered by memory, by neither tier, or by the disk tier, whose block is read or
dropped. -/
lemma get_cases (s : Store) (k : Text) :
    (∃ v, s.memory.lookup k = some v ∧
      s.get k = (some v, { s with tally := { s.tally with memory := s.tally.memory + 1 } })) ∨
    s.memory.lookup k = none ∧
      ((s.disk?.bind (·.get? k) = none ∧ s.get k = (none, s.miss)) ∨
        ∃ block, s.disk?.bind (·.get? k) = some block ∧
          ((∃ v, Block.decode block = some v ∧ s.get k =
              (some v, { s with tally := { s.tally with disk := s.tally.disk + 1 } }.remember k v)) ∨
            Block.decode block = none ∧ s.get k = (none, (s.forget k).miss))) := by
  unfold get
  cases hmemory : s.memory.lookup k with
  | some v => exact .inl ⟨v, rfl, rfl⟩
  | none =>
    refine .inr ⟨rfl, ?_⟩
    cases hdisk : s.disk?.bind (·.get? k) with
    | none => exact .inl ⟨rfl, rfl⟩
    | some block =>
      refine .inr ⟨block, rfl, ?_⟩
      cases hdecode : Block.decode block with
      | some v => exact .inl ⟨v, rfl, by simp only [hdecode]⟩
      | none => exact .inr ⟨rfl, by simp only [hdecode]⟩

/-- A value that is put is reflected. -/
lemma Reflects.put (h : Reflects history s) (k v : Text) : Reflects (.put k v :: history) (s.put k v) where
  disk := by
    obtain ⟨d, hd, hopen, hblocks⟩ := h.disk
    refine ⟨d.put k (Block.encode v), by simp [Store.put, hd], by simp [Disk.put, hopen], fun key => ?_⟩
    simp only [Disk.put, hopen, if_true, lookup_putEntry, lastPut, hblocks]
    by_cases hkey : k = key
    · simp [hkey]
    · simp [hkey, Ne.symm hkey]
  memory := fun key => by
    have hmemory : (s.put k v).memory = (s.remember k v).memory := rfl
    rw [hmemory, lookup_memory_remember, h.memory, remembers, lastFitting]
    by_cases hkey : k = key
    · subst hkey
      by_cases hfits : fitsMemory k v = true <;> simp [hfits]
    · simp [hkey, Ne.symm hkey]
  tally := by
    rw [lookups, ← h.tally]
    simp [Store.put]

/-- A lookup only adds to memory, and only what was put last under its key. -/
lemma remembers_get (key k : Text) (history : List Step) :
    (if remembers key (.get k :: history) then lastFitting key (.get k :: history) else none) =
      if key = k ∧ remembers k history = false ∧ (lastPut k history).any (fitsMemory k) = true then
        lastPut k history
      else if remembers key history then lastFitting key history else none := by
  rw [remembers, lastFitting]
  by_cases hkey : k = key
  · subst hkey
    cases hremembers : remembers k history with
    | true => simp
    | false =>
      by_cases hfits : (lastPut k history).any (fitsMemory k) = true
      · obtain ⟨v, hv, hv'⟩ := (Option.any_eq_true _ _).1 hfits
        simp [hv, hv', lastFitting_of_lastPut hv hv']
      · simp [hfits]
  · simp [hkey, Ne.symm hkey]

/-- A lookup is reflected, if the last value can be read back from its block. -/
lemma Reflects.get (h : Reflects history s) (k : Text)
    (hcodec : ∀ v, lastPut k history = some v → Block.decode (Block.encode v) = some v) :
    Reflects (.get k :: history) (s.get k).2 ∧
      (s.get k).1 = if remembers k history then lastFitting k history else lastPut k history := by
  obtain ⟨d, hd, hopen, hblocks⟩ := h.disk
  have hkept : s.disk?.bind (·.get? k) = (lastPut k history).map Block.encode := by
    simp [hd, Disk.get?, hopen, hblocks]
  have htally := h.tally
  have hmemory := h.memory k
  rcases get_cases s k with ⟨v, hv, hget⟩ | ⟨hnone, hget⟩
  · -- The value is in memory, and stays there.
    have hremembers : remembers k history = true := by
      by_contra hremembers
      rw [hv, if_neg hremembers] at hmemory
      cases hmemory
    rw [hv, if_pos hremembers] at hmemory
    rw [hget, if_pos hremembers]
    refine ⟨⟨⟨d, hd, hopen, hblocks⟩, fun key => ?_, ?_⟩, hmemory⟩
    · rw [remembers_get, if_neg (by simp [hremembers]), ← h.memory]
    · simp only [lookups]
      omega
  · have hremembers : remembers k history = false := by
      by_contra hremembers
      rw [Bool.not_eq_false] at hremembers
      obtain ⟨v, hv⟩ := exists_lastFitting hremembers
      rw [hnone, if_pos hremembers, hv] at hmemory
      cases hmemory
    rw [hkept] at hget
    rw [hremembers]
    rcases hget with ⟨hmissing, hget⟩ | ⟨block, hblock, hget⟩
    · -- Nothing was put under the key.
      have hlast : lastPut k history = none := Option.map_eq_none_iff.1 hmissing
      rw [hget, hlast]
      refine ⟨⟨⟨d, hd, hopen, hblocks⟩, fun key => ?_, ?_⟩, rfl⟩
      · rw [remembers_get, if_neg (by simp [hlast])]
        exact h.memory key
      · simp only [lookups, miss]
        omega
    · -- The block of the last value is read, and the value goes into memory if it fits.
      obtain ⟨v, hlast, rfl⟩ := Option.map_eq_some_iff.1 hblock
      have hdecode := hcodec v hlast
      rcases hget with ⟨w, hw, hget⟩ | ⟨hw, -⟩
      · rw [hdecode] at hw
        cases hw
        rw [hget, hlast]
        refine ⟨⟨⟨d, by rw [disk?_remember]; exact hd, hopen, hblocks⟩, fun key => ?_, ?_⟩, rfl⟩
        · rw [lookup_memory_remember, remembers_get, hlast]
          simp only [hremembers, Option.any_some, true_and, h.memory]
        · simp only [lookups, tally_remember]
          omega
      · rw [hdecode] at hw
        cases hw

lemma Reflects.reopen (h : Reflects history s) : Reflects (.reopen :: history) s.close.reopen where
  disk := by
    obtain ⟨d, hd, hopen, hblocks⟩ := h.disk
    exact ⟨{ d with isOpen := true }, by simp [Store.reopen, close, onDisk, hd], rfl, hblocks⟩
  memory := fun key => by simp [Store.reopen, onDisk, remembers]
  tally := rfl

/-! ### Whole histories -/

/-- A store reflects its history, if the values in it can be read back from their blocks. -/
lemma reflects_after
    (hcodec : ∀ key value, .put key value ∈ history → Block.decode (Block.encode value) = some value) :
    Reflects history (after history) := by
  induction history with
  | nil => exact ⟨⟨Disk.empty, rfl, rfl, fun key => rfl⟩, fun key => rfl, rfl⟩
  | cons step older ih =>
    have holder := ih fun key value hmem => hcodec key value (mem_cons_of_mem _ hmem)
    cases step with
    | put k v => exact holder.put k v
    | get k =>
      exact (holder.get k fun v hv => hcodec k v (mem_cons_of_mem _ (mem_of_lastPut hv))).1
    | reopen => exact holder.reopen

lemma get_after
    (hcodec : ∀ key value, .put key value ∈ history → Block.decode (Block.encode value) = some value)
    (key : Text) : ((after history).get key).1 =
      if remembers key history then lastFitting key history else lastPut key history :=
  ((reflects_after hcodec).get key fun v hv => hcodec key v (mem_of_lastPut hv)).2

/-- After any history a lookup gives the value that was put last under its key, or nothing if there is none,
exactly unless that value is too large for memory and memory has got another one since the last opening; then it
gives the last one that fits. The counters add up to the number of lookups since the last opening. -/
theorem get_after_eq_lastPut_iff (history : List Step)
    (hcodec : ∀ key value, .put key value ∈ history → Block.decode (Block.encode value) = some value)
    (key : Text) :
    (((after history).get key).1 = lastPut key history ↔
      ¬ (remembers key history = true ∧
        ∃ value, lastPut key history = some value ∧ fitsMemory key value = false)) ∧
    (remembers key history = true → ((after history).get key).1 = lastFitting key history) ∧
    (after history).tally.memory + (after history).tally.disk + (after history).tally.missed =
      lookups history := by
  refine ⟨?_, fun hremembers => by rw [get_after hcodec, if_pos hremembers], (reflects_after hcodec).tally⟩
  rw [get_after hcodec]
  constructor
  · rintro heq ⟨hremembers, value, hvalue, hfits⟩
    rw [if_pos hremembers, hvalue] at heq
    rw [fitsMemory_of_lastFitting heq] at hfits
    cases hfits
  · intro hnot
    by_cases hremembers : remembers key history = true
    · rw [if_pos hremembers]
      cases hlast : lastPut key history with
      | none => exact lastFitting_of_lastPut_eq_none hlast
      | some value =>
        refine lastFitting_of_lastPut hlast ?_
        rw [← Bool.not_eq_false]
        exact fun hfits => hnot ⟨hremembers, value, hlast, hfits⟩
    · rw [if_neg hremembers]

lemma fitsMemory_replicate {n : Nat} (hn : memoryLimit ≤ n) (key : Text) (b : UInt8) :
    fitsMemory key (List.replicate n b) = false := by
  rw [fitsMemory, length_replicate, decide_eq_false_iff_not]
  omega

/-- A value of `n` bytes can be read back from its block if these are not too many. -/
lemma decode_encode_replicate {n : Nat} (hn : n < 2 ^ 32) (b : UInt8) :
    Block.decode (Block.encode (List.replicate n b)) = some (List.replicate n b) := by
  rw [Block.decode_encode, length_replicate, if_pos hn]

/-- A large value under an empty memory is found in the disk tier. -/
theorem get_after_large_reopened :
    let small := List.replicate 1 (byte 's')
    let large := List.replicate 65536 (byte 'l')
    let history : List Step := [.put [] large, .reopen, .get [], .put [] small]
    ((after history).get []).1 = some large ∧
      (after history).tally.memory + (after history).tally.disk + (after history).tally.missed = 0 := by
  intro small large history
  have hcodec : ∀ key value, .put key value ∈ history →
      Block.decode (Block.encode value) = some value := by
    intro key value hmem
    simp only [history, List.mem_cons, Step.put.injEq, reduceCtorEq, List.not_mem_nil, or_false,
      false_or] at hmem
    rcases hmem with ⟨-, rfl⟩ | ⟨-, rfl⟩
    · exact decode_encode_replicate (by norm_num) _
    · exact decode_encode_replicate (by norm_num) _
  have hfits : fitsMemory [] large = false := fitsMemory_replicate (Nat.le_refl _) _ _
  obtain ⟨hlast, -, htally⟩ := get_after_eq_lastPut_iff history hcodec []
  refine ⟨(hlast.2 ?_).trans rfl, htally⟩
  simp [history, remembers, hfits]

/-- A large value that is put over a small one in memory is not found: the lookup gives the small one. -/
theorem get_after_large_over_small :
    let small := List.replicate 1 (byte 's')
    let large := List.replicate 65536 (byte 'l')
    let history : List Step := [.put [] large, .put [] small]
    lastPut [] history = some large ∧ ((after history).get []).1 = some small := by
  intro small large history
  have hsmall : fitsMemory [] small = true := by decide
  have hlarge : fitsMemory [] large = false := fitsMemory_replicate (Nat.le_refl _) _ _
  have hcodec : ∀ key value, .put key value ∈ history →
      Block.decode (Block.encode value) = some value := by
    intro key value hmem
    simp only [history, List.mem_cons, Step.put.injEq, List.not_mem_nil, or_false] at hmem
    rcases hmem with ⟨-, rfl⟩ | ⟨-, rfl⟩
    · exact decode_encode_replicate (by norm_num) _
    · exact decode_encode_replicate (by norm_num) _
  refine ⟨rfl, ?_⟩
  rw [get_after hcodec]
  simp [history, remembers, lastFitting, hsmall, hlarge]

end Store

end Lunify
