import Lunify.Proofs.Cache.Store
import Lunify.Proofs.Grammar.Builtin
import Lunify.Proofs.Grammar.RuleText

/-!
# A shared store changes no answer

Pipelines with different grammars and switches can share one store. Unless hashes collide, a key tells the
grammar, the switches and the source (`Pipeline.eq_of_key_eq`), so under the key of a source the store holds nothing
but its Lua text (`Store.Holds`). This is kept by everything that happens to a store, also from outside: memory may
give up entries, and blocks of the disk tier may be spoiled.
-/

namespace Lunify

open Tree (bind_eq_ok_iff)

/-! ### Keys -/

lemma Keccak.length_hash (message : Text) : (Keccak.hash message).length = 32 := by
  simp [Keccak.hash, Keccak.bytesOfLane]

/-- The rules of the built-in grammar can be written. -/
lemma Grammar.isWritable_builtin : ∀ r ∈ Grammar.builtin.rules, r.IsWritable := by
  have htable : ∀ p ∈ builtinTable,
      ((utf8 p.1).IsWord ∧ byte '#' ∉ utf8 p.1 ∧ ¬ utf8 "->" <:+: utf8 p.1) ∧
        ∀ rhs ∈ p.2, ∀ w ∈ rhs.map utf8, w.IsWord ∧ byte '#' ∉ w ∧ byte '|' ∉ w := by
    decide
  intro r hr
  obtain ⟨p, hp, rhs, hrhs, hlhs, hsymbols⟩ := exists_of_mem_builtin hr
  obtain ⟨⟨hword, hcomment, harrow⟩, hright⟩ := htable p hp
  have hright' : ∀ w ∈ r.rhs, w.IsWord ∧ byte '#' ∉ w ∧ byte '|' ∉ w := hsymbols ▸ hright rhs hrhs
  exact ⟨hlhs ▸ hword, hlhs ▸ hcomment, hlhs ▸ harrow, fun w hw => (hright' w hw).1,
    fun w hw => (hright' w hw).2.1, fun w hw => (hright' w hw).2.2⟩

namespace Pipeline

/-- Whether a pipeline can be set up: its grammar is the built-in one or is read from a file. -/
def IsSetUp (p : Pipeline) : Prop :=
  ∃ files path, Grammar.chosen files path = .ok p.grammar

/-- The text whose hash is the key of a source. -/
def keyText (p : Pipeline) (source : Text) : Text :=
  p.grammar.digest ++ p.mode :: source

variable {p q : Pipeline} {source source' : Text}

lemma IsSetUp.isWritable (h : p.IsSetUp) : ∀ r ∈ p.grammar.rules, r.IsWritable := by
  obtain ⟨files, path, h⟩ := h
  unfold Grammar.chosen at h
  split at h
  · exact Except.ok.inj h ▸ Grammar.isWritable_builtin
  · obtain ⟨text, -, hload⟩ := bind_eq_ok_iff.1 h
    exact Grammar.isWritable_of_load (Grammar.mapError_eq_ok_iff.1 hload)

lemma switches_of_mode_eq (h : p.mode = q.mode) : p.skipCheck = q.skipCheck ∧ p.verify = q.verify := by
  have hall : ∀ a b c d : Bool, ((if a then 1 else 0) + (if b then 2 else 0) : UInt8) =
      (if c then 1 else 0) + (if d then 2 else 0) → a = c ∧ b = d := by decide
  exact hall _ _ _ _ h

/-- Unless hashes collide, a key tells the pipeline and the source. -/
lemma eq_of_key_eq (hp : p.IsSetUp) (hq : q.IsSetUp)
    (hgrammar : Set.InjOn Keccak.hash {p.grammar.text, q.grammar.text})
    (hkey : Set.InjOn Keccak.hash {p.keyText source, q.keyText source'})
    (h : p.key source = q.key source') : p = q ∧ source = source' := by
  have htext : p.keyText source = q.keyText source' := hkey (by simp) (by simp) h
  have hlength : p.grammar.digest.length = q.grammar.digest.length := by
    rw [Grammar.digest, Grammar.digest, Keccak.length_hash, Keccak.length_hash]
  obtain ⟨hdigest, hrest⟩ := List.append_inj htext hlength
  obtain ⟨hmode, hsource⟩ := List.cons.inj hrest
  obtain ⟨hcheck, hverify⟩ := switches_of_mode_eq hmode
  have hrules := Grammar.eq_of_digest_eq hp.isWritable hq.isWritable hgrammar hdigest
  obtain ⟨g, a, b⟩ := p
  obtain ⟨g', a', b'⟩ := q
  simp only at hcheck hverify hrules
  rw [hcheck, hverify, hrules]
  exact ⟨rfl, hsource⟩

end Pipeline

namespace Store

/-! ### What a store holds -/

/-- Whether all that a store holds under a key has a property: what is in memory, and what can be read from a
block of the disk tier. -/
structure Holds (P : Text → Text → Prop) (s : Store) : Prop where
  memory : ∀ key value, s.memory.lookup key = some value → P key value
  disk : ∀ d ∈ s.disk?, ∀ key block value, d.blocks.lookup key = some block →
    Block.decode block = some value → P key value

variable {P : Text → Text → Prop} {s : Store} {key value : Text}

lemma Holds.remember (h : s.Holds P) (hvalue : P key value) : (s.remember key value).Holds P where
  memory := fun k v hv => by
    rw [lookup_memory_remember] at hv
    split at hv
    · rename_i hk
      cases hv
      exact hk.1 ▸ hvalue
    · exact h.memory k v hv
  disk := by
    rw [disk?_remember]
    exact h.disk

/-- A value that is put and has the property. -/
lemma Holds.put (h : s.Holds P) (hvalue : P key value) : (s.put key value).Holds P where
  memory := (h.remember hvalue).memory
  disk := by
    intro d hd k block v hblock hdecode
    rw [Store.put] at hd
    simp only [disk?_remember, Option.mem_def, Option.map_eq_some_iff] at hd
    obtain ⟨old, hold, rfl⟩ := hd
    unfold Disk.put at hblock
    split at hblock
    · rw [lookup_putEntry] at hblock
      split at hblock
      · rename_i hk
        cases hblock
        rw [hk, Block.eq_of_decode_encode hdecode]
        exact hvalue
      · exact h.disk old hold k block v hblock hdecode
    · exact h.disk old hold k block v hblock hdecode

/-- A store without memory on the same blocks keeps the property. -/
lemma Holds.withoutMemory (h : s.Holds P) {s' : Store} (hmemory : s'.memory = [])
    (hdisk : ∀ d' ∈ s'.disk?, ∃ d ∈ s.disk?, d'.blocks = d.blocks) : s'.Holds P where
  memory := fun key value hvalue => by
    rw [hmemory] at hvalue
    cases hvalue
  disk := fun d' hd' key block value hblock => by
    obtain ⟨d, hd, hblocks⟩ := hdisk d' hd'
    exact h.disk d hd key block value (hblocks ▸ hblock)

/-- Taking a block from the disk tier keeps the property. -/
lemma Holds.forget (h : s.Holds P) (key : Text) : (s.forget key).Holds P where
  memory := h.memory
  disk := by
    intro d hd k block v hblock hdecode
    obtain ⟨old, hold, rfl⟩ := Option.map_eq_some_iff.1 hd
    unfold Disk.erase at hblock
    split at hblock
    · rw [lookup_filter_ne] at hblock
      split at hblock
      · cases hblock
      · exact h.disk old hold k block v hblock hdecode
    · exact h.disk old hold k block v hblock hdecode

/-- A lookup gives a value with the property, and keeps it. -/
lemma Holds.get (h : s.Holds P) (key : Text) :
    (∀ value, (s.get key).1 = some value → P key value) ∧ (s.get key).2.Holds P := by
  rcases get_cases s key with ⟨v, hv, hget⟩ | ⟨-, ⟨-, hget⟩ | ⟨block, hblock, ⟨v, hv, hget⟩ | ⟨-, hget⟩⟩⟩
  · rw [hget]
    refine ⟨fun value hvalue => ?_, h.memory, h.disk⟩
    cases hvalue
    exact h.memory key v hv
  · rw [hget]
    exact ⟨fun value hvalue => (by cases hvalue), h.memory, h.disk⟩
  · obtain ⟨d, hd, hopen⟩ := Option.bind_eq_some_iff.1 hblock
    have hP : P key v := by
      unfold Disk.get? at hopen
      split at hopen
      · exact h.disk d hd key block v hopen hv
      · cases hopen
    rw [hget]
    refine ⟨fun value hvalue => ?_, Holds.remember ⟨h.memory, h.disk⟩ hP⟩
    cases hvalue
    exact hP
  · rw [hget]
    exact ⟨fun value hvalue => (by cases hvalue), (h.forget key).memory, (h.forget key).disk⟩

/-! ### Events -/

/-- What can happen to a shared store: a pipeline uses it for a source, it is closed or opened, memory gives up
what it has under a key, or a block of the disk tier is replaced by bytes that are no block. -/
inductive Event where
  | translate (p : Pipeline) (source : Text)
  | close
  | reopen
  | evict (key : Text)
  | spoil (key bytes : Text) (h : Block.decode bytes = none)

/-- The store after an event. -/
def Event.apply : Event → Store → Store
  | .translate p source, s => (p.luaThrough s source).2
  | .close, s => s.close
  | .reopen, s => s.reopen
  | .evict key, s => { s with memory := s.memory.filter fun e => e.1 ≠ key }
  | .spoil key bytes _, s =>
    { s with disk? := s.disk?.map fun d => { d with blocks := putEntry key bytes d.blocks } }

/-- The store after events, the latest of which comes first. It begins on a disk tier, if it has one. -/
def afterEvents (disk? : Option Disk) : List Event → Store
  | [] => onDisk disk?
  | event :: older => event.apply (afterEvents disk? older)

/-- The pipelines and sources of the events. -/
def calls : List Event → List (Pipeline × Text)
  | [] => []
  | .translate p source :: older => (p, source) :: calls older
  | .close :: older | .reopen :: older | .evict _ :: older | .spoil _ _ _ :: older => calls older

/-- Whether no two of the texts that are hashed for some calls have the same hash. -/
structure CollisionFree (calls : List (Pipeline × Text)) : Prop where
  grammars : Set.InjOn Keccak.hash {t | ∃ c ∈ calls, t = c.1.grammar.text}
  keys : Set.InjOn Keccak.hash {t | ∃ c ∈ calls, t = c.1.keyText c.2}

/-- Whether a value is the Lua text of every source with some key, among the given calls. -/
def IsAnswer (calls : List (Pipeline × Text)) (key value : Text) : Prop :=
  ∀ c ∈ calls, c.1.key c.2 = key → c.1.lua c.2 = .ok value

variable {all : List (Pipeline × Text)} {p : Pipeline} {source : Text}

/-- A Lua text is the answer to every call with its key. -/
lemma isAnswer_of_lua (hsetUp : ∀ c ∈ all, c.1.IsSetUp) (hfree : CollisionFree all) (hmem : (p, source) ∈ all)
    (h : p.lua source = .ok value) : IsAnswer all (p.key source) value := by
  intro c hc hkey
  have hgrammars : Set.InjOn Keccak.hash {c.1.grammar.text, p.grammar.text} := by
    refine hfree.grammars.mono ?_
    rintro t (rfl | rfl)
    · exact ⟨c, hc, rfl⟩
    · exact ⟨(p, source), hmem, rfl⟩
  have hkeys : Set.InjOn Keccak.hash {c.1.keyText c.2, p.keyText source} := by
    refine hfree.keys.mono ?_
    rintro t (rfl | rfl)
    · exact ⟨c, hc, rfl⟩
    · exact ⟨(p, source), hmem, rfl⟩
  obtain ⟨hp, hsource⟩ := Pipeline.eq_of_key_eq (hsetUp c hc) (hsetUp _ hmem) hgrammars hkeys hkey
  rw [hp, hsource, h]

/-- What a call through a store can do: it is answered by the store, or it makes the text and stores it, or it
fails. -/
lemma luaThrough_cases (p : Pipeline) (s : Store) (source : Text) :
    (∃ lua, (s.get (p.key source)).1 = some lua ∧
      p.luaThrough s source = (.ok lua, (s.get (p.key source)).2)) ∨
    (s.get (p.key source)).1 = none ∧
      ((∃ lua, p.lua source = .ok lua ∧
          p.luaThrough s source = (.ok lua, (s.get (p.key source)).2.put (p.key source) lua)) ∨
        ∃ e, p.lua source = .error e ∧ p.luaThrough s source = (.error e, (s.get (p.key source)).2)) := by
  unfold Pipeline.luaThrough
  rcases hget : s.get (p.key source) with ⟨_ | lua, s'⟩
  · refine .inr ⟨rfl, ?_⟩
    cases hlua : p.lua source with
    | ok lua => exact .inl ⟨lua, rfl, by simp only [hget]⟩
    | error e => exact .inr ⟨e, rfl, by simp only [hget]⟩
  · exact .inl ⟨lua, rfl, by simp only [hget]⟩

/-- A call on a store that holds only answers is answered as without the store, and the store goes on holding
only answers. -/
lemma Holds.luaThrough (hsetUp : ∀ c ∈ all, c.1.IsSetUp) (hfree : CollisionFree all)
    (hmem : (p, source) ∈ all) (h : s.Holds (IsAnswer all)) :
    (p.luaThrough s source).1 = p.lua source ∧ (p.luaThrough s source).2.Holds (IsAnswer all) := by
  obtain ⟨hanswer, hholds⟩ := h.get (p.key source)
  rcases luaThrough_cases p s source with ⟨lua, hget, heq⟩ | ⟨-, ⟨lua, hlua, heq⟩ | ⟨e, hlua, heq⟩⟩
  · rw [heq]
    exact ⟨(hanswer lua hget (p, source) hmem rfl).symm, hholds⟩
  · rw [heq, hlua]
    exact ⟨rfl, hholds.put (isAnswer_of_lua hsetUp hfree hmem hlua)⟩
  · rw [heq, hlua]
    exact ⟨rfl, hholds⟩

/-- An event keeps a store that holds only answers so. -/
lemma Holds.apply (hsetUp : ∀ c ∈ all, c.1.IsSetUp) (hfree : CollisionFree all) (h : s.Holds (IsAnswer all))
    {event : Event} (hcalls : ∀ c ∈ calls [event], c ∈ all) : (event.apply s).Holds (IsAnswer all) := by
  cases event with
  | translate p source => exact (h.luaThrough hsetUp hfree (hcalls _ List.mem_cons_self)).2
  | close =>
    refine h.withoutMemory rfl fun d hd => ?_
    obtain ⟨old, hold, rfl⟩ := Option.map_eq_some_iff.1 hd
    exact ⟨old, hold, rfl⟩
  | reopen =>
    refine h.withoutMemory rfl fun d hd => ?_
    obtain ⟨old, hold, rfl⟩ := Option.map_eq_some_iff.1 hd
    exact ⟨old, hold, rfl⟩
  | evict k =>
    refine ⟨fun key value hvalue => ?_, h.disk⟩
    rw [Event.apply, lookup_filter_ne] at hvalue
    split at hvalue
    · cases hvalue
    · exact h.memory key value hvalue
  | spoil k bytes hbytes =>
    refine ⟨h.memory, fun d hd key block value hblock hdecode => ?_⟩
    obtain ⟨old, hold, rfl⟩ := Option.map_eq_some_iff.1 hd
    rw [lookup_putEntry] at hblock
    split at hblock
    · cases hblock
      rw [hbytes] at hdecode
      cases hdecode
    · exact h.disk old hold key block value hblock hdecode

lemma mem_calls_cons {event : Event} {events : List Event} {c : Pipeline × Text} :
    c ∈ calls (event :: events) ↔ c ∈ calls [event] ∨ c ∈ calls events := by
  cases event <;> simp [calls]

/-- After any events a store that was empty holds only answers. -/
lemma holds_afterEvents {disk? : Option Disk} (hdisk : ∀ d ∈ disk?, d.blocks = [])
    (hsetUp : ∀ c ∈ all, c.1.IsSetUp) (hfree : CollisionFree all) {events : List Event}
    (hcalls : ∀ c ∈ calls events, c ∈ all) : (afterEvents disk? events).Holds (IsAnswer all) := by
  induction events with
  | nil =>
    refine ⟨fun key value hvalue => (by cases hvalue), fun d hd key block value hblock => ?_⟩
    rw [hdisk d hd] at hblock
    cases hblock
  | cons event older ih =>
    refine (ih fun c hc => hcalls c (mem_calls_cons.2 (.inr hc))).apply hsetUp hfree fun c hc => ?_
    exact hcalls c (mem_calls_cons.2 (.inl hc))

/-- A lookup without answer leaves memory as it is, and the disk tier but for a block that is none. -/
lemma tiers_of_get_eq_none (h : (s.get key).1 = none) :
    (s.get key).2.memory = s.memory ∧
      ((s.get key).2.disk? = s.disk? ∨ (s.get key).2.disk? = s.disk?.map (·.erase key)) := by
  rcases get_cases s key with ⟨v, -, hget⟩ | ⟨-, ⟨-, hget⟩ | ⟨block, -, ⟨v, -, hget⟩ | ⟨-, hget⟩⟩⟩
  · rw [hget] at h
    cases h
  · rw [hget]
    exact ⟨rfl, .inl rfl⟩
  · rw [hget] at h
    cases h
  · rw [hget]
    exact ⟨rfl, .inr rfl⟩

/-- Pipelines that share a store answer every source as without it, with the Lua text or with the error, whatever
happened to the store before, unless hashes collide. A source without Lua text leaves memory as it is and puts
nothing on the disk tier, from which only a block that cannot be read is taken. -/
theorem luaThrough_afterEvents (disk? : Option Disk) (hdisk : ∀ d ∈ disk?, d.blocks = []) (events : List Event)
    (p : Pipeline) (source : Text) (hsetUp : ∀ c ∈ (p, source) :: calls events, c.1.IsSetUp)
    (hfree : CollisionFree ((p, source) :: calls events)) :
    let s := afterEvents disk? events
    (p.luaThrough s source).1 = p.lua source ∧
      ∀ e, p.lua source = .error e →
        (p.luaThrough s source).2.memory = s.memory ∧
          ((p.luaThrough s source).2.disk? = s.disk? ∨
            (p.luaThrough s source).2.disk? = s.disk?.map (·.erase (p.key source))) := by
  intro s
  have hholds := holds_afterEvents hdisk hsetUp hfree fun c hc => List.mem_cons_of_mem _ hc
  have hanswer := (hholds.luaThrough hsetUp hfree List.mem_cons_self).1
  refine ⟨hanswer, fun e he => ?_⟩
  rw [he] at hanswer
  rcases luaThrough_cases p s source with ⟨lua, -, heq⟩ | ⟨hnone, ⟨lua, hlua, -⟩ | ⟨e', -, heq⟩⟩
  · rw [heq] at hanswer
    cases hanswer
  · rw [he] at hlua
    cases hlua
  · rw [heq]
    exact tiers_of_get_eq_none hnone

/-- A source without line break, whose entry is spoiled between two calls. -/
theorem luaThrough_afterEvents_spoiled :
    let source := utf8 "x"
    let events : List Event :=
      [.reopen, .spoil (Pipeline.standard.key source) [0x80] rfl, .translate .standard source]
    let s := afterEvents (some Disk.empty) events
    (Pipeline.standard.luaThrough s source).1 = .error (.parse .noNewline) ∧
      (Pipeline.standard.luaThrough s source).2.memory = s.memory := by
  intro source events s
  have hcalls : ∀ c ∈ (Pipeline.standard, source) :: calls events, c = (Pipeline.standard, source) := by
    simp [events, calls]
  have hsetUp : ∀ c ∈ (Pipeline.standard, source) :: calls events, c.1.IsSetUp := fun c hc => by
    rw [hcalls c hc]
    exact ⟨⟨[]⟩, [], rfl⟩
  have hfree : CollisionFree ((Pipeline.standard, source) :: calls events) := by
    refine ⟨Set.Subsingleton.injOn ?_ _, Set.Subsingleton.injOn ?_ _⟩
    · rintro _ ⟨c, hc, rfl⟩ _ ⟨c', hc', rfl⟩
      rw [hcalls c hc, hcalls c' hc']
    · rintro _ ⟨c, hc, rfl⟩ _ ⟨c', hc', rfl⟩
      rw [hcalls c hc, hcalls c' hc']
  have hlua : Pipeline.standard.lua source = .error (.parse .noNewline) := by
    have hlex : lex source = .ok [⟨.identifier, source, ⟨0, 0⟩⟩] := by decide +kernel
    simp only [Pipeline.lua, Pipeline.stages, hlex]
    rfl
  obtain ⟨hanswer, hstored⟩ := luaThrough_afterEvents (some Disk.empty) (by simp [Disk.empty]) events .standard
    source hsetUp hfree
  exact ⟨hanswer.trans hlua, (hstored _ hlua).1⟩

end Store

end Lunify
