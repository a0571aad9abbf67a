import Lunify.Cache.Block
import Lunify.Pipeline.Basic

namespace Lunify

/-! ### Stores

A store keeps values in memory and, if it has one, in a disk tier whose values are compressed
blocks. The memory tier does not take large entries, and keeps what it had under their keys. A
store counts by what its lookups were answered. -/

/-- What a lookup was answered by, and how often. -/
structure Tally where
  memory : Nat
  disk : Nat
  missed : Nat
deriving DecidableEq, Repr

/-- The disk tier: blocks by key. A closed one answers nothing and takes nothing. -/
structure Disk where
  blocks : List (Text × Text)
  isOpen : Bool
deriving DecidableEq, Repr

/-- A store. -/
structure Store where
  memory : List (Text × Text)
  disk? : Option Disk
  tally : Tally
deriving DecidableEq, Repr

def putEntry (key value : Text) (entries : List (Text × Text)) : List (Text × Text) :=
  (key, value) :: entries.filter fun e => e.1 ≠ key

def memoryLimit : Nat := 65536

/-- Whether the memory tier takes an entry, which it keeps with four bytes more. -/
def fitsMemory (key value : Text) : Bool :=
  4 + key.length + value.length < memoryLimit

namespace Disk

def empty : Disk :=
  ⟨[], true⟩

def get? (d : Disk) (key : Text) : Option Text :=
  if d.isOpen then d.blocks.lookup key else none

def put (d : Disk) (key block : Text) : Disk :=
  if d.isOpen then { d with blocks := putEntry key block d.blocks } else d

def erase (d : Disk) (key : Text) : Disk :=
  if d.isOpen then { d with blocks := d.blocks.filter fun e => e.1 ≠ key } else d

end Disk

namespace Store

def onDisk (disk? : Option Disk) : Store :=
  ⟨[], disk?, ⟨0, 0, 0⟩⟩

def remember (s : Store) (key value : Text) : Store :=
  if fitsMemory key value then { s with memory := putEntry key value s.memory } else s

def put (s : Store) (key value : Text) : Store :=
  let s := s.remember key value
  { s with disk? := s.disk?.map (·.put key (Block.encode value)) }

def miss (s : Store) : Store :=
  { s with tally := { s.tally with missed := s.tally.missed + 1 } }

def forget (s : Store) (key : Text) : Store :=
  { s with disk? := s.disk?.map fun d => d.erase key }

/-- Looks a key up, in memory first. What only the disk tier has goes into memory; what cannot be
decompressed is taken from the disk tier. -/
def get (s : Store) (key : Text) : Option Text × Store :=
  match s.memory.lookup key with
  | some v => (some v, { s with tally := { s.tally with memory := s.tally.memory + 1 } })
  | none =>
    match s.disk?.bind (·.get? key) with
    | none => (none, s.miss)
    | some block =>
      match Block.decode block with
      | some v =>
        let s := { s with tally := { s.tally with disk := s.tally.disk + 1 } }
        (some v, s.remember key v)
      | none => (none, (s.forget key).miss)

/-- Closes a store, which goes on with an empty memory and without answers from its disk tier. -/
def close (s : Store) : Store :=
  { s with memory := [], disk? := s.disk?.map fun d => { d with isOpen := false } }

/-- Opens a store again: the memory is empty and nothing is counted, the disk tier is as it was. -/
def reopen (s : Store) : Store :=
  .onDisk (s.disk?.map fun d => { d with isOpen := true })

end Store

/-- The Lua text of a source, from the store if it is there. A text that is made anew is stored. -/
def Pipeline.luaThrough (p : Pipeline) (s : Store) (source : Text) :
    Except Failure Text × Store :=
  let key := p.key source
  match s.get key with
  | (some lua, s) => (.ok lua, s)
  | (none, s) =>
    match p.lua source with
    | .ok lua => (.ok lua, s.put key lua)
    | .error e => (.error e, s)

end Lunify
