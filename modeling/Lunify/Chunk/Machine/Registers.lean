import Lunify.Chunk.Value

namespace Lunify

namespace Chunk

/-! ### Registers

The registers of all calls that are under way lie in one row. Those below the top are in use, those
above it hold no value, except that a call may clear registers beyond its top. -/

/-- A row of registers. -/
structure Registers (ν : Type) where
  slots : Array (Value ν)
  top : Nat

def registerRoom : Nat := 5120

variable {ν : Type}

namespace Registers

def empty : Registers ν :=
  ⟨#[], 0⟩

def get (r : Registers ν) (i : Nat) : Value ν :=
  r.slots[i]?.getD .void

/-- Sets a register and leaves the top where it is. -/
def put (r : Registers ν) (i : Nat) (v : Value ν) : Registers ν :=
  if i < r.slots.size then { r with slots := r.slots.setIfInBounds i v }
  else { r with slots := (r.slots ++ Array.replicate (i - r.slots.size) Value.void).push v }

def set (r : Registers ν) (i : Nat) (v : Value ν) : Registers ν :=
  let r := r.put i v
  if i < r.top then r else { r with top := i + 1 }

def push (r : Registers ν) (v : Value ν) : Registers ν :=
  r.set r.top v

def fill (v : Value ν) (start : Nat) : Nat → Registers ν → Registers ν
  | 0, r => r
  | n + 1, r => fill v (start + 1) n (r.put start v)

/-- Moves the top without setting the registers below it. Those that are given up hold no value any
more. -/
def lower (r : Registers ν) (top : Nat) : Registers ν :=
  { fill .void top (r.top - top) r with top }

def setTop (r : Registers ν) (top : Nat) : Registers ν :=
  (fill .nil r.top (top - r.top) r).lower top

/-- Copies registers in a row from before the limit to another place; missing ones are `nil`. -/
def copyFrom (limit source dest : Nat) : Nat → Registers ν → Registers ν
  | 0, r => r
  | n + 1, r =>
    copyFrom limit (source + 1) (dest + 1) n
      (r.put dest (if source < limit then r.get source else .nil))

/-- Copies registers from before the limit and the top to another place, whose end is the new
top. -/
def copy (r : Registers ν) (dest source limit n : Nat) : Registers ν :=
  (copyFrom (min limit r.top) source dest n r).lower (dest + n)

def clear (r : Registers ν) (start n : Nat) : Registers ν :=
  (fill .nil start n r).lower (start + n)

/-- Copies the results of a call to where they are wanted. The call has given `count` values from
`source` on, or all up to the top. -/
def giveBack (r : Registers ν) (dest source wanted : Nat) (count : Option Nat) : Registers ν :=
  match count with
  | none => r.copy dest source r.top wanted
  | some 0 => r.clear dest wanted
  | some k =>
    let r := r.copy dest source r.top wanted
    if k < wanted then r.clear (dest + k) (wanted - k) else r

def row (r : Registers ν) (start n : Nat) : List (Value ν) :=
  (List.range n).map fun i => r.get (start + i)

end Registers

end Chunk

end Lunify
