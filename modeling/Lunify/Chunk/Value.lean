import Lunify.Chunk.Expr

namespace Lunify

namespace Chunk

/-! ### Values

The values of Lua over any kind of numbers. Tables, functions and local variables live in the state
of a run and are referred to by number. -/

/-- A kind of numbers: how they are written, computed with and compared. -/
structure Numerals (ν : Type) where
  /-- The number of a literal. -/
  literal : Text → ν
  /-- The number that a string holds, if it holds one. -/
  ofText? : Text → Option ν
  text : ν → Text
  ofInt : Int → ν
  arith : Arithmetic → ν → ν → ν
  neg : ν → ν
  eq : ν → ν → Bool
  lt : ν → ν → Bool
  le : ν → ν → Bool
  /-- The position in the list part of a table, counted from one, that a number stands for. -/
  index? : ν → Option Nat
  /-- Whether a number can be no key of a table. -/
  isNaN : ν → Bool
  /-- The whole part of a number. -/
  whole : ν → Int

/-- The functions that every run knows. -/
inductive Native where
  | print
  | pairs
  /-- The iterator that `pairs` gives. -/
  | pairsNext
  | next
  | error
  | toString
  | setMetatable
deriving DecidableEq, Repr

/-- A value. What a register is left with when the call that used it is over is no value at all, and
nothing can be found out about it. -/
inductive Value (ν : Type) where
  | void
  | nil
  | bool (b : Bool)
  | number (x : ν)
  | string (s : Text)
  | table (ref : Nat)
  | function (ref : Nat)
  | native (f : Native)
deriving Repr, Inhabited

variable {ν : Type}

namespace Value

/-- The type of a value in words. -/
def typeName : Value ν → Text
  | .void => []
  | .nil => utf8 "nil"
  | .bool _ => utf8 "boolean"
  | .number _ => utf8 "number"
  | .string _ => utf8 "string"
  | .table _ => utf8 "table"
  | .function _ | .native _ => utf8 "function"

/-- The value as text. -/
def text (N : Numerals ν) : Value ν → Text
  | .void => []
  | .nil => utf8 "nil"
  | .bool true => utf8 "true"
  | .bool false => utf8 "false"
  | .number x => N.text x
  | .string s => s
  | .table _ => utf8 "table"
  | .function _ | .native _ => utf8 "function"

def isTrue : Value ν → Bool
  | .nil | .bool false => false
  | _ => true

def isNil : Value ν → Bool
  | .nil => true
  | _ => false

def isVoid : Value ν → Bool
  | .void => true
  | _ => false

/-- Equality: tables and functions are equal to themselves only. -/
def eq (N : Numerals ν) : Value ν → Value ν → Bool
  | .void, .void => true
  | .nil, .nil => true
  | .bool a, .bool b => a = b
  | .number x, .number y => N.eq x y
  | .string s, .string t => s = t
  | .table i, .table j => i = j
  | .function i, .function j => i = j
  | .native f, .native g => f = g
  | _, _ => false

/-- The value with a string that holds a number replaced by the number. -/
def asNumber (N : Numerals ν) : Value ν → Value ν
  | .string s => ((N.ofText? s).map Value.number).getD (.string s)
  | v => v

end Value

/-- A table: a list part, the other keys in the order in which they were first set, and a table
with more about it. A key without value keeps its place. -/
structure Table (ν : Type) where
  items : Array (Value ν)
  entries : Array (Value ν × Value ν)
  metatable? : Option Nat
deriving Inhabited

namespace Table

def empty : Table ν :=
  ⟨#[], #[], none⟩

def index? (N : Numerals ν) : Value ν → Option Nat
  | .number x => N.index? x
  | _ => none

/-- The value at a key. -/
def get (N : Numerals ν) (t : Table ν) (key : Value ν) : Value ν :=
  match index? N key with
  | some i => t.items[i - 1]?.getD .nil
  | none => ((t.entries.find? fun (k, _) => k.eq N key).map Prod.snd).getD .nil

/-- Sets the value at a position of the list part, which grows as far as needed. -/
def setItem (t : Table ν) (i : Nat) (value : Value ν) : Table ν :=
  if i ≤ t.items.size then { t with items := t.items.setIfInBounds (i - 1) value }
  else
    { t with items := (t.items ++ Array.replicate (i - 1 - t.items.size) Value.nil).push value }

/-- Sets the value at a key. -/
def set (N : Numerals ν) (t : Table ν) (key value : Value ν) : Table ν :=
  match index? N key with
  | some i => t.setItem i value
  | none =>
    match t.entries.findIdx? fun (k, _) => k.eq N key with
    | some j => { t with entries := t.entries.modify j fun (k, _) => (k, value) }
    | none => if value.isNil then t else { t with entries := t.entries.push (key, value) }

/-- The number of the last value among the first `n` positions of the list part. -/
def lastAmong (t : Table ν) : Nat → Nat
  | 0 => 0
  | n + 1 => if (t.items[n]?.getD .nil).isNil then t.lastAmong n else n + 1

def length (t : Table ν) : Nat :=
  t.lastAmong t.items.size

/-- The first value among the last `n` positions of the list part. -/
def itemAmong (N : Numerals ν) (t : Table ν) : Nat → Option (Value ν × Value ν)
  | 0 => none
  | n + 1 =>
    let i := t.items.size - (n + 1)
    let v := t.items[i]?.getD .nil
    if v.isNil then t.itemAmong N n else some (.number (N.ofInt (i + 1)), v)

def itemFrom (N : Numerals ν) (t : Table ν) (i : Nat) : Option (Value ν × Value ν) :=
  t.itemAmong N (t.items.size - i)

/-- The first entry with a value among the last `n` entries. -/
def entryAmong (t : Table ν) : Nat → Option (Value ν × Value ν)
  | 0 => none
  | n + 1 =>
    match t.entries[t.entries.size - (n + 1)]? with
    | some (k, v) => if v.isNil then t.entryAmong n else some (k, v)
    | none => none

def entryFrom (t : Table ν) (j : Nat) : Option (Value ν × Value ν) :=
  t.entryAmong (t.entries.size - j)

/-- The first entry with a value after the entry of a key. The first entry stands in for a key that
has none. -/
def entryAfter (N : Numerals ν) (t : Table ν) (key : Value ν) : Option (Value ν × Value ν) :=
  t.entryFrom (((t.entries.findIdx? fun (k, _) => k.eq N key).map (· + 1)).getD 1)

/-- The key after a key and its value: the list part comes first, then the other keys. -/
def next (N : Numerals ν) (t : Table ν) (key : Value ν) : Option (Value ν × Value ν) :=
  match key, index? N key with
  | .nil, _ => (t.itemFrom N 0).or (t.entryFrom 0)
  | _, some i =>
    if t.items.isEmpty || i ≤ t.items.size then (t.itemFrom N i).or (t.entryFrom 0)
    else t.entryAfter N key
  | _, none => t.entryAfter N key

end Table

end Chunk

end Lunify
