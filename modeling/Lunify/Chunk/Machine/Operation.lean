import Lunify.Chunk.Machine.State

namespace Lunify

namespace Chunk

/-! ### Operations

What the operators and subscripts of Lua give, and the errors of operands that do not fit. -/

variable {ν : Type}

namespace Run

/-- The error of a subscript on a value that has none. -/
def notIndexable {α : Type} (N : Numerals ν) (object key : Value ν) : Run ν α := do
  inspect [object, key]
  raise (utf8 "attempt to index a non-table object(" ++ object.typeName ++ utf8 ") with key '" ++
    key.text N ++ utf8 "'")

/-- The number of keys that are looked at for one unit of the budget. -/
def keysPerUnit : Nat := 8

/-- The number of bytes that are joined for one unit of the budget. -/
def bytesPerUnit : Nat := 32

/-- The value at a key. A string has no value at any key. -/
def index (N : Numerals ν) (object key : Value ν) : Run ν (Value ν) :=
  match object with
  | .table ref => do
    let t ← table ref
    pay (t.entries.size / keysPerUnit)
    return t.get N key
  | .string _ => return .nil
  | _ => notIndexable N object key

/-- Sets the value at a key. -/
def setIndex (N : Numerals ν) (object key value : Value ν) : Run ν Unit :=
  match object with
  | .table ref =>
    match key with
    | .nil => raise (utf8 "table index is nil")
    | .number x =>
      if N.isNaN x then raise (utf8 "table index is NaN")
      else updateTable ref fun t => t.set N key value
    | _ => do
      pay ((← table ref).entries.size / keysPerUnit)
      updateTable ref fun t => t.set N key value
  | _ => notIndexable N object key

/-- Sets items of a table after a number of others. -/
def setItems (object : Value ν) (offset : Nat) (vs : List (Value ν)) : Run ν Unit :=
  match object with
  | .table ref => updateTable ref fun t =>
      vs.zipIdx.foldl (fun t item => t.setItem (offset + item.2 + 1) item.1) t
  | _ => return ()

def arithmeticName : Arithmetic → Text
  | .add => utf8 "add"
  | .sub => utf8 "sub"
  | .mul => utf8 "mul"
  | .div => utf8 "div"
  | .mod => utf8 "mod"
  | .pow => utf8 "pow"

/-- The error of an operator on operands of the wrong types. -/
def cannotPerform {α : Type} (op : Text) (l r : Value ν) : Run ν α := do
  inspect [l, r]
  raise (utf8 "cannot perform " ++ op ++ utf8 " operation between " ++ l.typeName ++
    utf8 " and " ++ r.typeName)

/-- The value of an operator on two numbers, or on strings that hold numbers. -/
def arith (N : Numerals ν) (op : Arithmetic) (l r : Value ν) : Run ν (Value ν) :=
  match l, r with
  | .number x, .number y => return .number (N.arith op x y)
  | _, _ =>
    match l.asNumber N, r.asNumber N with
    | .number x, .number y => return .number (N.arith op x y)
    | l, r => cannotPerform (arithmeticName op) l r

def joinable? (N : Numerals ν) : Value ν → Option Text
  | .string s => some s
  | .number x => some (N.text x)
  | _ => none

/-- Joins strings and numbers from the right. -/
def concat (N : Numerals ν) (last : Value ν) : List (Value ν) → Run ν (Value ν)
  | [] => return last
  | v :: vs =>
    match joinable? N v, joinable? N last with
    | some s, some t => do
      pay (s.length / bytesPerUnit)
      concat N (.string (s ++ t)) vs
    | _, _ => cannotPerform (utf8 "concat") v last

/-- Compares two values. Only two numbers or two strings have an order. -/
def compare (N : Numerals ν) (c : Comparison) (l r : Value ν) : Run ν Bool :=
  match c, l, r with
  | .eq, l, r => do
    inspect [l, r]
    return l.eq N r
  | .lt, .number x, .number y => return N.lt x y
  | .lt, .string s, .string t => return !Text.le t s
  | .le, .number x, .number y => return N.le x y
  | .le, .string s, .string t => return Text.le s t
  | _, l, r => do
    inspect [l, r]
    raise (utf8 "attempt to compare " ++ l.typeName ++ utf8 " with " ++ r.typeName)

/-- The value of an operator with one operand. The negative of a string that holds no number is
`nil`. -/
def unary (N : Numerals ν) (op : UnaryOp) (v : Value ν) : Run ν (Value ν) := do
  match op, v with
  | .not, v => return .bool !v.isTrue
  | .neg, .number x => return .number (N.neg x)
  | .neg, .string s => return ((N.ofText? s).map fun x => Value.number (N.neg x)).getD .nil
  | .neg, v =>
    inspect [v]
    raise (utf8 "__unm undefined")
  | .length, .string s => return .number (N.ofInt s.length)
  | .length, .table ref => return .number (N.ofInt (← table ref).length)
  | .length, v =>
    inspect [v]
    raise (utf8 "__len undefined")

def countBefore (N : Numerals ν) (start step : ν) : ν :=
  N.arith .sub start step

/-- The next number of a loop over numbers, and whether it is still within the limit. -/
def countNext (N : Numerals ν) (x limit step : ν) : ν × Bool :=
  let x := N.arith .add x step
  (x, if N.lt (N.ofInt 0) step then N.le x limit else N.le limit x)

end Run

end Chunk

end Lunify
