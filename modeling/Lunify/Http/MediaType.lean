import Lunify.Text.Blank

namespace Lunify

namespace Http

/-! ### Media types

The type in a `Content-Type` field stands before the first semicolon. Parameters follow, each a
name and a value. Where the parameters end early the type still counts; a name with two different
values makes the whole field meaningless. -/

def isTokenByte (b : UInt8) : Bool :=
  0x20 < b && b < 0x7F && !(utf8 "()<>@,;:\\\"/[]?=").contains b

def isSpecial (b : UInt8) : Bool :=
  (utf8 "()<>@,;:\\\"/[]?=").contains b

/-- The value between quotes whose first bytes are `done`, in reverse, and the rest. -/
def quotedValue (done : Text) : Text → Option (Text × Text)
  | [] => none
  | b :: r =>
    if b = byte '"' then some (done.reverse, r)
    else if b = 10 || b = 13 then none
    else match r with
      | [] => none
      | c :: r' =>
        if b = byte '\\' && isSpecial c then quotedValue (c :: done) r'
        else quotedValue (b :: done) (c :: r')

/-- The value of a parameter, and the rest. -/
def parameterValue (s : Text) : Option (Text × Text) :=
  match s with
  | [] => none
  | b :: r =>
    if b = byte '"' then quotedValue [] r
    else if isTokenByte b then some (s.takeWhile isTokenByte, s.dropWhile isTokenByte)
    else none

def after? (mark : UInt8) : Text → Option Text
  | [] => none
  | b :: r => if b = mark then some r else none

/-- The parameter at the start of a text, and the rest. -/
def parameter? (s : Text) : Option ((Text × Text) × Text) := do
  let s ← after? (byte ';') (Text.dropBlanks s)
  let s := Text.dropBlanks s
  let name := Text.lower (s.takeWhile isTokenByte)
  if name.isEmpty then none
  else
    let s ← after? (byte '=') (Text.dropBlanks (s.dropWhile isTokenByte))
    let (value, rest) ← parameterValue (Text.dropBlanks s)
    return ((name, value), rest)

/-- The parameters at the start of a text, as many as `fuel`. -/
def parameters : Nat → Text → List (Text × Text)
  | 0, _ => []
  | fuel + 1, s =>
    match parameter? s with
    | none => []
    | some (p, rest) => p :: parameters fuel rest

def conflicting (ps : List (Text × Text)) : Bool :=
  ps.any fun p => ps.any fun q => p.1 = q.1 && p.2 != q.2

def mediaType (s : Text) : Text :=
  if conflicting (parameters s.length (s.dropWhile (· != byte ';'))) then []
  else Text.lower (Text.trim (s.takeWhile (· != byte ';')))

end Http

end Lunify
