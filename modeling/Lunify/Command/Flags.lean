import Lunify.Chunk.Binary64
import Lunify.Text.Quoted
import Lunify.Time.Duration

namespace Lunify

namespace Command

/-! ### Flags

A flag is an argument that starts with one or two minus signs. A switch may have a value after an
equals sign; any other flag has its value there or in the next argument. The first argument that
is no flag ends the flags. -/

/-- What a flag takes, with its value when it is not given. -/
inductive FlagKind where
  | text (standard : Text)
  | integer (standard : Int)
  | float (standard : Float)
  | duration (standard : Duration)
  | switch

/-- A flag. The first of its names is the one it is looked up by. -/
structure Flag where
  names : List Text
  usage : Text
  kind : FlagKind

/-- A value that was given. -/
inductive FlagValue where
  | text (s : Text)
  | integer (i : Int)
  | float (x : Float)
  | duration (d : Duration)
  | switch (b : Bool)

/-- Why a value cannot be read. -/
inductive ValueFault where
  | unreadable
  | outOfRange
deriving DecidableEq, Repr

def ValueFault.message : ValueFault → Text
  | .unreadable => utf8 "parse error"
  | .outOfRange => utf8 "value out of range"

/-- Why arguments cannot be read. -/
inductive FlagError where
  | badForm (arg : Text)
  | undefined (name : Text)
  | noValue (name : Text)
  | badSwitch (value name : Text)
  | badValue (value name : Text) (fault : ValueFault)
  /-- A flag was given by two of its names. -/
  | twoForms (name other : Text)
deriving DecidableEq, Repr

/-- The error in words. -/
def FlagError.message : FlagError → Text
  | .badForm arg => utf8 "bad flag syntax: " ++ arg
  | .undefined name => utf8 "flag provided but not defined: -" ++ name
  | .noValue name => utf8 "flag needs an argument: -" ++ name
  | .badSwitch value name =>
    utf8 "invalid boolean value " ++ Text.quoted value ++ utf8 " for -" ++ name
      ++ utf8 ": parse error"
  | .badValue value name fault =>
    utf8 "invalid value " ++ Text.quoted value ++ utf8 " for flag -" ++ name ++ utf8 ": "
      ++ fault.message
  | .twoForms name other =>
    utf8 "Cannot use two forms of the same flag: " ++ name ++ utf8 " " ++ other

/-- A truth value. -/
def readSwitch (s : Text) : Option Bool :=
  if [utf8 "1", utf8 "t", utf8 "T", utf8 "true", utf8 "TRUE", utf8 "True"].contains s then some true
  else if [utf8 "0", utf8 "f", utf8 "F", utf8 "false", utf8 "FALSE", utf8 "False"].contains s then
    some false
  else none

open Chunk (Binary64.withoutUnderscores Binary64.splitBase Binary64.natInBase) in
/-- A whole number of 64 bits, in the base that its mark gives. -/
def readInteger (s : Text) : Except ValueFault Int :=
  let digits? := do
    let (negative, body) := Decimal.splitSign (← Binary64.withoutUnderscores s)
    if body.isEmpty then none
    let (base, digits) := Binary64.splitBase body
    let n : Int ← Binary64.natInBase base digits
    return if negative then -n else n
  match digits? with
  | none => .error .unreadable
  | some i => if fitsWord i then .ok i else .error .outOfRange

open Chunk (Binary64.withoutUnderscores Binary64.special? Binary64.hexadecimal?) in
/-- A number. -/
def readFloat (s : Text) : Except ValueFault Float :=
  match Binary64.special? s with
  | some x => .ok x
  | none =>
    let x? := do
      let s ← Binary64.withoutUnderscores s
      match Binary64.hexadecimal? s with
      | some x => some x
      | none => (Decimal.read s).map Decimal.Scaled.toFloat
    match x? with
    | none => .error .unreadable
    | some x => if x.isInf then .error .outOfRange else .ok x

/-- The value of a flag that is no switch. -/
def FlagKind.read (k : FlagKind) (s : Text) : Except ValueFault FlagValue :=
  match k with
  | .text _ => .ok (.text s)
  | .integer _ => do return .integer (← readInteger s)
  | .float _ => do return .float (← readFloat s)
  | .duration _ =>
    match Duration.ofText? s with
    | some d => .ok (.duration d)
    | none => .error .unreadable
  | .switch => .error .unreadable

/-- Arguments that were read: the flags by the names they were given by, the last one first, the
arguments after them, and the error that ended the flags. -/
structure Given where
  flags : List (Text × FlagValue)
  args : List Text
  error? : Option FlagError

def flagNamed? (flags : List Flag) (name : Text) : Option Flag :=
  flags.find? fun f => f.names.contains name

/-- The name of a flag and its value after an equals sign, which cannot come first. -/
def splitFlag (s : Text) : Text × Option Text :=
  match s with
  | [] => ([], none)
  | b :: r =>
    match Text.cutAt (utf8 "=") r with
    | none => (s, none)
    | some (name, value) => (b :: name, some value)

def dropDashes : Text → Text
  | a :: b :: r => if a = byte '-' && b = byte '-' then r else b :: r
  | s => s.drop 1

/-- Reads the flags at the start of arguments; `given` are the flags before. -/
def readFlags (flags : List Flag) (given : List (Text × FlagValue)) : List Text → Given
  | [] => ⟨given, [], none⟩
  | arg :: rest =>
    if arg.length < 2 || arg.head? != some (byte '-') then ⟨given, arg :: rest, none⟩
    else if arg = utf8 "--" then ⟨given, rest, none⟩
    else
      let body := dropDashes arg
      if body.isEmpty || body.head? = some (byte '-') || body.head? = some (byte '=') then
        ⟨given, arg :: rest, some (.badForm arg)⟩
      else
        let (name, value?) := splitFlag body
        match flagNamed? flags name with
        | none => ⟨given, rest, some (.undefined name)⟩
        | some flag =>
          match flag.kind, value?, rest with
          | .switch, none, rest => readFlags flags ((name, .switch true) :: given) rest
          | .switch, some value, rest =>
            match readSwitch value with
            | some b => readFlags flags ((name, .switch b) :: given) rest
            | none => ⟨given, rest, some (.badSwitch value name)⟩
          | _, none, [] => ⟨given, [], some (.noValue name)⟩
          | kind, some value, rest =>
            match kind.read value with
            | .ok v => readFlags flags ((name, v) :: given) rest
            | .error e => ⟨given, rest, some (.badValue value name e)⟩
          | kind, none, value :: rest =>
            match kind.read value with
            | .ok v => readFlags flags ((name, v) :: given) rest
            | .error e => ⟨given, rest, some (.badValue value name e)⟩

/-- The first flag that was given by two of its names. -/
def Given.twoForms? (g : Given) (flags : List Flag) : Option FlagError :=
  flags.findSome? fun f =>
    match f.names.filter fun n => g.flags.any (·.1 = n) with
    | first :: second :: _ => some (.twoForms second first)
    | _ => none

def Given.value? (g : Given) (f : Flag) : Option FlagValue :=
  (g.flags.find? fun p => f.names.contains p.1).map (·.2)

namespace Flag

def text? (f : Flag) (g : Given) : Option Text :=
  match g.value? f with
  | some (.text s) => some s
  | _ => none

def integer? (f : Flag) (g : Given) : Option Int :=
  match g.value? f with
  | some (.integer i) => some i
  | _ => none

def float? (f : Flag) (g : Given) : Option Float :=
  match g.value? f with
  | some (.float x) => some x
  | _ => none

def switch? (f : Flag) (g : Given) : Option Bool :=
  match g.value? f with
  | some (.switch b) => some b
  | _ => none

def text (f : Flag) (g : Given) : Text :=
  match g.value? f, f.kind with
  | some (.text s), _ => s
  | _, .text s => s
  | _, _ => []

def duration (f : Flag) (g : Given) : Duration :=
  match g.value? f, f.kind with
  | some (.duration d), _ => d
  | _, .duration d => d
  | _, _ => ⟨0⟩

def isOn (f : Flag) (g : Given) : Bool :=
  f.switch? g = some true

end Flag

def isFlagLike (arg : Text) : Bool :=
  arg.head? = some (byte '-') && arg != utf8 "-"

/-- The arguments of a command with the flags moved to the front: those from the first flag on, up
to a double minus, go before the ones that come earlier. -/
def flagsFirst (args : List Text) : List Text :=
  let dashes := utf8 "--"
  let before := args.takeWhile (· != dashes)
  let after := args.dropWhile (· != dashes)
  before.dropWhile (!isFlagLike ·) ++ before.takeWhile (!isFlagLike ·) ++ after

end Command

end Lunify
