import Lunify.Text.Basic

namespace Lunify

namespace Toml

/-! ### Settings files

A settings file is a list of tables of named values. `Node` is a value as it is written, `Item` is
a line of the file, and `Table` is what the lines give: a table knows the line it comes from, so
that errors can name it. -/

mutual

/-- A value as it is written. A text without its escapes is missing when one of them is wrong; the
line is the one where the text ends. -/
inductive Node where
  | integer (digits : Text)
  | float (digits : Text)
  | moment (s : Text)
  | boolean (b : Bool)
  | text (s? : Option Text) (line : Nat)
  | array (items : List Node)
  /-- A table in braces, with the line it starts in. -/
  | inline (line : Nat) (pairs : List Pair)

/-- A name and a value, with the line of the name and the line where the value ends. -/
inductive Pair where
  | mk (name? : Option Text) (nameLine : Nat) (value : Node) (line : Nat)

end

/-- A part of a file: the start of a table, or a name and a value. -/
inductive Item where
  /-- The start of a table, or of one more table of a list. The name is kept as it is written,
  and its parts without their escapes. -/
  | header (isList : Bool) (written : Text) (names : List (Option Text)) (line : Nat)
  | pair (p : Pair)

/-- What a name can be declared as. -/
inductive Role where
  | table
  | tables
  | value
deriving DecidableEq, Repr

mutual

/-- What stands under a name. -/
inductive Entry where
  | value (line : Nat) (v : Node)
  | table (t : Table)
  | tables (ts : List Table)

/-- A table. It is `declared` when it has a header of its own. -/
inductive Table where
  | mk (line : Nat) (declared : Bool) (entries : List (Text × Entry))

end

namespace Table

def line : Table → Nat
  | .mk l _ _ => l

def declared : Table → Bool
  | .mk _ d _ => d

/-- The entries of a table, in the order of their names' first use. -/
def entries : Table → List (Text × Entry)
  | .mk _ _ es => es

def get? (t : Table) (name : Text) : Option Entry :=
  (t.entries.find? (·.1 = name)).map (·.2)

/-- The table with another entry under a name. -/
def set (t : Table) (name : Text) (e : Entry) : Table :=
  .mk t.line t.declared
    (if (t.get? name).isSome then t.entries.map fun p => if p.1 = name then (name, e) else p
    else t.entries ++ [(name, e)])

end Table

def Entry.line : Entry → Nat
  | .value l _ => l
  | .table t => t.line
  | .tables [] => 0
  | .tables (t :: _) => t.line

/-- Why a text gives no table. -/
inductive Fault where
  | badSyntax
  | badEscape
  /-- A name is declared although it already stands for something else. -/
  | conflict (new old : Role) (name : Text) (line : Nat)
  /-- A name before a dot stands for a value. -/
  | notTable (name : Text) (line : Nat)
deriving DecidableEq, Repr

def hexadecimal (n : Nat) : Text :=
  (Nat.toDigits 16 n).map byte

def Role.phrase : Role → Text
  | .table => utf8 "table in "
  | .tables => utf8 "array table in "
  | .value => []

/-- The fault in words. -/
def Fault.message : Fault → Text
  | .badSyntax => utf8 "invalid TOML syntax"
  | .badEscape => utf8 "invalid syntax"
  | .conflict .value .tables name _ =>
    utf8 "BUG: key \x60" ++ name ++ utf8 "' is in conflict but it's unknown type \x60[]*ast.Table'"
  | .conflict .value .value name line =>
    utf8 "key \x60" ++ name ++ utf8 "' is in conflict with line " ++ hexadecimal line ++ utf8 "d"
  | .conflict new old name line =>
    (match new with
      | .table => utf8 "table"
      | .tables => utf8 "array table"
      | .value => utf8 "key")
      ++ utf8 " \x60" ++ name ++ utf8 "' is in conflict with " ++ old.phrase ++ utf8 "line "
      ++ Text.ofNat line
  | .notTable name line =>
    utf8 "key \x60" ++ name ++ utf8 "' is in conflict with line " ++ Text.ofNat line

/-- A fault and the line where it is found. -/
structure ReadError where
  line : Nat
  fault : Fault
deriving DecidableEq, Repr

def ReadError.message (e : ReadError) : Text :=
  utf8 "line " ++ Text.ofNat e.line ++ utf8 ": " ++ e.fault.message

end Toml

end Lunify
