import Lunify.Toml.Scan

namespace Lunify

namespace Toml

/-! ### From lines to tables

The parts of a file are taken in order. A header opens the table that the following values go
into; tables on the way to it are made where they are missing. A name can be declared once. -/

/-- Changes the table that a path leads to. Missing tables on the way come from the line at hand;
of a list of tables the last one is meant. -/
def Table.within (line : Nat) (change : Table → Except Fault Table) :
    List Text → Table → Except Fault Table
  | [], t => change t
  | name :: path, t =>
    match t.get? name with
    | none => do
      let inner ← Table.within line change path (.mk line false [])
      return t.set name (.table inner)
    | some (.table inner) => do
      return t.set name (.table (← Table.within line change path inner))
    | some (.tables inners) => do
      let last ← Table.within line change path (inners.getLastD (.mk line false []))
      return t.set name (.tables (inners.dropLast ++ [last]))
    | some (.value old _) => .error (.notTable name old)

/-- Declares a table under a name. A table that was only made on the way to others can still be
declared, and keeps its entries. -/
def Table.declare (line : Nat) (header : Bool) (name written : Text) (t : Table) :
    Except Fault Table :=
  match t.get? name with
  | none => .ok (t.set name (.table (.mk line header [])))
  | some (.table old) =>
    if old.declared then .error (.conflict .table .table written old.line)
    else .ok (t.set name (.table (.mk line header old.entries)))
  | some (.tables olds) => .error (.conflict .table .tables written (Entry.tables olds).line)
  | some (.value old _) => .error (.conflict .table .value written old)

/-- Declares one more table of the list under a name. -/
def Table.declareNext (line : Nat) (header : Bool) (name written : Text) (t : Table) :
    Except Fault Table :=
  match t.get? name with
  | none => .ok (t.set name (.tables [.mk line header []]))
  | some (.tables olds) => .ok (t.set name (.tables (olds ++ [.mk line header []])))
  | some (.table old) => .error (.conflict .tables .table written old.line)
  | some (.value old _) => .error (.conflict .tables .value written old)

/-- Declares a value under a name. -/
def Table.declareValue (line : Nat) (name : Text) (v : Node) (t : Table) : Except Fault Table :=
  match t.get? name with
  | none => .ok (t.set name (.value line v))
  | some (.table old) => .error (.conflict .value .table name old.line)
  | some (.tables olds) => .error (.conflict .value .tables name (Entry.tables olds).line)
  | some (.value old _) => .error (.conflict .value .value name old)

mutual

/-- Whether a value is a table in braces or an array with one in it. -/
def Node.holdsTable : Node → Bool
  | .inline _ _ => true
  | .array items => anyHoldsTable items
  | _ => false

/-- Whether one of the values is a table in braces or an array with one in it. -/
def anyHoldsTable : List Node → Bool
  | [] => false
  | v :: vs => v.holdsTable || anyHoldsTable vs

end

def onLine {α : Type} (line : Nat) (r : Except Fault α) : Except ReadError α :=
  r.mapError (⟨line, ·⟩)

def sound (line : Nat) (s? : Option Text) : Except ReadError Text :=
  match s? with
  | some s => .ok s
  | none => .error ⟨line, .badEscape⟩

mutual

/-- Takes a value that stands under a name of the table at a path. Tables in braces are declared;
those in an array make a list of tables. -/
def takeValue (path : List Text) (name : Text) (inArray : Bool) (root : Table) :
    Node → Except ReadError Table
  | .text s? line => do
    let _ ← sound line s?
    return root
  | .array items => takeItems path name root items
  | .inline line pairs => do
    let declare := if inArray then Table.declareNext else Table.declare
    let root ← onLine line (root.within line (declare line false name name) path)
    takePairs (path ++ [name]) inArray root pairs
  | _ => .ok root

/-- Takes the items of an array. -/
def takeItems (path : List Text) (name : Text) (root : Table) :
    List Node → Except ReadError Table
  | [] => .ok root
  | v :: vs => do takeItems path name (← takeValue path name true root v) vs

/-- Takes names and values into the table at a path. -/
def takePairs (path : List Text) (inArray : Bool) (root : Table) :
    List Pair → Except ReadError Table
  | [] => .ok root
  | p :: ps => do takePairs path inArray (← takePair path inArray root p) ps

/-- Takes a name and its value into the table at a path. -/
def takePair (path : List Text) (inArray : Bool) (root : Table) : Pair → Except ReadError Table
  | .mk name? nameLine v line => do
    let name ← sound nameLine name?
    let root ← takeValue path name inArray root v
    if v.holdsTable then return root
    else onLine line (root.within line (Table.declareValue line name v) path)

end

/-- Takes the parts of a file; values go into the table at `path`. -/
def takeAll (path : List Text) (root : Table) : List Item → Except ReadError Table
  | [] => .ok root
  | .pair p :: rest => do takeAll path (← takePair path false root p) rest
  | .header isList written names line :: rest => do
    let names ← names.mapM (sound line)
    let declare := if isList then Table.declareNext else Table.declare
    let root ← onLine line
      (root.within line (declare line true (names.getLastD []) written) names.dropLast)
    takeAll names root rest

def read (s : Text) : Except ReadError Table := do
  takeAll [] (.mk 1 true []) (← items s)

end Toml

end Lunify
