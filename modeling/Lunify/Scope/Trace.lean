import Lunify.Scope.Tables

namespace Lunify

/-! ### Names in the order of their use

The trace of a tree lists what happens to names when the program runs from top to bottom: names are
declared, referred to and called, and the bodies of functions are entered and left. A loop declares
its variable after its iterable, an assignment its target after its value. The key of a keyword
argument is not a name.

At program level a name must be declared before it is used. In a function, names are those of the
enclosing functions, whatever the order, and then all names of the program. -/

/-- What happens to a name. -/
inductive Event where
  | declare (name : Token)
  | refer (name : Token)
  | call (name : Token) (arguments : Nat)
  | enter (function : Token)
  | leave
  /-- A part of the tree is missing. -/
  | missing
deriving DecidableEq, Repr

def eventAt (event : Token → Event) (tok : Option Token) : Event :=
  match tok with
  | some t => event t
  | none => .missing

def argumentCount (ts : List Tree) : Nat :=
  match ts.find? (Tree.is argumentsLabel) with
  | none => 0
  | some list => list.items.length

mutual

/-- The trace of a tree. -/
def trace : Tree → List Event
  | .leaf l tok =>
    match Form.ofLabel l with
    | .function | .assignment | .forLoop | .call | .keywordArgument => [.missing]
    | .identifier => [.refer tok]
    | _ => []
  | .node l ts =>
    match Form.ofLabel l with
    | .function =>
      match firstOf ts 1 with
      | none => [.missing]
      | some name => .enter name :: traceFound blockLabel ts ++ [.leave]
    | .assignment =>
      if (ts.head?.map Tree.label) = some identifierSymbol then
        traceNth 2 ts ++ [eventAt .declare (firstOf ts 0)]
      else traceNth 0 ts ++ traceNth 2 ts
    | .forLoop =>
      traceNth 3 ts ++ eventAt .declare (firstOf ts 1) :: traceFound blockLabel ts
    | .call =>
      eventAt (fun t => .call t (argumentCount ts)) (firstOf ts 0) ::
        (if ts.any (Tree.is argumentsLabel) then traceFound argumentsLabel ts else [])
    | .keywordArgument => traceNth 2 ts
    | .identifier => [eventAt .refer (Tree.first? (.node l ts))]
    | _ => traceOf ts

def traceNth : Nat → List Tree → List Event
  | _, [] => [.missing]
  | 0, t :: _ => trace t
  | i + 1, _ :: ts => traceNth i ts

def traceFound (label : Text) : List Tree → List Event
  | [] => [.missing]
  | t :: ts => if t.is label then trace t else traceFound label ts

def traceOf : List Tree → List Event
  | [] => []
  | .leaf _ _ :: ts => traceOf ts
  | .node l us :: ts => trace (.node l us) ++ traceOf ts

end

/-- The names declared so far at program level, and the functions entered, the innermost first. -/
structure Scopes where
  declared : List Text
  enclosing : List Signature
deriving DecidableEq, Repr

namespace Scopes

def atProgramLevel (s : Scopes) : Bool :=
  s.enclosing.isEmpty

def isLocal (s : Scopes) (name : Text) : Bool :=
  s.enclosing.any fun f => f.locals.contains name

def isVisible (tables : Tables) (s : Scopes) (name : Text) : Bool :=
  if s.atProgramLevel then s.declared.contains name
  else s.isLocal name || tables.globals.contains name

def declare (s : Scopes) (name : Text) : Scopes :=
  if s.atProgramLevel then { s with declared := insertName s.declared name } else s

/-- The violation of a reference, if there is one. -/
def reference? (tables : Tables) (s : Scopes) (name : Token) : Option Violation :=
  if s.isVisible tables name.content then none
  else match s.enclosing with
    | [] => some (.usedEarly name)
    | f :: _ => some (.undefinedIn name f.name)

/-- The violation of a call, if there is one. A local name is called with any arguments. -/
def call? (tables : Tables) (s : Scopes) (name : Token) (arguments : Nat) : Option Violation :=
  if s.isLocal name.content then none
  else match tables.function? name.content with
    | some f =>
      if s.atProgramLevel && !s.declared.contains name.content then some (.calledEarly name)
      else if f.parameters ≠ arguments then some (.arity name f.parameters arguments)
      else none
    | none => if s.isVisible tables name.content then none else some (.unknownFunction name)

def allow (s : Scopes) : Option Violation → Except ScopeError Scopes
  | none => .ok s
  | some v => .error (.violation v)

/-- The scopes after an event. -/
def step (tables : Tables) (s : Scopes) : Event → Except ScopeError Scopes
  | .declare name => .ok (s.declare name.content)
  | .refer name => s.allow (s.reference? tables name)
  | .call name arguments => s.allow (s.call? tables name arguments)
  | .enter name =>
    match tables.function? name.content with
    | none => .error .malformed
    | some f =>
      let s := s.declare name.content
      .ok { s with enclosing := f :: s.enclosing }
  | .leave => .ok { s with enclosing := s.enclosing.tail }
  | .missing => .error .malformed

end Scopes

def validate (tables : Tables) (tree : Tree) : Except ScopeError Unit := do
  let _ ← (trace tree).foldlM (Scopes.step tables) ⟨[], []⟩

/-- Checks a tree: its tables are well defined, and every use of a name is allowed. -/
def check (tree : Tree) : Except ScopeError Unit := do
  validate (← Tables.ofTree tree) tree

end Lunify
