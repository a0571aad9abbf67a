import Lunify.Tree.Form

namespace Lunify

/-! ### What a program binds

A first pass over a tree lists its bindings in source order: a function with its parameters, or a
name bound by an assignment or a loop, together with the function it is bound in. The tables
collect them: for every function its parameters and the names bound in its body, and the names of
the program, to which the name of every function belongs. -/

/-- A breach of the scoping rules, at the token where it shows. -/
inductive Violation where
  | redefined (name : Token) (earlier : Position)
  | usedEarly (name : Token)
  | undefinedIn (name : Token) (scope : Text)
  | calledEarly (name : Token)
  | arity (name : Token) (parameters arguments : Nat)
  | unknownFunction (name : Token)
deriving DecidableEq, Repr

namespace Violation

def token : Violation → Token
  | .redefined t _ | .usedEarly t | .undefinedIn t _ | .calledEarly t | .arity t _ _
  | .unknownFunction t => t

/-- The violated rule in words. -/
def reason : Violation → Text
  | .redefined t earlier =>
    utf8 "function " ++ Text.quoted t.content ++ utf8 " is already defined at " ++ earlier.render
  | .usedEarly t => utf8 "name " ++ Text.quoted t.content ++ utf8 " is used before it is defined"
  | .undefinedIn t scope =>
    utf8 "name " ++ Text.quoted t.content ++ utf8 " is not defined in " ++ scope ++
      utf8 " or at program level"
  | .calledEarly t =>
    utf8 "function " ++ Text.quoted t.content ++ utf8 " is called before it is defined"
  | .arity t parameters arguments =>
    utf8 "function " ++ Text.quoted t.content ++ utf8 " takes " ++ Text.ofNat parameters ++
      utf8 " arguments but " ++ Text.ofNat arguments ++ utf8 " were given"
  | .unknownFunction t => utf8 "function " ++ Text.quoted t.content ++ utf8 " is not defined"

def message (v : Violation) : Text :=
  utf8 "semantic error at " ++ v.token.pos.render ++ utf8 ": " ++ v.reason

end Violation

/-- Why a tree is refused: it breaks a rule, or it lacks a part that its label promises. -/
inductive ScopeError where
  | violation (v : Violation)
  | malformed
deriving DecidableEq, Repr

/-- A binding in the order of the source. A missing token marks a malformed tree. -/
inductive Binding where
  | function (name : Option Token) (parameters : List (Option Token))
  | name (owner : Option Text) (token : Option Token)
deriving DecidableEq, Repr

def firstOf (ts : List Tree) (i : Nat) : Option Token :=
  ts[i]?.bind Tree.first?

/-- The names of the parameters of a function with the given children. -/
def parameterTokens (ts : List Tree) : List (Option Token) :=
  match ts.find? (Tree.is parametersLabel) with
  | none => []
  | some list => list.items.map Tree.first?

/-- The bindings of a node itself, before those of its children. -/
def nodeBindings (owner : Option Text) (label : Text) (ts : List Tree) : List Binding :=
  match Form.ofLabel label with
  | .function => [.function (firstOf ts 1) (parameterTokens ts)]
  | .assignment =>
    match ts.head? with
    | some target => if target.is identifierSymbol then [.name owner target.first?] else []
    | none => []
  | .forLoop => [.name owner (firstOf ts 1)]
  | _ => []

/-- The function that owns the bindings below a node. -/
def ownerBelow (owner : Option Text) (label : Text) (ts : List Tree) : Option Text :=
  match Form.ofLabel label with
  | .function => (firstOf ts 1).map Token.content
  | _ => owner

mutual

/-- The bindings of a tree inside a function, or at program level. -/
def bindings (owner : Option Text) : Tree → List Binding
  | .leaf l _ => nodeBindings owner l []
  | .node l ts => nodeBindings owner l ts ++ bindingsOf (ownerBelow owner l ts) ts

/-- The bindings of a list of trees. Leaves bind nothing. -/
def bindingsOf (owner : Option Text) : List Tree → List Binding
  | [] => []
  | .leaf _ _ :: ts => bindingsOf owner ts
  | .node l us :: ts => bindings owner (.node l us) ++ bindingsOf owner ts

end

/-- What is known about a function: its name where it is defined, the number of its parameters, and
the names it binds. -/
structure Signature where
  definition : Token
  parameters : Nat
  locals : List Text
deriving DecidableEq, Repr

def Signature.name (s : Signature) : Text :=
  s.definition.content

/-- The functions of a program in the order of their definitions, and the names of the program. -/
structure Tables where
  functions : List Signature
  globals : List Text
deriving DecidableEq, Repr

def insertName (names : List Text) (name : Text) : List Text :=
  if names.contains name then names else names ++ [name]

namespace Tables

def empty : Tables :=
  ⟨[], []⟩

def function? (t : Tables) (name : Text) : Option Signature :=
  t.functions.find? fun s => s.name = name

/-- Adds a name to the function that owns it, or to the names of the program. -/
def bind (t : Tables) (owner : Option Text) (name : Text) : Tables :=
  match owner with
  | none => { t with globals := insertName t.globals name }
  | some f =>
    { t with functions := t.functions.map fun s =>
        if s.name = f then { s with locals := insertName s.locals name } else s }

/-- Adds a binding. -/
def add (t : Tables) : Binding → Except ScopeError Tables
  | .function none _ => .error .malformed
  | .function (some name) parameters =>
    match t.function? name.content with
    | some earlier => .error (.violation (.redefined name earlier.definition.pos))
    | none =>
      match parameters.mapM id with
      | none => .error .malformed
      | some tokens =>
        let names := tokens.map Token.content
        .ok ⟨t.functions ++ [⟨name, names.length, names.foldl insertName []⟩],
          insertName t.globals name.content⟩
  | .name _ none => .error .malformed
  | .name owner (some tok) => .ok (t.bind owner tok.content)

def ofTree (tree : Tree) : Except ScopeError Tables :=
  (bindings none tree).foldlM add empty

end Tables

end Lunify
