import Lunify.Proofs.Tree.Shape
import Lunify.Scope.Trace

/-!
# The scoping rules

The rules say which uses of names a program may make, and they do so without tables and without
events. `Scope.definitions` are the functions of a program, wherever they stand, and
`Scope.boundNames` the names that a part of it binds outside of them. `Scope.occurrences` are the
uses of names in the order of a run from top to bottom, each with the functions around it.
`Scope.Scoped` asks that no two functions share a name and that every use is permitted, given what
the program level has declared before it.
-/

namespace Lunify

namespace Scope

/-- A function of a program: its name, its parameters, and the names that its body binds. -/
structure Definition where
  name : Text
  parameters : List Text
  bound : List Text

/-- Whether a name is one of the function's own. -/
def Definition.Binds (d : Definition) (n : Text) : Prop :=
  n ∈ d.parameters ∨ n ∈ d.bound

/-- What is done with a name. -/
inductive Use where
  | declaration (name : Text)
  | reference (name : Text)
  | call (name : Text) (arguments : Nat)

/-- A use of a name with the functions around it, the innermost first. At program level there are
none. -/
structure Occurrence where
  within : List Definition
  use : Use

/-- The word of an identifier. -/
def word : Tree → Text
  | .node _ [.leaf _ tok] => tok.content
  | _ => []

/-- The elements of a list with commas. -/
def elements : Tree → List Tree
  | .node _ [t] => [t]
  | .node _ [rest, _, t] => elements rest ++ [t]
  | _ => []

/-- The names that a node itself binds: the target of an assignment, if it is a name, and the
variable of a loop. -/
def ownNames (l : Text) (ts : List Tree) : List Text :=
  match Form.ofLabel l, ts with
  | .assignment, [target, _, _] => if target.label = identifierSymbol then [word target] else []
  | .forLoop, [_, name, _, _, _, _] => [word name]
  | _, _ => []

mutual

/-- The names bound in a tree, outside of the functions in it. -/
def boundNames : Tree → List Text
  | .leaf _ _ => []
  | .node l ts => if Form.ofLabel l = .function then [] else ownNames l ts ++ boundNamesOf ts

/-- The names bound in a list of trees. -/
def boundNamesOf : List Tree → List Text
  | [] => []
  | t :: ts => boundNames t ++ boundNamesOf ts

end

/-- The function that a node defines, if it defines one. -/
def definition? (l : Text) (ts : List Tree) : Option Definition :=
  match Form.ofLabel l, ts with
  | .function, [_, name, _, _, _, body] => some ⟨word name, [], boundNames body⟩
  | .function, [_, name, _, parameters, _, _, body] =>
    some ⟨word name, (elements parameters).map word, boundNames body⟩
  | _, _ => none

mutual

/-- The functions defined in a tree, those inside of other functions included. -/
def definitions : Tree → List Definition
  | .leaf _ _ => []
  | .node l ts => (definition? l ts).toList ++ definitionsOf ts

/-- The functions defined in a list of trees. -/
def definitionsOf : List Tree → List Definition
  | [] => []
  | t :: ts => definitions t ++ definitionsOf ts

end

/-- The declaration of a function's name. Only the program level declares functions. -/
def declarationOf (within : List Definition) (d : Definition) : List Occurrence :=
  match within with
  | [] => [⟨[], .declaration d.name⟩]
  | _ :: _ => []

mutual

/-- The uses of names in a tree, in order. An assignment to a name declares it after its value, and a
loop declares its variable between its iterable and its body. A call comes before its arguments. The
key of a keyword argument is not a use. -/
def occurrences (within : List Definition) : Tree → List Occurrence
  | .leaf _ _ => []
  | .node l ts =>
    match Form.ofLabel l with
    | .assignment =>
      match ts with
      | [target, _, value] =>
        if target.label = identifierSymbol then
          occurrences within value ++ [⟨within, .declaration (word target)⟩]
        else occurrences within target ++ occurrences within value
      | _ => []
    | .forLoop =>
      match ts with
      | [_, name, _, iterable, _, body] =>
        occurrences within iterable ++ ⟨within, .declaration (word name)⟩ :: occurrences within body
      | _ => []
    | .call =>
      match ts with
      | [callee, _, _] => [⟨within, .call (word callee) 0⟩]
      | [callee, _, arguments, _] =>
        ⟨within, .call (word callee) (elements arguments).length⟩ :: occurrences within arguments
      | _ => []
    | .keywordArgument =>
      match ts with
      | [_, _, value] => occurrences within value
      | _ => []
    | .function =>
      match ts with
      | [_, name, _, _, _, body] =>
        let d : Definition := ⟨word name, [], boundNames body⟩
        declarationOf within d ++ occurrences (d :: within) body
      | [_, name, _, parameters, _, _, body] =>
        let d : Definition := ⟨word name, (elements parameters).map word, boundNames body⟩
        declarationOf within d ++ occurrences (d :: within) body
      | _ => []
    | .identifier => [⟨within, .reference (word (.node l ts))⟩]
    | _ => occurrencesOf within ts

/-- The uses of names in a list of trees. -/
def occurrencesOf (within : List Definition) : List Tree → List Occurrence
  | [] => []
  | t :: ts => occurrences within t ++ occurrencesOf within ts

end

@[simp] lemma occurrences_leaf (within : List Definition) (l : Text) (tok : Token) :
    occurrences within (.leaf l tok) = [] := by
  rw [occurrences]

/-- Whether a name can be read: at program level it has been declared; inside of functions it is a
name of one of them, or it is bound at program level anywhere, or it is the name of a function. -/
def Visible (program : Tree) (declared : Text → Prop) (within : List Definition) (n : Text) : Prop :=
  match within with
  | [] => declared n
  | _ :: _ => (∃ d ∈ within, d.Binds n) ∨ n ∈ boundNames program ∨
      ∃ d ∈ definitions program, d.name = n

/-- Whether a use is permitted. Names can be declared anywhere, and referred to where they are
visible. A function around a call that binds the callee hides what the name means outside, and then
nothing is asked. Otherwise a call of a function has as many arguments as the function has
parameters, and at program level it comes after the function; any other callee must be visible. -/
def Permitted (program : Tree) (declared : Text → Prop) : Occurrence → Prop
  | ⟨_, .declaration _⟩ => True
  | ⟨within, .reference n⟩ => Visible program declared within n
  | ⟨within, .call n arguments⟩ =>
    (∃ d ∈ within, d.Binds n) ∨
      (∃ f ∈ definitions program, f.name = n ∧ f.parameters.length = arguments ∧
        (within = [] → declared n)) ∨
      ((∀ f ∈ definitions program, f.name ≠ n) ∧ Visible program declared within n)

/-- The scoping rules: no two functions have the same name, and every use of a name is permitted
after the declarations that precede it at program level. -/
structure Scoped (program : Tree) : Prop where
  distinct : ((definitions program).map Definition.name).Nodup
  permitted : ∀ before o after, occurrences [] program = before ++ o :: after →
    Permitted program (fun n => ⟨[], .declaration n⟩ ∈ before) o

end Scope

end Lunify
