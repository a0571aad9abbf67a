import Lunify.Token.Basic

namespace Lunify

/-! ### Parse trees

An interior node is labelled with the symbol it derives, and a leaf with the terminal its token
matched. The leaves in order are the tokens of the source. Lists are left recursive: a list node
begins with a list node of the same label, and `flatten` unrolls that chain. -/

/-- A parse tree. -/
inductive Tree where
  | leaf (label : Text) (token : Token)
  | node (label : Text) (children : List Tree)
deriving Repr, Inhabited

namespace Tree

def label : Tree → Text
  | .leaf l _ => l
  | .node l _ => l

def children : Tree → List Tree
  | .leaf _ _ => []
  | .node _ ts => ts

def token? : Tree → Option Token
  | .leaf _ t => some t
  | .node _ _ => none

def isLeaf : Tree → Bool
  | .leaf _ _ => true
  | .node _ _ => false

def is (l : Text) (t : Tree) : Bool :=
  t.label = l

def child? (t : Tree) (i : Nat) : Option Tree :=
  t.children[i]?

def find? (l : Text) (t : Tree) : Option Tree :=
  t.children.find? (is l)

def isLeafOf (content : Text) (t : Tree) : Bool :=
  match t with
  | .leaf _ tok => tok.content = content
  | .node _ _ => false

/-- Whether some child is a leaf whose token has the given content. -/
def hasLeaf (content : Text) (t : Tree) : Bool :=
  t.children.any (isLeafOf content)

mutual

def leaves : Tree → List Token
  | .leaf _ tok => [tok]
  | .node _ ts => leavesOf ts

def leavesOf : List Tree → List Token
  | [] => []
  | t :: ts => leaves t ++ leavesOf ts

end

/-- The token at the end of the chain of first children, if that chain ends in a leaf. -/
def first? : Tree → Option Token
  | .leaf _ tok => some tok
  | .node _ [] => none
  | .node _ (t :: _) => first? t

def text (t : Tree) : Text :=
  Text.join (utf8 " ") (t.leaves.map Token.content)

/-- The children of a chain of nodes with label `l`: those of the first nested node, and so on,
before the other children of the outer one. -/
def flattenAs (l : Text) : Tree → List Tree
  | .leaf _ _ => []
  | .node _ [] => []
  | .node _ (.leaf l' tok :: ts) => .leaf l' tok :: ts
  | .node _ (.node l' us :: ts) =>
    if l' = l then flattenAs l (.node l' us) ++ ts else .node l' us :: ts

/-- The elements and separators of a left-recursive list, in order. -/
def flatten (t : Tree) : List Tree :=
  flattenAs t.label t

/-- The elements of a left-recursive list, without the commas between them. -/
def items (t : Tree) : List Tree :=
  t.flatten.filter fun c => !c.isLeafOf (utf8 ",")

mutual

/-- A tree in brackets: each node is its label and its children, each leaf its content. -/
def bracketed : Tree → Text
  | .leaf _ tok => byte ' ' :: tok.content
  | .node l ts => byte '(' :: l ++ bracketedAll ts ++ [byte ')']

/-- The bracketed children of a node, each after a blank. -/
def bracketedAll : List Tree → Text
  | [] => []
  | .leaf l tok :: ts => bracketed (.leaf l tok) ++ bracketedAll ts
  | .node l us :: ts => byte ' ' :: bracketed (.node l us) ++ bracketedAll ts

end

mutual

/-- A tree with one node to a line, each two columns further right than its parent. -/
def outline (depth : Nat) : Tree → Text
  | .leaf _ tok =>
    Text.blanks (2 * depth) ++ Text.quoted tok.content ++ utf8 " @" ++ tok.pos.render ++ utf8 "\n"
  | .node l ts => Text.blanks (2 * depth) ++ l ++ utf8 "\n" ++ outlineAll (depth + 1) ts

def outlineAll (depth : Nat) : List Tree → Text
  | [] => []
  | t :: ts => outline depth t ++ outlineAll depth ts

end

/-- The statements of a program, one to a line after their place. Empty lines are left out. -/
def statements (t : Tree) : Text :=
  match t.find? (utf8 "<statements>") with
  | none => []
  | some list => list.flatten.flatMap fun statement =>
    match statement.first? with
    | none => []
    | some tok =>
      if tok.isDivider newlineText then []
      else tok.pos.render ++ utf8 "\t" ++ statement.text ++ utf8 "\n"

end Tree

end Lunify
