import Lunify.Number
import Lunify.Rendering.Step
import Lunify.Tree.Form

namespace Lunify

/-! ### Rendering a tree as Lua

`plan` turns a tree into steps. Most nodes are the sequence of their children; blocks are closed by
`end`, loops over a range become numeric loops, and list, set and dict literals become tables.

The bounds of a numeric loop are rendered on their own, as if the text began with them. `view`
says where a token is taken to stand: inside a bound, places count from its first token. -/

/-- A place as seen from an origin: lines count from its line, and columns on that line from its
column. -/
def Position.relativeTo (origin p : Position) : Position :=
  ⟨p.line - origin.line, if p.line = origin.line then p.column - origin.column else p.column⟩

/-- How the colon of a construct is rendered. -/
inductive Colon where
  | plain
  | dropped
  | keyword (word : Text)
deriving DecidableEq, Repr

namespace Plan

/-- The Lua spelling of reserved words. -/
def keywordSpelling : List (Text × Text) :=
  [(utf8 "def", utf8 "function"), (utf8 "elif", utf8 "elseif"), (utf8 "True", utf8 "true"),
    (utf8 "False", utf8 "false"), (utf8 "None", utf8 "nil")]

def operatorSpelling : List (Text × Text) :=
  [(utf8 "**", utf8 "^"), (utf8 "!=", utf8 "~=")]

def place (view : Position → Position) (t : Token) : Token :=
  t.relocate (view t.pos)

/-- The step for a token that no construct claims. Layout and `pass` are not written. -/
def leafSteps (view : Position → Position) (t : Token) : List Step :=
  if t.isSynthetic then []
  else match t.kind with
    | .keyword =>
      if t.content = utf8 "pass" then []
      else [.token (place view t) ((keywordSpelling.lookup t.content).getD t.content)]
    | .operator => [.token (place view t) ((operatorSpelling.lookup t.content).getD t.content)]
    | _ => [.token (place view t) t.content]

/-- The step made from a token, or the failure for a missing one. -/
def needed (step : Token → Step) : Option Token → Step
  | some t => step t
  | none => .fail .malformed

def tokenAt (view : Position → Position) (ts : List Tree) (i : Nat) : Option Token :=
  (ts[i]?.bind Tree.token?).map (place view)

def firstToken (view : Position → Position) (t : Option Tree) : Option Token :=
  (t.bind Tree.first?).map (place view)

def colonStep (c : Colon) (t : Token) : Step :=
  match c with
  | .plain => .token t t.content
  | .dropped => .drop t
  | .keyword word => .keyword t word

/-- The last body of a chain of alternatives, which begins with the given one. -/
def lastAlternative : Option Tree → List Tree → Option Tree
  | body, [] => body
  | body, .leaf l _ :: ts => if l = utf8 "<else>" then none else lastAlternative body ts
  | body, .node l us :: ts =>
    if l = utf8 "<else>" then lastAlternative (us.find? (Tree.is blockLabel)) us
    else lastAlternative body ts

def lastBody (ts : List Tree) : Option Tree :=
  lastAlternative (ts.find? (Tree.is blockLabel)) ts

def isInline (body : Tree) : Bool :=
  (body.children.head?.map Tree.label) = some (utf8 "<simple_statement>")

def lastToken (body : Tree) : Option Token :=
  match body.leaves.reverse.find? fun t => !t.isSynthetic with
  | some t => some t
  | none => body.first?

/-- The step that closes a block. -/
def closing (view : Position → Position) (opener : Option Token) (body : Tree) : Step :=
  if isInline body then .insert (utf8 " end")
  else match opener, lastToken body with
    | some kw, some t => .close kw (place view t)
    | _, _ => .fail .malformed

/-- Whether a tree is a primary expression, up to nodes with a single child. -/
def isPrimary : Tree → Bool
  | .leaf _ _ => false
  | .node l [t] => l = utf8 "<primary>" || isPrimary t
  | .node l _ => l = utf8 "<primary>"

/-- The integer a number token denotes, if it is a plain decimal integer of 64 bits. -/
def integer? (s : Text) : Option Int :=
  let digits := match s with
    | b :: r => if b = byte '+' || b = byte '-' then r else s
    | [] => s
  let magnitude : Int := Text.digitsValue digits
  let value := if s.head? = some (byte '-') then -magnitude else magnitude
  if digits.isEmpty || !digits.all Text.isDigit then none
  else if fitsWord value then some value
  else none

/-- The end of a numeric loop, one before the given end, or one after it when the loop counts
down. An integer is folded, in 64 bits. -/
def bound (finish : Tree) (text : Text) (down : Bool) : Text :=
  let other := text ++ utf8 (if down then " + 1" else " - 1")
  match finish.leaves with
  | [t] =>
    if t.kind = .number then
      match integer? t.content with
      | some v => Text.ofInt (Int.bmod (if down then v + 1 else v - 1) wordSize)
      | none => other
    else other
  | _ => utf8 "(" ++ text ++ utf8 ")" ++ utf8 (if down then " + 1" else " - 1")

def isNegative (step : Tree) : Bool :=
  match step.leaves with
  | [minus, n] => minus.content = utf8 "-" && n.kind = .number
  | _ => false

/-- The start, end and step of a numeric loop. -/
def bounds (args : List Tree) (texts : List Text) : Except RenderError Text :=
  match args, texts with
  | [a], [s] => .ok (utf8 "0, " ++ bound a s false)
  | [_, b], [s, t] => .ok (s ++ utf8 ", " ++ bound b t false)
  | [_, b, c], [s, t, u] => .ok (s ++ utf8 ", " ++ bound b t (isNegative c) ++ utf8 ", " ++ u)
  | _, _ => .error (.shape rangeLabel (.argumentCount args.length))

def fragmentText (steps : List Step) : Except RenderError Text := do
  return (← Cursor.start.run steps).text

/-- The key of an element: its index in a list, the element itself in a set. -/
def elementKey (isList : Bool) (i : Nat) : Text :=
  if isList then utf8 "[" ++ Text.ofNat i ++ utf8 "] = " else utf8 "["

def elementEnd (isList : Bool) : List Step :=
  if isList then [] else [.insert (utf8 "] = true")]

def isLeafAt (ts : List Tree) (i : Nat) : Bool :=
  (ts[i]?.map Tree.isLeaf).getD false

/-- Whether the operand of a negation is a comparison, which binds looser than `not` in Lua. -/
def isComparison (operand : Tree) : Bool :=
  match operand.children with
  | cmp :: _ => cmp.is (utf8 "<comparison>") && cmp.children.length = 3
  | [] => false

/-- The step for a child that is a colon with a rule of its own. -/
def colonStep? (view : Position → Position) (colon : Colon) : Tree → Option Step
  | .leaf _ t =>
    if t.content = utf8 ":" && colon ≠ .plain then some (colonStep colon (place view t)) else none
  | .node _ _ => none

/-- A construct with label `l` and children `ts`, closed by `end` after the steps of these. -/
def closed (view : Position → Position) (l : Text) (ts : List Tree) (inner : List Step) :
    List Step :=
  if ts.isEmpty then [.fail .malformed]
  else match lastBody ts with
    | none => [.fail (.shape l .noBody)]
    | some body => inner ++ [closing view (tokenAt view ts 0) body]

/-- The header of a loop over a range, from its keyword and variable and the texts of the arguments
of the range. -/
def rangeHeader (view : Position → Position) (ts : List Tree) (opening : List Step)
    (texts : List (Except RenderError Text)) : List Step :=
  let range := (ts[3]?.map Tree.children).getD []
  match texts.mapM id >>= bounds (range.filter (Tree.is expressionLabel)) with
  | .error e => [.fail e]
  | .ok text =>
    opening ++
      [match tokenAt view ts 2, (range.getLast?.bind Tree.token?).map (place view) with
        | some first, some last => .span first last (utf8 "= " ++ text)
        | _, _ => .fail .malformed]

/-- The opening and closing braces of a literal around the steps of its elements. -/
def braced (view : Position → Position) (ts : List Tree) (inner : List Step) : List Step :=
  needed (.token · (utf8 "\x7b")) (tokenAt view ts 0) :: inner ++
    [needed (.token · (utf8 "\x7d")) (tokenAt view ts (ts.length - 1))]

/-- A list or set literal, from the steps of its elements and of the child before its last. -/
def table (view : Position → Position) (ts : List Tree) (items : Option (List Step))
    (trailing : List Step) : List Step :=
  match items with
  | none => braced view ts []
  | some steps =>
    if ts.length < 2 then [.fail .malformed]
    else braced view ts (steps ++ if isLeafAt ts (ts.length - 2) then trailing else [])

/-- An element of a literal with the given index, or a separator, from its steps; and the index of
the next element. -/
def element (view : Position → Position) (isList : Bool) (i : Nat) (t : Tree) (steps : List Step) :
    List Step × Nat :=
  if t.isLeaf then (steps, i)
  else (needed (.before · (elementKey isList i)) (firstToken view (some t)) :: steps ++
    elementEnd isList, i + 1)

mutual

/-- The steps that render a tree. -/
def plan (view : Position → Position) : Tree → List Step
  | .leaf _ t => leafSteps view t
  | .node l ts =>
    match Form.ofLabel l with
    | .function => closed view l ts (parts view .dropped ts)
    | .conditional => closed view l ts (parts view (.keyword (utf8 "then")) ts)
    | .whileLoop => closed view l ts (parts view (.keyword (utf8 "do")) ts)
    | .alternative =>
      match tokenAt view ts 0 with
      | none => [.fail .malformed]
      | some kw =>
        parts view (if kw.content = utf8 "else" then .dropped else .keyword (utf8 "then")) ts
    | .forLoop =>
      if ts.length ≠ 6 then [.fail (.shape l (.childCount ts.length))]
      else
        (if (ts[3]?.map Tree.label) = some rangeLabel then
            rangeHeader view ts (nth view 0 ts ++ nth view 1 ts) (fragmentsNth view 3 ts)
          else
            nth view 0 ts ++ nth view 1 ts ++ nth view 2 ts ++
              needed (.before · (utf8 "pairs(")) (firstToken view ts[3]?) :: nth view 3 ts ++
              [.insert (utf8 ")")]) ++
          needed (.keyword · (utf8 "do")) (tokenAt view ts 4) :: nth view 5 ts ++
          [match ts[5]? with
            | some body => closing view (tokenAt view ts 0) body
            | none => .fail .malformed]
    | .length =>
      if ts.length < 4 then [.fail (.shape l (.childCount ts.length))]
      else
        needed (.token · (utf8 "#")) (tokenAt view ts 0) ::
          if (ts[2]?.map isPrimary).getD false then
            needed .drop (tokenAt view ts 1) :: nth view 2 ts ++ [needed .drop (tokenAt view ts 3)]
          else nth view 1 ts ++ nth view 2 ts ++ nth view 3 ts
    | .list => table view ts (elements view true ts) (nth view (ts.length - 2) ts)
    | .set => table view ts (elements view false ts) (nth view (ts.length - 2) ts)
    | .dict =>
      match tokenAt view ts 0 with
      | none => [.fail .malformed]
      | some kw =>
        if kw.content ≠ utf8 "dict" then parts view .plain ts
        else
          braced view ts (needed .drop (tokenAt view ts 1) ::
            if ts.any (Tree.is keywordsLabel) then found view keywordsLabel ts else [])
    | .pair =>
      needed (.before · (utf8 "[")) (firstToken view ts[0]?) :: nth view 0 ts ++
        needed (.token · (utf8 "] =")) (tokenAt view ts 1) :: nth view 2 ts
    | .keywordArgument =>
      needed (fun key => .token key (utf8 "[" ++ Text.quoted key.content ++ utf8 "]"))
        (firstToken view ts[0]?) :: nth view 1 ts ++ nth view 2 ts
    | .inversion =>
      if (ts[1]?.map isComparison).getD false then
        nth view 0 ts ++ needed (.before · (utf8 "(")) (firstToken view ts[1]?) :: nth view 1 ts ++
          [.insert (utf8 ")")]
      else parts view .plain ts
    | .factor =>
      match ts[0]? with
      | none => [.fail .malformed]
      | some op =>
        if op.isLeafOf (utf8 "+") then needed .drop (tokenAt view ts 0) :: nth view 1 ts
        else parts view .plain ts
    | _ => parts view .plain ts

/-- The steps of the children in order, with a rule for the colons among them. -/
def parts (view : Position → Position) (colon : Colon) : List Tree → List Step
  | [] => []
  | t :: ts =>
    match colonStep? view colon t with
    | some step => step :: parts view colon ts
    | none => plan view t ++ parts view colon ts

def nth (view : Position → Position) : Nat → List Tree → List Step
  | _, [] => [.fail .malformed]
  | 0, t :: _ => plan view t
  | i + 1, _ :: ts => nth view i ts

/-- The steps of the first child with a label. -/
def found (view : Position → Position) (label : Text) : List Tree → List Step
  | [] => [.fail .malformed]
  | t :: ts => if t.is label then plan view t else found view label ts

/-- The texts of the expressions among the children of the child at an index. -/
def fragmentsNth (view : Position → Position) : Nat → List Tree → List (Except RenderError Text)
  | _, [] => []
  | 0, t :: _ => fragmentsIn view t
  | i + 1, _ :: ts => fragmentsNth view i ts

def fragmentsIn (view : Position → Position) : Tree → List (Except RenderError Text)
  | .leaf _ _ => []
  | .node _ ts => fragments view ts

/-- The texts of the expressions in a list of trees, each rendered on its own. -/
def fragments (view : Position → Position) : List Tree → List (Except RenderError Text)
  | [] => []
  | t :: ts =>
    if t.is expressionLabel then
      (match t.first? with
        | none => .error .malformed
        | some tok =>
          fragmentText (plan (fun p => Position.relativeTo (view tok.pos) (view p)) t)) ::
        fragments view ts
    else fragments view ts

/-- The steps of the elements of a literal, if it has a list of them. -/
def elements (view : Position → Position) (isList : Bool) : List Tree → Option (List Step)
  | [] => none
  | t :: ts =>
    if t.is itemsLabel then some (chain view isList t).1 else elements view isList ts

/-- The steps of a left-recursive list of elements, and how many elements it has. -/
def chain (view : Position → Position) (isList : Bool) : Tree → List Step × Nat
  | .leaf _ _ => ([], 0)
  | .node _ ts => chainOf view isList ts

/-- The steps of the children of a left-recursive list of elements. -/
def chainOf (view : Position → Position) (isList : Bool) : List Tree → List Step × Nat
  | [] => ([], 0)
  | t :: ts =>
    let first := if !t.isLeaf && t.is itemsLabel then chain view isList t
      else element view isList 0 t (plan view t)
    let rest := elementsFrom view isList first.2 ts
    (first.1 ++ rest.1, rest.2)

/-- The steps of elements and separators, of which the first element has the given index, and the
index after the last. -/
def elementsFrom (view : Position → Position) (isList : Bool) : Nat → List Tree → List Step × Nat
  | i, [] => ([], i)
  | i, t :: ts =>
    let first := element view isList i t (plan view t)
    let rest := elementsFrom view isList first.2 ts
    (first.1 ++ rest.1, rest.2)

end

end Plan

/-- The text of a subtree rendered on its own, as if the source began with it. -/
def fragment (t : Tree) : Except RenderError Text :=
  match t.first? with
  | none => .error .malformed
  | some tok => Plan.fragmentText (Plan.plan (Position.relativeTo tok.pos) t)

def terminated (s : Text) : Text :=
  if s.isEmpty || s.getLast? = some (byte '\n') then s else s ++ [byte '\n']

def generate (t : Tree) : Except RenderError Text := do
  return terminated (← Cursor.start.run (Plan.plan id t)).text

end Lunify
