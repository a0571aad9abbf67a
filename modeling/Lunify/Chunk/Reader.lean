import Lunify.Chunk.Expr
import Lunify.Chunk.Token

namespace Lunify

namespace Chunk

/-! ### Reading chunks

A reader walks over the tokens one at a time and stops at the first token that cannot go on. The
functions that call each other take fuel, one unit for each step into another of them. The number
of steps between two tokens is bounded, so that a multiple of the number of tokens is enough. -/

abbrev Reader := StateT (List Token) (Except SyntaxError)

namespace Reader

/-- The next token. A text that cannot be scanned further fails when its next token is asked for. -/
def peek : Reader Token := fun ts =>
  match ts with
  | [] => .ok (.finish, ts)
  | t :: _ =>
    match t.lexeme with
    | .broken e => .error e
    | _ => .ok (t, ts)

def peekSecond : Reader Token := fun ts =>
  match peek (ts.drop 1) with
  | .ok (t, _) => .ok (t, ts)
  | .error e => .error e

def advance : Reader Unit := fun ts =>
  .ok ((), ts.drop 1)

def fail {α : Type} (fault : Fault) : Reader α := do
  let t ← peek
  throw ⟨t.last, t.shown, fault⟩

def isAt (s : String) : Reader Bool := do
  return (← peek).lexeme = .mark (utf8 s)

/-- Goes past the given mark if it comes next, and says whether it did. -/
def accept (s : String) : Reader Bool := do
  if ← isAt s then
    advance
    return true
  else return false

def expect (s : String) : Reader Unit := do
  if ← isAt s then advance else fail .syntaxError

def name : Reader Text := do
  match (← peek).lexeme with
  | .name x =>
    advance
    return x
  | _ => fail .syntaxError

/-- How strongly a binary operator binds to the left and to the right. -/
def binaryOp? (s : Text) : Option (BinaryOp × Nat × Nat) :=
  ([("or", .or, 1, 1), ("and", .and, 2, 2),
    ("<", .lt, 3, 3), (">", .gt, 3, 3), ("<=", .le, 3, 3), (">=", .ge, 3, 3), ("~=", .ne, 3, 3),
    ("==", .eq, 3, 3), ("..", .concat, 5, 4), ("+", .arith .add, 6, 6), ("-", .arith .sub, 6, 6),
    ("*", .arith .mul, 7, 7), ("/", .arith .div, 7, 7), ("%", .arith .mod, 7, 7),
    ("^", .arith .pow, 10, 9)] : List (String × BinaryOp × Nat × Nat)).findSome? fun (t, r) =>
      if utf8 t = s then some r else none

def unaryBinding : Nat := 8

def unaryOp? (s : Text) : Option UnaryOp :=
  if s = utf8 "-" then some .neg
  else if s = utf8 "not" then some .not
  else if s = utf8 "#" then some .length
  else none

def endsBlock (t : Token) : Bool :=
  match t.lexeme with
  | .finish => true
  | .mark s => (["end", "else", "elseif", "until"].map utf8).contains s
  | _ => false

def endsField (t : Token) : Bool :=
  match t.lexeme with
  | .mark s => (["\x7d", ",", ";"].map utf8).contains s
  | _ => false

/-- More names after a first one, each after a comma. -/
def moreNames : Nat → Reader (List Text)
  | 0 => fail .syntaxError
  | fuel + 1 => do
    if ← accept "," then
      let x ← name
      return x :: (← moreNames fuel)
    else return []

/-- The parameters of a function after its opening parenthesis: the names, and whether an ellipsis
follows them. -/
def params : Nat → Reader (List Text × Bool)
  | 0 => fail .syntaxError
  | fuel + 1 => do
    if ← accept "..." then return ([], true)
    let x ← name
    if ← accept "," then
      let (xs, isOpen) ← params fuel
      return (x :: xs, isOpen)
    else return ([x], false)

mutual

/-- An expression whose binary operators bind more strongly than `limit`. -/
def expr (fuel : Nat) (limit : Nat) : Reader Expr :=
  match fuel with
  | 0 => fail .syntaxError
  | fuel + 1 => do
    match (← peek).lexeme with
    | .mark s =>
      match unaryOp? s with
      | some op =>
        advance
        let e ← expr fuel unaryBinding
        operators fuel limit (.unary e.line op e)
      | none => operators fuel limit (← simple fuel)
    | _ => operators fuel limit (← simple fuel)

/-- The binary operators after a left operand, as far as they bind more strongly than `limit`. -/
def operators (fuel : Nat) (limit : Nat) (left : Expr) : Reader Expr :=
  match fuel with
  | 0 => fail .syntaxError
  | fuel + 1 => do
    match (← peek).lexeme with
    | .mark s =>
      match binaryOp? s with
      | some (op, strength, rightLimit) =>
        if limit < strength then
          advance
          let right ← expr fuel rightLimit
          operators fuel limit (.binary left.line op left right)
        else return left
      | none => return left
    | _ => return left

/-- An operand. -/
def simple (fuel : Nat) : Reader Expr :=
  match fuel with
  | 0 => fail .syntaxError
  | fuel + 1 => do
    let t ← peek
    match t.lexeme with
    | .number s =>
      advance
      return .constant t.line (.number s)
    | .string s =>
      advance
      return .constant t.line (.string s)
    | .mark s =>
      if s = utf8 "nil" then
        advance
        return .constant t.line .nil
      else if s = utf8 "true" then
        advance
        return .constant t.line (.bool true)
      else if s = utf8 "false" then
        advance
        return .constant t.line (.bool false)
      else if s = utf8 "..." then
        advance
        return .varargs t.line false
      else if s = utf8 "\x7b" then
        advance
        return .table t.line (← fields fuel)
      else if s = utf8 "function" then
        advance
        let f ← function fuel []
        return f.parenthesized t.line
      else return (← primary fuel).1
    | _ => return (← primary fuel).1

/-- A name or a parenthesized expression with the calls and subscripts after it, and whether a
value can be assigned to it. -/
def primary (fuel : Nat) : Reader (Expr × Bool) :=
  match fuel with
  | 0 => fail .syntaxError
  | fuel + 1 => do
    let t ← peek
    match t.lexeme with
    | .name x =>
      advance
      suffixes fuel (.name t.line x) true
    | _ =>
      expect "("
      let e ← expr fuel 0
      expect ")"
      suffixes fuel (e.parenthesized t.line) false

/-- The calls and subscripts after an expression. -/
def suffixes (fuel : Nat) (e : Expr) (assignable : Bool) : Reader (Expr × Bool) :=
  match fuel with
  | 0 => fail .syntaxError
  | fuel + 1 => do
    let t ← peek
    match t.lexeme with
    | .string s =>
      advance
      suffixes fuel (.call e.line false e [.constant t.line (.string s)]) false
    | .mark s =>
      if s = utf8 "[" then
        advance
        let key ← expr fuel 0
        expect "]"
        suffixes fuel (.index e.line e key) true
      else if s = utf8 "." then
        advance
        let line := (← peek).line
        let x ← name
        suffixes fuel (.index e.line e (.constant line (.string x))) true
      else if s = utf8 ":" then
        advance
        let x ← name
        let args ← args fuel
        suffixes fuel (.method e.line false e x args) false
      else if s = utf8 "(" || s = utf8 "\x7b" then
        let args ← args fuel
        suffixes fuel (.call e.line false e args) false
      else return (e, assignable)
    | _ => return (e, assignable)

/-- The arguments of a call: a list in parentheses, a table or a string. -/
def args (fuel : Nat) : Reader (List Expr) :=
  match fuel with
  | 0 => fail .syntaxError
  | fuel + 1 => do
    let t ← peek
    match t.lexeme with
    | .string s =>
      advance
      return [.constant t.line (.string s)]
    | _ =>
      if ← accept "\x7b" then
        return [.table t.line (← fields fuel)]
      else
        expect "("
        if ← accept ")" then return []
        else
          let es ← exprs fuel
          expect ")"
          return es

/-- Expressions with commas between them, at least one. -/
def exprs (fuel : Nat) : Reader (List Expr) :=
  match fuel with
  | 0 => fail .syntaxError
  | fuel + 1 => do
    let e ← expr fuel 0
    if ← accept "," then
      return e :: (← exprs fuel)
    else return [e]

/-- The fields of a table after its opening brace, up to the closing one. -/
def fields (fuel : Nat) : Reader (List Field) :=
  match fuel with
  | 0 => fail .syntaxError
  | fuel + 1 => do
    if ← accept "\x7d" then return []
    let f ← field fuel
    return f :: (← moreFields fuel)

/-- The fields of a table after one of them. Between two fields there may be any number of
separators. -/
def moreFields (fuel : Nat) : Reader (List Field) :=
  match fuel with
  | 0 => fail .syntaxError
  | fuel + 1 => do
    if ← accept "\x7d" then return []
    if !(← accept ",") then expect ";"
    let t ← peek
    if endsField t then moreFields fuel
    else
      let f ← field fuel
      return f :: (← moreFields fuel)

/-- A field of a table. -/
def field (fuel : Nat) : Reader Field :=
  match fuel with
  | 0 => fail .syntaxError
  | fuel + 1 => do
    let t ← peek
    match t.lexeme with
    | .name x =>
      if (← peekSecond).lexeme = .mark (utf8 "=") then
        advance
        advance
        return .pair (.constant t.line (.string x)) (← expr fuel 0)
      else return .item (← expr fuel 0)
    | _ =>
      if ← accept "[" then
        let key ← expr fuel 0
        expect "]"
        expect "="
        return .pair key (← expr fuel 0)
      else return .item (← expr fuel 0)

/-- A function from after its name on; `first` are parameters that are not written. Its line is
that of its parameters. -/
def function (fuel : Nat) (first : List Text) : Reader Expr :=
  match fuel with
  | 0 => fail .syntaxError
  | fuel + 1 => do
    let t ← peek
    expect "("
    let (xs, isOpen) ← if ← isAt ")" then pure ([], false) else params fuel
    expect ")"
    let body ← block fuel
    let last ← peek
    expect "end"
    return .function t.line (first ++ xs) isOpen body last.line

/-- The statements up to a token that ends the block. Nothing but a semicolon may follow a `return`
or a `break`. -/
def block (fuel : Nat) : Reader (List Stat) :=
  match fuel with
  | 0 => fail .syntaxError
  | fuel + 1 => do
    let t ← peek
    if endsBlock t then return []
    if ← accept ";" then block fuel
    else if ← accept "break" then
      let _ ← accept ";"
      return [.break t.line]
    else if ← accept "return" then
      let next ← peek
      let es ← if endsBlock next || next.lexeme = .mark (utf8 ";") then pure [] else exprs fuel
      let _ ← accept ";"
      return [.return t.line es]
    else
      let s ← stat fuel t
      return s :: (← block fuel)

/-- A statement that begins with the given token. -/
def stat (fuel : Nat) (t : Token) : Reader Stat :=
  match fuel with
  | 0 => fail .syntaxError
  | fuel + 1 => do
    match t.lexeme with
    | .mark s =>
      if s = utf8 "do" then
        advance
        let body ← block fuel
        expect "end"
        return .block t.line body
      else if s = utf8 "while" then
        advance
        let cond ← expr fuel 0
        expect "do"
        let body ← block fuel
        expect "end"
        return .loop t.line cond body
      else if s = utf8 "repeat" then
        advance
        let body ← block fuel
        expect "until"
        return .repeated t.line body (← expr fuel 0)
      else if s = utf8 "if" then
        advance
        branches fuel t.line
      else if s = utf8 "for" then
        advance
        loopHeader fuel t.line
      else if s = utf8 "function" then
        advance
        functionStat fuel
      else if s = utf8 "local" then
        advance
        declaration fuel t.line
      else if s = utf8 "::" then
        advance
        let x ← name
        expect "::"
        return .label t.line x
      else if s = utf8 "goto" then
        advance
        return .goto t.line (← name)
      else exprStat fuel
    | _ => exprStat fuel

/-- A conditional from after `if` or `elseif` on. -/
def branches (fuel : Nat) (line : Int) : Reader Stat :=
  match fuel with
  | 0 => fail .syntaxError
  | fuel + 1 => do
    let cond ← expr fuel 0
    expect "then"
    let yes ← block fuel
    let t ← peek
    if ← accept "elseif" then
      return .branch line cond yes [← branches fuel t.line]
    else if ← accept "else" then
      let no ← block fuel
      expect "end"
      return .branch line cond yes no
    else
      expect "end"
      return .branch line cond yes []

/-- A loop from after `for` on. -/
def loopHeader (fuel : Nat) (line : Int) : Reader Stat :=
  match fuel with
  | 0 => fail .syntaxError
  | fuel + 1 => do
    let x ← name
    if ← accept "=" then
      let start ← expr fuel 0
      expect ","
      let limit ← expr fuel 0
      let step ← if ← accept "," then some <$> expr fuel 0 else pure none
      expect "do"
      let body ← block fuel
      expect "end"
      return .count line x start limit step body
    else
      let xs ← moreNames fuel
      expect "in"
      let es ← exprs fuel
      expect "do"
      let body ← block fuel
      expect "end"
      return .each line (x :: xs) es body

/-- A function statement from after `function` on. -/
def functionStat (fuel : Nat) : Reader Stat :=
  match fuel with
  | 0 => fail .syntaxError
  | fuel + 1 => do
    let t ← peek
    let x ← name
    let target ← functionName fuel (.name t.line x)
    if ← accept ":" then
      let x ← name
      return .defineMethod target x (← function fuel [utf8 "self"])
    else return .define target (← function fuel [])

/-- The rest of a function's name up to a colon. -/
def functionName (fuel : Nat) (target : Expr) : Reader Expr :=
  match fuel with
  | 0 => fail .syntaxError
  | fuel + 1 => do
    if ← accept "." then
      let t ← peek
      let x ← name
      functionName fuel (.index t.line target (.constant t.line (.string x)))
    else return target

/-- A declaration from after `local` on. -/
def declaration (fuel : Nat) (line : Int) : Reader Stat :=
  match fuel with
  | 0 => fail .syntaxError
  | fuel + 1 => do
    if ← accept "function" then
      let x ← name
      return .declareFunction line x (← function fuel [])
    else
      let x ← name
      let xs ← moreNames fuel
      let es ← if ← accept "=" then exprs fuel else pure []
      return .declare line (x :: xs) es

/-- An assignment or a call. -/
def exprStat (fuel : Nat) : Reader Stat :=
  match fuel with
  | 0 => fail .syntaxError
  | fuel + 1 => do
    let (e, assignable) ← primary fuel
    let t ← peek
    if assignable && (t.lexeme = .mark (utf8 "=") || t.lexeme = .mark (utf8 ",")) then
      let es ← moreTargets fuel
      expect "="
      return .assign e.line (e :: es) (← exprs fuel)
    else if e.isCall then return .call e.line e
    else fail .notACall

/-- More targets of an assignment after a first one. -/
def moreTargets (fuel : Nat) : Reader (List Expr) :=
  match fuel with
  | 0 => fail .syntaxError
  | fuel + 1 => do
    if ← accept "," then
      let (e, assignable) ← primary fuel
      if assignable then
        return e :: (← moreTargets fuel)
      else fail .syntaxError
    else return []

end

def chunk (fuel : Nat) : Reader (List Stat) := do
  let body ← block fuel
  if (← peek).lexeme = .finish then return body else fail .syntaxError

end Reader

def read (s : Text) : Except SyntaxError (List Stat) :=
  let ts := tokens s
  (Reader.chunk (16 * ts.length + 64) ts).map Prod.fst

end Chunk

end Lunify
