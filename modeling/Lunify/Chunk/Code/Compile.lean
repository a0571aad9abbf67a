import Lunify.Chunk.Code.Statement

namespace Lunify

namespace Chunk

/-! ### Code of chunks

The emitters of expressions and the code of statements, by recursion on their structure. -/

variable {ν : Type}

mutual

/-- The emitter of an expression. -/
def Expr.emitter (N : Numerals ν) : Expr → Emitter ν
  | .constant line .nil => .nil (.constant line .nil)
  | .constant line (.bool b) => .bool (.constant line (.bool b)) b
  | .constant line (.number s) => .literal N (.constant line (.number s)) (.number (N.literal s))
  | .constant line (.string s) => .literal N (.constant line (.string s)) (.string s)
  | .varargs line single => .varargs (.varargs line single)
  | .name line x => .name N (.name line x) x
  | .index line o k => .index (.index line o k) (o.emitter N) (k.emitter N)
  | .call line single f args =>
    .call (.call line single f args) (f.emitter N) (Expr.emitters N args)
  | .method line single o x args =>
    .method N (.method line single o x args) (o.emitter N) x (Expr.emitters N args)
  | .table line fields => .table (.table line fields) (Field.emitters N fields)
  | .function line params isOpen body last =>
    .function (.function line params isOpen body last) params isOpen last (Stat.codes N false body)
  | .binary line op l r => .binary N (.binary line op l r) op (l.emitter N) (r.emitter N)
  | .unary line op e => .unary N (.unary line op e) op (e.emitter N)

def Expr.emitters (N : Numerals ν) : List Expr → List (Emitter ν)
  | [] => []
  | e :: es => e.emitter N :: Expr.emitters N es

def Field.emitter (N : Numerals ν) : Field → Emitter.FieldEmitter ν
  | .item v => ⟨none, v.emitter N⟩
  | .pair k v => ⟨some (k.emitter N), v.emitter N⟩

def Field.emitters (N : Numerals ν) : List Field → List (Emitter.FieldEmitter ν)
  | [] => []
  | f :: fs => f.emitter N :: Field.emitters N fs

/-- The target that an expression stands for. -/
def Expr.target (N : Numerals ν) : Expr → Statement.Target ν
  | .index line o k => .index line (o.emitter N) (k.emitter N)
  | .name line x => .name line x
  | e => .name e.line e.shortName

def Expr.targets (N : Numerals ν) : List Expr → List (Statement.Target ν)
  | [] => []
  | e :: es => e.target N :: Expr.targets N es

/-- The code of a statement; `isLast` says whether nothing but labels follows in its block. -/
def Stat.code (N : Numerals ν) (isLast : Bool) : Stat → Build ν Unit
  | .assign _ targets values => Statement.assign N (Expr.targets N targets) (Expr.emitters N values)
  | .call _ e => Statement.call (e.emitter N)
  | .block line body => Statement.block line (Stat.codes N false body)
  | .loop line cond body => Statement.loop line (cond.emitter N) (Stat.codes N false body)
  | .repeated line body cond => Statement.repeated line (Stat.codes N true body) (cond.emitter N)
  | .branch line cond yes no =>
    Statement.branch line (cond.emitter N)
      (if yes.isEmpty then none else some (Stat.codes N false yes))
      (if no.isEmpty then none else some (Stat.codes N false no))
  | .count line x start limit none body =>
    Statement.count line x (start.emitter N) (limit.emitter N)
      (.literal N (.constant start.line (.number (utf8 "1"))) (.number (N.literal (utf8 "1"))))
      (Stat.codes N false body)
  | .count line x start limit (some step) body =>
    Statement.count line x (start.emitter N) (limit.emitter N) (step.emitter N)
      (Stat.codes N false body)
  | .each line names iterator body =>
    Statement.each line names (Expr.emitters N iterator) (Stat.codes N false body)
  | .declare line names values => Statement.declaration line names (Expr.emitters N values)
  | .declareFunction line x f => Statement.declaration line [x] [f.emitter N]
  | .define target f => Statement.assign N [target.target N] [f.emitter N]
  | .defineMethod object x f => Statement.defineMethod N (object.emitter N) x (f.emitter N)
  | .return line values => Statement.returned line (Expr.emitters N values)
  | .break line => Statement.breakLoop line
  | .label line x => Statement.label line x isLast
  | .goto line x => Statement.goto line x

/-- The code of the statements of a block; `goesOn` says whether something follows after them. -/
def Stat.codes (N : Numerals ν) (goesOn : Bool) : List Stat → Build ν Unit
  | [] => return ()
  | s :: ss => do
    s.code N (!goesOn && ss.all Stat.isLabel)
    Stat.codes N goesOn ss

end

/-- The code of a chunk. It takes any number of arguments. -/
def compile (N : Numerals ν) (body : List Stat) : Except CodeError (Program ν) :=
  let main : Build ν (Program ν) := do
    Emitter.parameters [] true false
    Stat.codes N false body
    let p ← Emitter.finish
    let s ← get
    return ⟨s.prototypes.push p, s.globals⟩
  match main ⟨.empty 0 1, [], #[], #[]⟩ with
  | .ok p _ => .ok p
  | .error e _ => .error e

end Chunk

end Lunify
