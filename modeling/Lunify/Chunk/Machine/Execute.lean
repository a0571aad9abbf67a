import Lunify.Chunk.Machine.Operation

namespace Lunify

namespace Chunk

/-! ### Running code

Instructions are run one after the other until the call that was begun with is over. A native
function that calls a function, and a loop whose iterator has code, begin anew for that call. Each
instruction takes at least one unit of the budget. The fuel only bounds the recursion: every step
takes one unit of it and is paid for, apart from a few steps for each call. -/

variable {ν : Type}

namespace Run

/-- The cells that a new function takes along, as the next instructions say. -/
def captured : Nat → Run ν (List Nat)
  | 0 => return []
  | n + 1 => do
    let cell ← match ← next with
      | .captureLocal r => cellAt (absolute (← get) r)
      | .captureUpvalue u => cellOf u
      | _ => pure 0
    return cell :: (← captured n)

/-- Runs an instruction that neither calls nor returns. -/
def simple (N : Numerals ν) (i : Instr) : Run ν Unit := do
  match i with
  | .move a b => setRegister a (← register b)
  | .loadConstant a k => setRegister a (← operand (.constant k))
  | .loadBool a b skipNext =>
    setRegister a (.bool b)
    if skipNext then skip
  | .loadNil a b =>
    for r in [a:b + 1] do
      setRegister r .nil
  | .getGlobal a g => setRegister a ((← get).globals[g]?.getD .nil)
  | .setGlobal g a =>
    let v ← register a
    modify fun m => { m with globals := m.globals.setIfInBounds g v }
  | .getUpvalue a u => setRegister a (← cellValue (← cellOf u))
  | .setUpvalue u a => setCell (← cellOf u) (← register a)
  | .newTable a => setRegister a (.table (← newTable .empty))
  | .getIndex a b k => setRegister a (← index N (← register b) (← operand k))
  | .setIndex a k v => setIndex N (← register a) (← operand k) (← operand v)
  | .setItems a count batch =>
    let m ← get
    let first := absolute m (a + 1)
    let items := m.registers.row first (count.getD (m.registers.top - first))
    setItems (← register a) (batch * batchSize) items
  | .getMethod a b k =>
    let object ← register b
    setRegister a (← index N object (← operand k))
    setRegister (a + 1) object
  | .arith op a l r => setRegister a (← arith N op (← operand l) (← operand r))
  | .unary op a b => setRegister a (← unary N op (← register b))
  | .concat a b c =>
    let m ← get
    let vs := m.registers.row (absolute m b) (c - b)
    setRegister a (← concat N (← register c) vs.reverse)
  | .compare c expected l r =>
    if (← compare N c (← operand l) (← operand r)) == expected then skip
  | .test a expected => if (← register a).isTrue == expected then skip
  | .testSet a b expected =>
    let v ← register b
    if v.isTrue == expected then skip else setRegister a v
  | .jump distance => jump distance
  | .prepareCount a distance =>
    match ← register a, ← register (a + 2) with
    | .number x, .number step =>
      setRegister a (.number (countBefore N x step))
      jump distance
    | .number _, _ => raise (utf8 "for statement step must be a number")
    | _, _ => raise (utf8 "for statement init must be a number")
  | .count a distance =>
    match ← register a, ← register (a + 1), ← register (a + 2) with
    | .number x, .number limit, .number step =>
      let (y, goesOn) := countNext N x limit step
      setRegister a (.number y)
      if goesOn then
        jump distance
        setRegister (a + 3) (.number y)
      else
        let m ← get
        withRegisters fun r => r.setTop (absolute m (a + 1))
    | .number _, .number _, _ => raise (utf8 "for statement step must be a number")
    | .number _, _, _ => raise (utf8 "for statement limit must be a number")
    | _, _, _ => raise (utf8 "for statement init must be a number")
  | .closure a p =>
    let prototype := (← get).prototypes[p]?.getD default
    let cells ← captured prototype.upvalues
    let ref ← newClosure ⟨prototype, cells.toArray⟩
    setRegister a (.function ref)
  | .varargs a count =>
    let m ← get
    match m.frame.body with
    | .code p _ =>
      let wanted := count.getD (m.frame.args - p.params)
      reserve (absolute m a + wanted)
      withRegisters fun r =>
        r.copy (absolute m a) (m.frame.base + p.params + 1) m.frame.first wanted
    | .native _ => return ()
  | .close a =>
    let m ← get
    closeFrom (absolute m a)
  | .call .. | .tailCall .. | .return .. | .each .. | .captureLocal _ | .captureUpvalue _
  | .nothing => return ()

/-! ### Native functions -/

def arguments : Run ν (List (Value ν)) := do
  let m ← get
  return m.registers.row m.frame.first (m.registers.top - m.frame.first)

/-- The name by which the running native function was called. -/
def calledName (m : Machine ν) : Text :=
  match m.callers.head? with
  | none => utf8 "main chunk"
  | some f =>
    match f.body with
    | .code p _ =>
      match p.code[f.pc - 1]? with
      | some (_, .call _ _ _ name) | some (_, .tailCall _ _ name) => name
      | _ => utf8 "(anonymous)"
    | .native _ => utf8 "(anonymous)"

/-- The error of a native function about an argument. -/
def badArgument {α : Type} (number : Nat) (problem : Text) : Run ν α := do
  raise (utf8 "bad argument #" ++ Text.ofNat number ++ utf8 " to " ++ calledName (← get) ++
    utf8 " (" ++ problem ++ utf8 ")")

/-- The error of a native function about the type of an argument. -/
def wrongType {α : Type} (number : Nat) (expected : Text) (v : Value ν) : Run ν α := do
  inspect [v]
  badArgument number (expected ++ utf8 " expected, got " ++ v.typeName)

/-- The table with more about a value. -/
def metatable? (v : Value ν) : Run ν (Option Nat) := do
  inspect [v]
  let types := (← get).typeTables
  match v with
  | .table ref => return (← table ref).metatable?
  | .bool _ => return types.bool
  | .number _ => return types.number
  | .string _ => return types.string
  | .function _ | .native _ => return types.function
  | .void | .nil => return none

/-- Sets the table with more about a value. Values other than tables share one with all values of
their type. -/
def setMetatable (v : Value ν) (about : Option Nat) : Run ν Unit :=
  let setType (f : TypeTables → TypeTables) : Run ν Unit :=
    modify fun m => { m with typeTables := f m.typeTables }
  match v with
  | .table ref => updateTable ref fun t => { t with metatable? := about }
  | .bool _ => setType fun t => { t with bool := about }
  | .number _ => setType fun t => { t with number := about }
  | .string _ => setType fun t => { t with string := about }
  | .function _ | .native _ => setType fun t => { t with function := about }
  | .void | .nil => return ()

/-- What the table with more about a value has at a name. -/
def metaField (N : Numerals ν) (v : Value ν) (x : Text) : Run ν (Value ν) := do
  match ← metatable? v with
  | none => return .nil
  | some about => return (← table about).get N (.string x)

/-- The native function `error`. -/
def raiseValue {α : Type} (N : Numerals ν) (args : List (Value ν)) : Run ν α := do
  match args with
  | [] => badArgument 1 (utf8 "value expected")
  | v :: rest =>
    let level ← match rest with
      | [] | .nil :: _ => pure 1
      | .number x :: _ => pure (N.whole x)
      | w :: _ => wrongType 2 (utf8 "number") w
    match v with
    | .string s =>
      let m ← get
      throw (.error (.string (if 0 < level then placed m (level - 1) s else s)))
    | v =>
      inspect [v]
      throw (.error v)

/-- The native function `setmetatable`. -/
def setMetatableOf (N : Numerals ν) (args : List (Value ν)) : Run ν (List (Value ν)) := do
  let about ← match (args.drop 1).headD .nil with
    | .table about => pure (some about)
    | .nil => pure none
    | v => wrongType 2 (utf8 "nil or table") v
  match args.headD .nil with
  | .nil => raise (utf8 "cannot set metatable to a nil object.")
  | v =>
    if !(← metaField N v (utf8 "__metatable")).isNil then
      raise (utf8 "cannot change a protected metatable")
    setMetatable v about
    return [v]

/-- The table that a native function is given as its first argument. -/
def tableArgument (args : List (Value ν)) : Run ν Nat :=
  match args.headD .nil with
  | .table ref => return ref
  | v => wrongType 1 (utf8 "table") v

/-- The key after a key of a table and its value, or what is given at the end. -/
def nextEntry (N : Numerals ν) (args atEnd : List (Value ν)) : Run ν (List (Value ν)) := do
  let t ← table (← tableArgument args)
  match t.next N ((args.drop 1).headD .nil) with
  | some (k, v) => return [k, v]
  | none => return atEnd

def print (s : Text) : Run ν Unit :=
  modify fun m => { m with printed := s :: m.printed }

/-- Ends a native function, which has given some values. -/
def giveValues (vs : List (Value ν)) : Run ν Unit := do
  let m ← get
  let wanted := m.frame.wanted.getD vs.length
  withRegisters fun r =>
    let r := vs.foldl Registers.push r
    r.copy m.frame.returnTo (r.top - vs.length) r.top wanted
  leave

/-- Ends a function with code, which gives `count` values from a register on. -/
def giveRegisters (first : Nat) (count : Option Nat) : Run ν Unit := do
  let m ← get
  closeFrom m.frame.first
  let source := absolute m first
  let wanted := m.frame.wanted.getD (count.getD (m.registers.top - source))
  withRegisters fun r => r.giveBack m.frame.returnTo source wanted count
  leave

/-- The frame of a call of the function in a register. -/
def frameFor (m : Machine ν) (base args returnTo : Nat) (wanted : Option Nat) :
    Run ν (Frame ν) := do
  let f := m.registers.get base
  match bodyOf? m f with
  | some body => return ⟨body, 0, base, base + 1, returnTo, args, wanted, 0⟩
  | none =>
    inspect [f]
    raise (utf8 "attempt to call a non-function object")

/-- The number of arguments of a call of the function in a register. -/
def argumentCount (m : Machine ν) (base : Nat) (args : Option Nat) : Nat :=
  args.getD (m.registers.top - (base + 1))

/-- Replaces the running call by a call of code. -/
def replaceCall (N : Numerals ν) (p : Prototype ν) (cells : Array Nat) (base args : Nat) :
    Run ν Unit := do
  let first ← prepare N p (base + 1) args
  modify fun m =>
    let start := m.frame.base
    { m with
      frame := { m.frame with
        body := .code p cells
        first := start + (first - base)
        args
        tailCalls := m.frame.tailCalls + 1 }
      pc := 0
      registers := m.registers.copy start base m.registers.top (m.registers.top - base - 1) }

mutual

/-- Runs instructions until fewer than `floor` calls are under way. -/
def execute (N : Numerals ν) (fuel : Nat) (floor : Nat) : Run ν Unit :=
  match fuel with
  | 0 => throw .outOfBudget
  | fuel + 1 => do
    pay 1
    match ← next with
    | .call a args wanted _ =>
      let m ← get
      let base := absolute m a
      let frame ← frameFor m base (argumentCount m base args) base wanted
      enter N frame
      match frame.body with
      | .code .. => execute N fuel floor
      | .native f =>
        giveValues (← native N fuel f)
        execute N fuel floor
    | .tailCall a args _ =>
      let m ← get
      let base := absolute m a
      let frame ← frameFor m base (argumentCount m base args) m.frame.returnTo m.frame.wanted
      closeFrom m.frame.first
      match frame.body with
      | .code p cells =>
        replaceCall N p cells base frame.args
        execute N fuel floor
      | .native f =>
        enter N frame
        giveValues (← native N fuel f)
        leave
        if (← get).depth < floor then return () else execute N fuel floor
    | .return first count =>
      giveRegisters first count
      if (← get).depth < floor then return () else execute N fuel floor
    | .each a names =>
      let m ← get
      let r := absolute m a
      reserve (r + 6)
      withRegisters fun rs =>
        let rs := rs.setTop (r + 5)
        let rs := rs.set (r + 5) (rs.get (r + 2))
        let rs := rs.set (r + 4) (rs.get (r + 1))
        rs.set (r + 3) (rs.get r)
      call N fuel 2 (some names) (r + 3)
      let v ← register (a + 3)
      if v.isNil then skip
      else
        setRegister (a + 2) v
      execute N fuel floor
    | i =>
      simple N i
      execute N fuel floor

/-- Calls the function below the arguments at the top of the registers, and waits for its
results. -/
def call (N : Numerals ν) (fuel : Nat) (args : Nat) (wanted : Option Nat) (returnTo : Nat) :
    Run ν Unit :=
  match fuel with
  | 0 => throw .outOfBudget
  | fuel + 1 => do
    let m ← get
    let frame ← frameFor m (m.registers.top - args - 1) args returnTo wanted
    enter N frame
    match frame.body with
    | .code .. => execute N fuel (m.depth + 1)
    | .native f => giveValues (← native N fuel f)
    match wanted with
    | some n => withRegisters fun r => r.setTop (returnTo + n)
    | none => return ()

/-- Runs a native function. -/
def native (N : Numerals ν) (fuel : Nat) (f : Native) : Run ν (List (Value ν)) :=
  match fuel with
  | 0 => throw .outOfBudget
  | fuel + 1 => do
    let args ← arguments
    match f with
    | .print =>
      printAll N fuel true args
      print (utf8 "\n")
      return []
    | .pairs => return [.native .pairsNext, .table (← tableArgument args), .nil]
    | .pairsNext => nextEntry N args []
    | .next => nextEntry N args [.nil]
    | .error => raiseValue N args
    | .toString =>
      match args with
      | [] => badArgument 1 (utf8 "value expected")
      | v :: _ => return [← shown N fuel v]
    | .setMetatable => setMetatableOf N args

/-- A value as it is shown: the table with more about it may bring a function for that. -/
def shown (N : Numerals ν) (fuel : Nat) (v : Value ν) : Run ν (Value ν) :=
  match fuel with
  | 0 => throw .outOfBudget
  | fuel + 1 => do
    match ← metaField N v (utf8 "__tostring") with
    | .function f => showWith N fuel (.function f) v
    | .native f => showWith N fuel (.native f) v
    | _ => return .string (v.text N)

/-- What a function makes of a value. -/
def showWith (N : Numerals ν) (fuel : Nat) (f v : Value ν) : Run ν (Value ν) :=
  match fuel with
  | 0 => throw .outOfBudget
  | fuel + 1 => do
    let top := (← get).registers.top
    withRegisters fun r => (r.push f).push v
    call N fuel 1 (some 1) top
    let w := (← get).registers.get top
    withRegisters fun r => r.setTop top
    return w

/-- Prints values as they are shown, with tabs between them. -/
def printAll (N : Numerals ν) (fuel : Nat) (isFirst : Bool) (vs : List (Value ν)) : Run ν Unit :=
  match fuel with
  | 0 => throw .outOfBudget
  | fuel + 1 => do
    match vs with
    | [] => return ()
    | v :: vs =>
      if !isFirst then print (utf8 "\t")
      let w ← shown N fuel v
      inspect [w]
      print (w.text N)
      printAll N fuel false vs

end

end Run

/-- The value of a global variable before a run. -/
def initialGlobal (x : Text) : Value ν :=
  (([("print", .print), ("pairs", .pairs), ("next", .next), ("error", .error),
    ("tostring", .toString), ("setmetatable", .setMetatable)] : List (String × Native)).findSome?
      fun (s, f) => if utf8 s = x then some (.native f) else none).getD .nil

/-- The state before a run. The frame that is there at first runs nothing. -/
def Machine.start (budget : Nat) (p : Program ν) : Machine ν where
  prototypes := p.prototypes
  registers := Registers.empty.push .nil
  frame := ⟨.native .print, 0, 0, 0, 0, 0, none, 0⟩
  pc := 0
  callers := []
  depth := 0
  tables := #[]
  closures := #[]
  cells := #[]
  lying := []
  globals := p.globals.map initialGlobal
  typeTables := ⟨none, none, none, none⟩
  printed := []
  budget

def Machine.output (m : Machine ν) : Text :=
  m.printed.reverse.flatten

def fuelFor (budget : Nat) : Nat :=
  budget + 16 * callLimit

/-- Runs a chunk, and gives the reason why it stopped early, if it did, and the state at its end. -/
def run (N : Numerals ν) (budget : Nat) (p : Program ν) : Option (Stop ν) × Machine ν :=
  let main : Run ν Unit := do
    Run.enter N ⟨.code (p.prototypes.back?.getD default) #[], 0, 0, 1, 0, 0, none, 0⟩
    Run.execute N (fuelFor budget) 1
  match main (.start budget p) with
  | .ok _ m => (none, m)
  | .error s m => (some s, m)

end Chunk

end Lunify
