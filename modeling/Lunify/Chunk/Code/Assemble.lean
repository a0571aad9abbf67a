import Lunify.Chunk.Code.Draft

namespace Lunify

namespace Chunk

/-! ### Finished functions

When all instructions of a function are made, its jumps are turned from labels to distances, and
its registers are counted. -/

def followLimit : Nat := 5

/-- The distance from an instruction to the end of a chain of jumps. What a jump says is taken for
a label, also when the jump is finished already. -/
def chainDistance (labels : Array Int) (code : Array (Int × Instr)) (pc : Nat) :
    Nat → Option Instr → Int → Int
  | fuel + 1, some (.jump target), _ =>
    let distance := Draft.labelPc labels target - pc
    chainDistance labels code pc fuel (code[(pc + distance + 1).toNat]?.map Prod.snd) distance
  | _, _, distance => distance

/-- Finishes the jump with a number, if the instruction is a jump. A jump to the next instruction
does nothing. -/
def finishJump (labels : Array Int) (code : Array (Int × Instr)) (pc : Nat) :
    Array (Int × Instr) :=
  match code[pc]? with
  | some (line, .jump target) =>
    let distance := chainDistance labels code pc followLimit (some (.jump target)) 0
    code.setIfInBounds pc (line, if distance = 0 then .nothing else .jump distance)
  | _ => code

def finishJumps (labels : Array Int) (code : Array (Int × Instr)) : Array (Int × Instr) :=
  (List.range code.size).foldl (finishJump labels) code

/-- The highest register that an instruction is known to use. -/
def Instr.highest : Instr → Nat
  | .move a _ | .loadConstant a _ | .loadBool a _ _ | .getGlobal a _ | .getUpvalue a _
  | .newTable a | .getIndex a _ _ | .setIndex a _ _ | .arith _ a _ _ | .unary _ a _
  | .concat a _ _ | .testSet a _ _ => a
  | .loadNil _ b => b
  | .getMethod a _ _ => a + 1
  | .call a _ results _ => (results.map fun n => a + n - 1).getD (a - 2)
  | .varargs a values => (values.map fun n => a + n).getD (a - 1)
  | .setGlobal .. | .setUpvalue .. | .setItems .. | .compare .. | .test .. | .jump _
  | .tailCall .. | .return .. | .prepareCount .. | .count .. | .each .. | .closure ..
  | .captureLocal _ | .captureUpvalue _ | .close _ | .nothing => 0

def Draft.registers {ν : Type} (d : Draft ν) : Nat :=
  d.code.foldl (fun n i => max n i.2.highest) (max 1 d.params) + 1

/-- The finished function. -/
def Draft.finish? {ν : Type} (d : Draft ν) : Except CodeError (Prototype ν) :=
  if registerLimit < d.registers then .error ⟨d.line, .tooManyRegisters⟩
  else .ok {
    params := d.params
    isOpen := d.isOpen
    listsArgs := d.listsArgs
    registers := d.registers
    upvalues := d.upvalues.size
    constants := d.constants
    code := finishJumps d.labels d.code }

end Chunk

end Lunify
