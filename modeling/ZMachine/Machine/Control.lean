import ZMachine.Machine.Variable

/-!
# Calls, returns and branches

How an instruction leaves the flow of control: by going on after itself, by jumping, by entering or
leaving a routine, or by ending the story.
-/

namespace ZMachine

/-- What an instruction did to the flow of control. -/
inductive Outcome where
  | advanced
  | branched
  | called
  | returned (value : Word)
  | quit
  deriving DecidableEq, Repr

namespace Machine

/-! ## Calls and returns -/

/-- Enters the routine at a byte address. -/
def enterRoutine (routine : Nat) (arguments : List Word) (result : Option Byte) :
    MachineM Unit := do
  let m ← get
  let (frame, start) ← Frame.forCall m.memory routine arguments m.pc result
  modify fun m => { m with stack := m.stack.push frame, pc := start }

/-- Leaves the running routine, and stores its value where the caller wanted it. -/
def leaveRoutine (value : Word) : MachineM Unit := do
  let (frame, stack) ← (← get).stack.pop
  modify fun m => { m with stack, pc := frame.returnAddress }
  match frame.result with
  | some variableByte => writeVariable variableByte value
  | none => return

def returnWith (value : Word) : MachineM Outcome := do
  leaveRoutine value
  return .returned value

/-- Calls the routine at a packed address. A call of address 0 does nothing, and its value is 0. -/
def call (i : Instruction) (values : List Word) : MachineM Outcome := do
  let packed ← operand values 0
  if packed = 0 then
    storeResult i 0
    return .advanced
  enterRoutine (2 * packed.toNat) values.tail i.store
  return .called

/-! ## Jumps and branches -/

/-- The target of a jump in the 64 bits of an address. The upper half of the addresses lies before
the start of memory. -/
def signedTarget (target : Int) : Int :=
  (Int64.ofInt target).toInt

theorem signedTarget_eq_self {target : Int} (low : -0x8000000000000000 ≤ target)
    (high : target < 0x8000000000000000) : signedTarget target = target :=
  Int64.toInt_ofInt_of_le low high

/-- Goes on at an offset from two bytes before the next instruction. `fault` is what is wrong with a
target before the start of memory. -/
def jumpBy (offset : Int) (fault : Int → OperandFault) : MachineM Outcome := do
  let target := signedTarget ((← get).pc + offset - 2)
  if target < 0 then
    throw (.invalidOperand (fault target))
  setPc target.toNat
  return .branched

/-- Branches if the instruction has branch data that wants this outcome of its condition. -/
def branch (i : Instruction) (condition : Bool) : MachineM Outcome :=
  match i.branch with
  | none => return .advanced
  | some b =>
    if condition ≠ b.onTrue then return .advanced
    else if b.offset = 0 then returnWith 0
    else if b.offset = 1 then returnWith 1
    else jumpBy b.offset .branchBeforeMemory

def jump (values : List Word) : MachineM Outcome := do
  let offset ← operand values 0
  jumpBy offset.signed .jumpBeforeMemory

def returnPopped : MachineM Outcome := do
  let value ← popValue
  returnWith value

end Machine
end ZMachine
