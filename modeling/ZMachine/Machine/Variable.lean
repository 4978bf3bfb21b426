import ZMachine.Instruction
import ZMachine.Machine

/-!
# Reading and writing variables

Reading the variable 0 pops the stack of the running frame, and writing it pushes. An opcode whose
operand names a variable works on the top of the stack in place instead.
-/

namespace ZMachine.Machine

def globalAddress (m : Machine) (index : Nat) : Nat :=
  m.header.globals + 2 * index

def readGlobal (index : Nat) : MachineM Word := do
  readWord ((← get).globalAddress index)

/-- Globals may lie anywhere, also outside dynamic memory. -/
def writeGlobal (index : Nat) (value : Word) : MachineM Unit := do
  setWord ((← get).globalAddress index) value

def readLocal (number : Nat) : MachineM Word := do
  (← get).stack.current.getLocal number

def writeLocal (number : Nat) (value : Word) : MachineM Unit := do
  let frame ← (← get).stack.current.setLocal number value
  modify fun m => { m with stack := m.stack.setCurrent frame }

def readVariable (variableByte : Byte) : MachineM Word :=
  match Variable.ofByte variableByte with
  | .stackTop => popValue
  | .localVar number => readLocal number
  | .globalVar index => readGlobal index

def writeVariable (variableByte : Byte) (value : Word) : MachineM Unit :=
  match Variable.ofByte variableByte with
  | .stackTop => pushValue value
  | .localVar number => writeLocal number value
  | .globalVar index => writeGlobal index value

/-- Reads a variable that an operand names; the top of the stack stays there. -/
def readVariableInPlace (variableByte : Byte) : MachineM Word := do
  match Variable.ofByte variableByte with
  | .stackTop => (← get).stack.current.peek
  | _ => readVariable variableByte

/-- Writes a variable that an operand names; the top of the stack is replaced. -/
def writeVariableInPlace (variableByte : Byte) (value : Word) : MachineM Unit := do
  match Variable.ofByte variableByte with
  | .stackTop =>
    let _ ← popValue
    pushValue value
  | _ => writeVariable variableByte value

/-! ## Operands and results -/

/-- The value of an operand. -/
def resolve : Operand → MachineM Word
  | .large value => return value
  | .small value => return value.toUInt16
  | .var number => readVariable number

/-- The values of operands, from left to right. -/
def resolveAll : List Operand → MachineM (List Word)
  | [] => return []
  | o :: rest => do
    let value ← resolve o
    let values ← resolveAll rest
    return value :: values

/-- Stores a result where the instruction wants it. -/
def storeResult (i : Instruction) (value : Word) : MachineM Unit :=
  match i.store with
  | some variableByte => writeVariable variableByte value
  | none => return

end ZMachine.Machine

namespace ZMachine

/-- The value at a place in a list of operands, counted from 0. -/
def operand (values : List Word) (index : Nat) : Except Error Word :=
  match values[index]? with
  | some value => .ok value
  | none => .error (.invalidOperand (.missing (index + 1)))

end ZMachine
