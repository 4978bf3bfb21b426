import ZMachine.Machine.Control

/-!
# Arrays, variables and the value stack

An array access adds an index to a base modulo 2^16, so a negative index reaches below the base.
-/

namespace ZMachine.Machine

/-! ## Arrays -/

def wordElement (values : List Word) : Except Error Nat := do
  let base ← operand values 0
  let index ← operand values 1
  return (base + 2 * index).toNat

def byteElement (values : List Word) : Except Error Nat := do
  let base ← operand values 0
  let index ← operand values 1
  return (base + index).toNat

def loadWord (i : Instruction) (values : List Word) : MachineM Outcome := do
  let value ← readWord (← wordElement values)
  storeResult i value
  return .advanced

def loadByte (i : Instruction) (values : List Word) : MachineM Outcome := do
  let value ← readByte (← byteElement values)
  storeResult i value.toUInt16
  return .advanced

def storeWord (values : List Word) : MachineM Outcome := do
  let address ← wordElement values
  let value ← operand values 2
  writeWord address value
  return .advanced

def storeByte (values : List Word) : MachineM Outcome := do
  let address ← byteElement values
  let value ← operand values 2
  writeByte address value.lowByte
  return .advanced

/-! ## Variables that an operand names -/

def loadVariable (i : Instruction) (values : List Word) : MachineM Outcome := do
  let named ← operand values 0
  let value ← readVariableInPlace named.lowByte
  storeResult i value
  return .advanced

/-- Storing in variable 0 pushes. -/
def storeVariable (values : List Word) : MachineM Outcome := do
  let named ← operand values 0
  let value ← operand values 1
  writeVariable named.lowByte value
  return .advanced

/-- Adds to the variable that the first operand names, and gives its new value. -/
def adjust (values : List Word) (amount : Word) : MachineM Word := do
  let named := (← operand values 0).lowByte
  let value := (← readVariableInPlace named) + amount
  writeVariableInPlace named value
  return value

def increment (values : List Word) : MachineM Outcome := do
  let _ ← adjust values 1
  return .advanced

def decrement (values : List Word) : MachineM Outcome := do
  let _ ← adjust values (-1)
  return .advanced

def incrementAndCheck (i : Instruction) (values : List Word) : MachineM Outcome := do
  let value ← adjust values 1
  let bound ← operand values 1
  branch i (value.signed > bound.signed)

def decrementAndCheck (i : Instruction) (values : List Word) : MachineM Outcome := do
  let value ← adjust values (-1)
  let bound ← operand values 1
  branch i (value.signed < bound.signed)

/-! ## The value stack -/

def push (values : List Word) : MachineM Outcome := do
  let value ← operand values 0
  pushValue value
  return .advanced

/-- Pops into the variable that the operand names; into variable 0, that pushes the value back. -/
def pull (values : List Word) : MachineM Outcome := do
  let named ← operand values 0
  let value ← popValue
  writeVariable named.lowByte value
  return .advanced

def pop : MachineM Outcome := do
  let _ ← popValue
  return .advanced

end ZMachine.Machine
