import ZMachine.Machine.Control

/-!
# Questions about objects, and changes to them

What a program asks about links and attributes is answered from the object table, and what it asks
about properties from memory. Changes go to both.
-/

namespace ZMachine.Machine

/-- Stores a linked object, and branches if there is one. -/
def followLink (i : Instruction) (values : List Word)
    (link : ObjectTable → Nat → Except Error Byte) : MachineM Outcome := do
  let id ← operand values 0
  let linked ← link (← get).objects id.toNat
  storeResult i linked.toUInt16
  branch i (linked ≠ 0)

def getParent (i : Instruction) (values : List Word) : MachineM Outcome := do
  let id ← operand values 0
  let parent ← (← get).objects.parent id.toNat
  storeResult i parent.toUInt16
  return .advanced

/-- Branches if the first object is a child of the second. -/
def branchIfInside (i : Instruction) (values : List Word) : MachineM Outcome := do
  let id ← operand values 0
  let parent ← (← get).objects.parent id.toNat
  let expected ← operand values 1
  branch i (parent.toUInt16 = expected)

def removeObject (values : List Word) : MachineM Outcome := do
  let id ← operand values 0
  onObjects (ObjectStore.remove id.toNat)
  return .advanced

def insertObject (values : List Word) : MachineM Outcome := do
  let id ← operand values 0
  let parent ← operand values 1
  onObjects (ObjectStore.insertInto id.toNat parent.toNat)
  return .advanced

/-! ## Attributes -/

def branchIfAttribute (i : Instruction) (values : List Word) : MachineM Outcome := do
  let id ← operand values 0
  let number ← operand values 1
  let isSet ← (← get).objects.hasAttribute id.toNat number.toNat
  branch i isSet

def assignAttribute (values : List Word) (value : Bool) : MachineM Outcome := do
  let id ← operand values 0
  let number ← operand values 1
  onObjects (ObjectStore.assignAttribute id.toNat number.toNat value)
  return .advanced

/-! ## Properties -/

/-- Stores the answer to a question about a property of an object. -/
def askProperty (i : Instruction) (values : List Word)
    (ask : Machine → (id number : Nat) → Except Error Word) : MachineM Outcome := do
  let id ← operand values 0
  let number ← operand values 1
  let answer ← ask (← get) id.toNat number.toNat
  storeResult i answer
  return .advanced

def valueOf (m : Machine) (id number : Nat) : Except Error Word :=
  m.objects.propertyValue m.memory id number

def addressOf (m : Machine) (id number : Nat) : Except Error Word :=
  UInt16.ofNat <$> m.objects.dataAddress id number

def numberAfter (m : Machine) (id number : Nat) : Except Error Word :=
  UInt16.ofNat <$> m.objects.propertyAfter id number

def storeDataLength (i : Instruction) (values : List Word) : MachineM Outcome := do
  let address ← operand values 0
  let length ← ObjectTable.dataLength (← get).memory address.toNat
  storeResult i (UInt16.ofNat length)
  return .advanced

def putProperty (values : List Word) : MachineM Outcome := do
  let id ← operand values 0
  let number ← operand values 1
  let value ← operand values 2
  onObjects (ObjectStore.putProperty id.toNat number.toNat value)
  return .advanced

end ZMachine.Machine
