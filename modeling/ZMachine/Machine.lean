import ZMachine.CallStack
import ZMachine.Dictionary
import ZMachine.Object.Store
import ZMachine.Random

/-!
# The machine

A machine is a story in memory together with what was read from it when it was loaded, the call
stack, the address of the next instruction and the source of random numbers. The host is not part of
it.
-/

namespace ZMachine

structure Machine where
  memory : Memory
  header : Header
  abbreviations : AbbreviationTable
  objects : ObjectTable
  dictionary : Dictionary
  stack : CallStack
  pc : Nat
  random : Random

/-- An action of the machine. What was done before a failure stays done. -/
abbrev MachineM := EStateM Error Machine

namespace Machine

/-- A machine at the start of the story with this header. -/
def start (m : Memory) (h : Header) (random : Random) : Except Error Machine := do
  let abbreviations : AbbreviationTable := ⟨h.abbreviations⟩
  let objects ← ObjectTable.load m h.objects abbreviations
  let dictionary ← Dictionary.load m h.dictionary abbreviations
  return {
    memory := m, header := h, abbreviations, objects, dictionary
    stack := CallStack.start h.start, pc := h.start, random }

def load (m : Memory) (random : Random) : Except Error Machine := do
  start m (← Header.parse m) random

/-! ## Memory -/

def readByte (address : Nat) : MachineM Byte := do
  (← get).memory.byteAt address

def readWord (address : Nat) : MachineM Word := do
  (← get).memory.wordAt address

/-- Overwrites a word anywhere in memory. -/
def setWord (address : Nat) (value : Word) : MachineM Unit := do
  (← get).memory.check address 2
  modify fun m => { m with memory := m.memory.putWord address value }

/-- Refuses a write that is not in dynamic memory as a whole. -/
def requireDynamic (address width : Nat) : MachineM Unit := do
  if address + width > (← get).header.dynamicLimit then
    throw (.writeOutsideDynamicMemory address)

/-- A write of the program, which may only change dynamic memory. -/
def writeByte (address : Nat) (value : Byte) : MachineM Unit := do
  requireDynamic address 1
  (← get).memory.check address 1
  modify fun m => { m with memory := m.memory.put address value }

def writeWord (address : Nat) (value : Word) : MachineM Unit := do
  requireDynamic address 2
  setWord address value

/-! ## Text and objects -/

def readString (address : Nat) : MachineM String := do
  let m ← get
  ZString.read m.memory m.abbreviations address

def readPackedString (packed : Word) : MachineM String := do
  let m ← get
  ZString.readPacked m.memory m.abbreviations packed

/-- A change to objects, in memory and in the table. -/
def onObjects {α : Type} (x : ObjectM α) : MachineM α := fun m =>
  match x ⟨m.memory, m.objects⟩ with
  | .ok a s => .ok a { m with memory := s.memory, objects := s.table }
  | .error e s => .error e { m with memory := s.memory, objects := s.table }

/-! ## The running frame -/

def pushValue (value : Word) : MachineM Unit :=
  modify fun m => { m with stack := m.stack.setCurrent (m.stack.current.push value) }

def popValue : MachineM Word := do
  let (value, frame) ← (← get).stack.current.pop
  modify fun m => { m with stack := m.stack.setCurrent frame }
  return value

def setPc (address : Nat) : MachineM Unit :=
  modify fun m => { m with pc := address }

end Machine
end ZMachine
