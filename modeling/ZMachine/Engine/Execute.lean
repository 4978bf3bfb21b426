import ZMachine.Engine
import ZMachine.Machine.Arithmetic
import ZMachine.Machine.Chance
import ZMachine.Machine.Objects
import ZMachine.Machine.Storage
import ZMachine.Machine.Typing

/-!
# Executing an instruction

Each opcode acts on the values of its operands. Most of them concern the machine alone; those that
show text or read a line also call the host.
-/

namespace ZMachine.Engine
variable {η : Type} [Host η]

/-! ## Output -/

/-- The text that follows the instruction. -/
def inlineText (i : Instruction) : MachineM String :=
  match i.text with
  | some address => Machine.readString address
  | none => throw (.invalidOperand (.noInlineText i.address))

/-- Reads the text that follows the instruction, and shows it. -/
def showText (i : Instruction) : EngineM η Unit := do
  let text ← inlineText i
  print text

def printInline (i : Instruction) : EngineM η Outcome := do
  showText i
  return .advanced

/-- Prints the text and a newline, and returns true. -/
def printInlineAndReturn (i : Instruction) : EngineM η Outcome := do
  showText i
  print "\n"
  Machine.returnWith 1

def printNewline : EngineM η Outcome := do
  print "\n"
  return .advanced

def printString (values : List Word) : EngineM η Outcome := do
  let address ← operand values 0
  let text ← Machine.readString address.toNat
  print text
  return .advanced

def printPackedString (values : List Word) : EngineM η Outcome := do
  let packed ← operand values 0
  let text ← Machine.readPackedString packed
  print text
  return .advanced

def printObject (values : List Word) : EngineM η Outcome := do
  let id ← operand values 0
  let object ← (← get).machine.objects.get id.toNat
  print object.nameText
  return .advanced

/-- The text of a character code. Only printable ASCII and 13, the newline, have one. -/
def characterText? (code : Word) : Option String :=
  if code = 13 then some "\n"
  else if 32 ≤ code ∧ code ≤ 126 then some (String.singleton (Char.ofNat code.toNat))
  else none

def printCharacter (values : List Word) : EngineM η Outcome := do
  let code ← operand values 0
  match characterText? code with
  | some text => print text
  | none => pure ()
  return .advanced

/-- Prints a word as a signed number. -/
def printNumber (values : List Word) : EngineM η Outcome := do
  let value ← operand values 0
  print (toString value.signed)
  return .advanced

/-! ## Input -/

/-- Reads a line into two buffers. When there is no more input, the story ends. -/
def readInput (values : List Word) : EngineM η Outcome := do
  let textBuffer ← operand values 0
  let parseBuffer ← operand values 1
  onHost Host.flush
  match ← readLine? with
  | none => return .quit
  | some line =>
    Machine.acceptLine textBuffer.toNat parseBuffer.toNat line
    return .advanced

/-! ## All opcodes -/

open Machine in
def perform (opcode : Opcode) (i : Instruction) (values : List Word) : EngineM η Outcome :=
  match opcode with
  | .rtrue => returnWith 1
  | .rfalse => returnWith 0
  | .print => printInline i
  | .printRet => printInlineAndReturn i
  | .nop => return .advanced
  | .retPopped => returnPopped
  | .pop => Machine.pop
  | .quit => return .quit
  | .newLine => printNewline
  | .jz => branchIfZero i values
  | .getSibling => followLink i values ObjectTable.sibling
  | .getChild => followLink i values ObjectTable.child
  | .getParent => getParent i values
  | .getPropLen => storeDataLength i values
  | .inc => increment values
  | .dec => decrement values
  | .printAddr => printString values
  | .removeObj => removeObject values
  | .printObj => printObject values
  | .ret => do returnWith (← operand values 0)
  | .jump => jump values
  | .printPaddr => printPackedString values
  | .load => loadVariable i values
  | .not => unary i values (~~~ ·)
  | .je => branchIfEqual i values
  | .jl => compare i values fun a b => a.signed < b.signed
  | .jg => compare i values fun a b => a.signed > b.signed
  | .decChk => decrementAndCheck i values
  | .incChk => incrementAndCheck i values
  | .jin => branchIfInside i values
  | .test => branchIfBitsSet i values
  | .or => binary i values fun a b => .ok (a ||| b)
  | .and => binary i values fun a b => .ok (a &&& b)
  | .testAttr => branchIfAttribute i values
  | .setAttr => assignAttribute values true
  | .clearAttr => assignAttribute values false
  | .store => storeVariable values
  | .insertObj => insertObject values
  | .loadw => loadWord i values
  | .loadb => loadByte i values
  | .getProp => askProperty i values valueOf
  | .getPropAddr => askProperty i values addressOf
  | .getNextProp => askProperty i values numberAfter
  | .add => binary i values fun a b => .ok (a + b)
  | .sub => binary i values fun a b => .ok (a - b)
  | .mul => binary i values fun a b => .ok (a * b)
  | .div => binary i values Word.divide
  | .mod => binary i values Word.remainder
  | .call => Machine.call i values
  | .storew => storeWord values
  | .storeb => storeByte values
  | .putProp => putProperty values
  | .sread => readInput values
  | .printChar => printCharacter values
  | .printNum => printNumber values
  | .random => randomNumber i values
  | .push => Machine.push values
  | .pull => pull values

/-- Executes an instruction on the values of its operands. -/
def execute (i : Instruction) (values : List Word) : EngineM η Outcome :=
  match i.opcode? with
  | some opcode => perform opcode i values
  | none => throw (.unimplementedOpcode i.opcodeClass i.number i.address)

end ZMachine.Engine
