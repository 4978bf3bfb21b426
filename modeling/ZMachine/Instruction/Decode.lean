import ZMachine.Instruction
import ZMachine.Memory.Scan
import ZMachine.Text.Packing

/-!
# Reading instructions

The top bits of the first byte give form and class. Then come the kinds of the operands, in the same
byte or in one of their own, and the operands; then the store variable, the branch and the text, as
far as the opcode has them.
-/

namespace ZMachine

namespace Branch

/-- A number of fourteen bits in two's complement. -/
def longOffset (value : Nat) : Int :=
  if value < 0x2000 then value else (value : Int) - 0x4000

/-- The top bit tells on which outcome to branch. The next bit marks an offset of six bits; without
it, six bits and another byte make a signed offset of fourteen. -/
def scan : Scan Branch := do
  let first ← Scan.byte
  let onTrue := first &&& 0x80 ≠ 0
  let bits := (first &&& 0x3F).toNat
  if first &&& 0x40 ≠ 0 then
    return ⟨onTrue, bits⟩
  let low ← Scan.byte
  return ⟨onTrue, longOffset (256 * bits + low.toNat)⟩

end Branch

namespace OperandKind

def scan : OperandKind → Scan Operand
  | large => return .large (← Scan.word)
  | small => return .small (← Scan.byte)
  | var => return .var (← Scan.byte)

/-- The operands of these kinds, one after another. -/
def scanAll : List OperandKind → Scan (List Operand)
  | [] => return []
  | kind :: rest => do
    let first ← kind.scan
    let others ← scanAll rest
    return first :: others

/-- The kinds in a byte of four, none if one follows a place left empty. -/
def ofTypeByte? (b : Byte) : Option (List OperandKind) :=
  let places := [ofBits? (b >>> 6), ofBits? (b >>> 4), ofBits? (b >>> 2), ofBits? b]
  if (places.dropWhile Option.isSome).all Option.isNone then
    some (places.takeWhile Option.isSome).reduceOption
  else none

end OperandKind

namespace Instruction

/-- Form, class and opcode number in the first byte. -/
def readFirstByte (b : Byte) : InstructionForm × OpcodeClass × Nat :=
  if b < 0x80 then (.long, .two, (b &&& 0x1F).toNat)
  else if b < 0xC0 then
    (.short, if b &&& 0x30 = 0x30 then .zero else .one, (b &&& 0x0F).toNat)
  else
    (.variadic, if b &&& 0x20 = 0 then .two else .several, (b &&& 0x1F).toNat)

/-- The kinds of the operands of the instruction at `address`, whose first byte is `b`. -/
def scanKinds (address : Nat) (b : Byte) : InstructionForm → Scan (List OperandKind)
  | .long =>
    let kind (bit : Byte) : OperandKind := if b &&& bit = 0 then .small else .var
    return [kind 0x40, kind 0x20]
  | .short => return (OperandKind.ofBits? (b >>> 4)).toList
  | .variadic => do
    match OperandKind.ofTypeByte? (← Scan.byte) with
    | some kinds => return kinds
    | none => throw (.nonTerminatedOperands address)

/-- What `scan` reads, if the opcode has it. -/
def scanIf {α : Type} (present : Bool) (scan : Scan α) : Scan (Option α) :=
  if present then some <$> scan else return none

/-- Moves past a text and gives its address. -/
def scanText : Scan Nat := do
  let start ← Scan.position
  let length ← (← read).textLength start
  set (start + length)
  return start

/-- The instruction at `address`, which is where the scan begins. -/
def scan (address : Nat) : Scan Instruction := do
  let first ← Scan.byte
  let (form, opcodeClass, number) := readFirstByte first
  let kinds ← scanKinds address first form
  let operands ← OperandKind.scanAll kinds
  match Opcode.ofNumber? opcodeClass number with
  | none => throw (.unimplementedOpcode opcodeClass number address)
  | some opcode =>
    let store ← scanIf opcode.stores Scan.byte
    let branch ← scanIf opcode.branches Branch.scan
    let text ← scanIf opcode.hasText scanText
    let stop ← Scan.position
    return {
      address, opcodeClass, number, form, operands, store, branch, text
      size := stop - address }

def decode (m : Memory) (address : Nat) : Except Error Instruction :=
  (·.1) <$> (scan address).runFrom m address

end Instruction
end ZMachine
