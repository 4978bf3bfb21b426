import ZMachine.Opcode
import ZMachine.Variable
import ZMachine.Numeral

/-!
# Instructions

An instruction is an opcode with operands and with what its opcode asks for besides. Operands are as
the program wrote them: one that names a variable is looked up when the instruction is executed.
-/

namespace ZMachine

inductive Operand where
  | large (value : Word)
  | small (value : Byte)
  | var (number : Byte)
  deriving DecidableEq, Repr

/-- The two bits that announce an operand. The fourth pattern says that there is none. -/
inductive OperandKind where
  | large
  | small
  | var
  deriving DecidableEq, Repr

/-- How opcode and kinds of operands are packed into the first bytes. -/
inductive InstructionForm where
  | long
  | short
  | variadic
  deriving DecidableEq, Repr

/-- Where to go if a condition holds, or fails. Offsets 0 and 1 mean to return that value instead;
other offsets count from two bytes before the end of the instruction. -/
structure Branch where
  onTrue : Bool
  offset : Int
  deriving DecidableEq, Repr

structure Instruction where
  address : Nat
  opcodeClass : OpcodeClass
  number : Nat
  form : InstructionForm
  operands : List Operand
  store : Option Byte
  branch : Option Branch
  text : Option Nat
  size : Nat
  deriving DecidableEq, Repr

def OperandKind.ofBits? (bits : Byte) : Option OperandKind :=
  match (bits &&& 3).toNat with
  | 0 => some .large
  | 1 => some .small
  | 2 => some .var
  | _ => none

namespace Operand

def kind : Operand → OperandKind
  | large _ => .large
  | small _ => .small
  | var _ => .var

/-- The number in the program, whatever it stands for. -/
def raw : Operand → Word
  | large value => value
  | small value => value.toUInt16
  | var number => number.toUInt16

end Operand

namespace Instruction

def opcode? (i : Instruction) : Option Opcode :=
  Opcode.ofNumber? i.opcodeClass i.number

def name (i : Instruction) : String :=
  (i.opcode?.map (·.name)).getD "unknown"

/-- The address after the instruction. -/
def next (i : Instruction) : Nat :=
  i.address + i.size

end Instruction

/-! ## Listing -/

open Numeral

def Operand.listing : Operand → String
  | large value => s!" #{hex 4 value.toNat}"
  | small value => s!" #{hex 4 value.toNat}"
  | var number =>
    match Variable.ofByte number with
    | .stackTop => " (SP)+"
    | .localVar n => s!" L{hex 2 (n - 1)}"
    | .globalVar n => s!" G{hex 2 n}"

def Branch.listing (b : Branch) : String :=
  if b.onTrue then s!" ?{b.offset}" else s!" ?~{b.offset}"

def Instruction.listing (i : Instruction) : String :=
  let store := (i.store.map fun v => s!" -> {hex 2 v.toNat}").getD ""
  let branch := (i.branch.map (·.listing)).getD ""
  s!"{hex 5 i.address}: {i.opcodeClass.label} {i.name}" ++
  String.join (i.operands.map (·.listing)) ++ store ++ branch

end ZMachine
