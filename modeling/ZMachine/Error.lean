import ZMachine.Numeral
import ZMachine.Opcode.Class

/-!
# What can go wrong

One constructor per cause. A story is refused by one of the five causes `isLoadError` names, before
a machine is built from it; every other cause stops the machine that met it. The wording of all of
them is in `Error.message`.

Computations that fail come in two kinds. `Except Error` has a value or a cause and no more.
`EStateM Error σ` also carries a state, and keeps what was done to it before the failure.
-/

namespace ZMachine

/-- Why the world outside the machine refused to take text or to give it. -/
inductive HostError where
  | endOfInput
  | failed (reason : String)
  deriving DecidableEq, Repr

namespace HostError

def reason : HostError → String
  | endOfInput => "end of input"
  | failed reason => reason

def message (e : HostError) : String :=
  "I/O error: " ++ e.reason

end HostError

/-- An operand that does not name anything an instruction could act on. -/
inductive OperandFault where
  | noObject (id size : Nat)
  | noAttribute (number : Nat)
  | noProperty (number : Nat)
  | missingFromChildren (id parent : Nat)
  | ownParent (id : Nat)
  | noLocal (number routine count : Nat)
  | missing (position : Nat)
  | tooFewToCompare (address : Nat)
  | noInlineText (address : Nat)
  | branchBeforeMemory (target : Int)
  | jumpBeforeMemory (target : Int)
  deriving DecidableEq, Repr

namespace OperandFault
open Numeral

def message : OperandFault → String
  | noObject id size => s!"object {id} (table holds {size})"
  | noAttribute number => s!"attribute {number}"
  | noProperty number => s!"property {number}"
  | missingFromChildren id parent => s!"object {id} missing from children of {parent}"
  | ownParent id => s!"object {id} cannot be its own parent"
  | noLocal number routine count =>
    s!"local {number} in routine {hex 4 routine} with {count} locals"
  | missing position => s!"missing operand {position}"
  | tooFewToCompare address => s!"je at {hex 4 address} needs at least 2 operands"
  | noInlineText address => s!"no inline text at {hex 4 address}"
  | branchBeforeMemory target => s!"branch target {target} before memory"
  | jumpBeforeMemory target => s!"jump target {target} before memory"

end OperandFault

inductive Error where
  | unsupportedVersion (version : Nat)
  | invalidDynamicMemory (limit : Nat)
  | overlappingMemoryRegions (high dynamic : Nat)
  | fileTooLarge (length : Nat)
  | truncatedStory (length : Nat)
  | memoryOutOfRange (address size : Nat)
  | writeOutsideDynamicMemory (address : Nat)
  | abbreviationTooDeep (address : Nat)
  | unencodableCharacter (c : Char)
  | splitCharacter (offset : Nat)
  | invalidOperand (fault : OperandFault)
  | propertyNotFound (object property : Nat)
  | propertyTooLong (object property length : Nat)
  | divisionByZero
  | nonTerminatedOperands (address : Nat)
  | unimplementedOpcode (opcodeClass : OpcodeClass) (number address : Nat)
  | stackUnderflow (routine : Nat)
  | tooManyLocals (address count : Nat)
  | returnFromMainRoutine
  | instructionLimit (limit : Nat)
  | host (cause : HostError)
  deriving DecidableEq, Repr

namespace Error
open Numeral

def message : Error → String
  | unsupportedVersion version =>
    s!"Unsupported story file version {version} (versions 1-3 are supported)"
  | invalidDynamicMemory limit =>
    s!"Dynamic memory size {hex0x 4 limit} is smaller than the 64-byte header"
  | overlappingMemoryRegions high dynamic =>
    s!"High memory at {hex0x 4 high} overlaps dynamic memory ending at {hex0x 4 dynamic}"
  | fileTooLarge length => s!"Story file length {hex0x 1 length} exceeds the 128 KiB limit"
  | truncatedStory length => s!"Story file is truncated: {length} bytes"
  | memoryOutOfRange address size =>
    s!"Memory access out of range at {hex0x 4 address} (memory size {hex0x 4 size})"
  | writeOutsideDynamicMemory address => s!"Write to {hex0x 4 address} outside dynamic memory"
  | abbreviationTooDeep address =>
    s!"Abbreviations nested too deeply in string at {hex0x 4 address}"
  | unencodableCharacter c => s!"Character '{c}' cannot be encoded"
  | splitCharacter offset => s!"A word ends inside the character at byte {offset}"
  | invalidOperand fault => s!"Invalid operand: {fault.message}"
  | propertyNotFound object property => s!"Property {property} not found on object {object}"
  | propertyTooLong object property length =>
    s!"Property {property} of object {object} is {length} bytes long"
  | divisionByZero => "Division by zero"
  | nonTerminatedOperands address =>
    s!"Omitted operand followed by a present one at {hex0x 4 address}"
  | unimplementedOpcode opcodeClass number address =>
    s!"Unimplemented opcode {opcodeClass.label}:{hex0x 2 number} at {hex0x 4 address}"
  | stackUnderflow routine => s!"Value stack underflow in routine at {hex0x 4 routine}"
  | tooManyLocals address count => s!"Routine at {hex0x 4 address} declares {count} locals"
  | returnFromMainRoutine => "Return from the main routine"
  | instructionLimit limit => s!"Instruction limit of {limit} reached"
  | host cause => cause.message

/-- The causes for which a story is refused before any of it runs. -/
def isLoadError : Error → Bool
  | unsupportedVersion _ | invalidDynamicMemory _ | overlappingMemoryRegions .. | fileTooLarge _
  | truncatedStory _ => true
  | _ => false

end Error

/-- A computation without a state runs in one with a state, and leaves the state alone. -/
instance exceptLift {ε σ : Type} : MonadLift (Except ε) (EStateM ε σ) where
  monadLift x s :=
    match x with
    | .ok a => .ok a s
    | .error e => .error e s

end ZMachine
