/-!
# Opcode classes

Opcodes are numbered apart in four classes, by how many operands they take.
-/

namespace ZMachine

inductive OpcodeClass where
  | zero
  | one
  | two
  | several
  deriving DecidableEq, Repr

namespace OpcodeClass

/-- The class as listings and messages write it. -/
def label : OpcodeClass → String
  | zero => "0OP"
  | one => "1OP"
  | two => "2OP"
  | several => "VAR"

end OpcodeClass
end ZMachine
