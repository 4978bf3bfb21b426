import ZMachine.Word

/-!
# Variables

A byte names a variable: 0 is the top of the stack, 1 to 15 are the locals of the running routine,
and the rest are the 240 globals.
-/

namespace ZMachine

inductive Variable where
  | stackTop
  | localVar (number : Nat)
  | globalVar (index : Nat)
  deriving DecidableEq, Repr

namespace Variable

/-- Locals are counted from 1, globals from 0. -/
def ofByte (b : Byte) : Variable :=
  if b = 0 then stackTop
  else if b < 16 then localVar b.toNat
  else globalVar (b.toNat - 16)

end Variable
end ZMachine
