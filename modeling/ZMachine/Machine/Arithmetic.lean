import ZMachine.Machine.Control

/-!
# Arithmetic and comparison

Words are added, subtracted and multiplied modulo 2^16. Division takes them as signed, drops the
fraction, and wraps around in the one case whose quotient is too large. Order is that of signed
words.
-/

namespace ZMachine

namespace Word

def divide (a b : Word) : Except Error Word :=
  if b = 0 then .error .divisionByZero else .ok (a.toInt16 / b.toInt16).toUInt16

/-- What a division leaves has the sign of the dividend. -/
def remainder (a b : Word) : Except Error Word :=
  if b = 0 then .error .divisionByZero else .ok (a.toInt16 % b.toInt16).toUInt16

end Word

namespace Machine

/-- Stores what is computed from one operand. -/
def unary (i : Instruction) (values : List Word) (f : Word → Word) : MachineM Outcome := do
  let a ← operand values 0
  storeResult i (f a)
  return .advanced

/-- Stores what is computed from two operands. -/
def binary (i : Instruction) (values : List Word) (f : Word → Word → Except Error Word) :
    MachineM Outcome := do
  let a ← operand values 0
  let b ← operand values 1
  let result ← f a b
  storeResult i result
  return .advanced

/-- Branches on a relation between two operands. -/
def compare (i : Instruction) (values : List Word) (holds : Word → Word → Bool) :
    MachineM Outcome := do
  let a ← operand values 0
  let b ← operand values 1
  branch i (holds a b)

/-- Branches if the first operand equals any of the others. -/
def branchIfEqual (i : Instruction) : List Word → MachineM Outcome
  | a :: b :: rest => branch i (a ∈ b :: rest)
  | _ => throw (.invalidOperand (.tooFewToCompare i.address))

def branchIfZero (i : Instruction) (values : List Word) : MachineM Outcome := do
  let a ← operand values 0
  branch i (a = 0)

/-- Branches if the first operand has all the bits of the second. -/
def branchIfBitsSet (i : Instruction) (values : List Word) : MachineM Outcome := do
  let bits ← operand values 1
  let a ← operand values 0
  branch i (a &&& bits = bits)

end Machine
end ZMachine
