import ZMachine.Memory.Scan

/-!
# Routine frames

A call makes a frame with the locals and the value stack of the routine. The header of a routine
gives the number of locals and their first values, and arguments take the place of the first ones.

Locals and stack share one array: the locals come first, and the stack grows above them. Only the
number of locals tells them apart, so each access is checked against it.
-/

namespace ZMachine

/-- `returnAddress` is where the caller goes on, `result` the variable that it wants the result in.
The first `localCount` of the values are locals; the last value is the top of the stack. -/
structure Frame where
  routine : Nat
  returnAddress : Nat
  result : Option Byte
  localCount : Nat
  values : Array Word
  deriving DecidableEq, Repr

namespace Frame

def maxLocals : Nat := 15

/-- The frame a story starts in. -/
def initial (address : Nat) : Frame :=
  ⟨address, 0, none, 0, #[]⟩

/-- The first values of the locals of the routine at `routine`. -/
def scanLocals (routine : Nat) : Scan (List Word) := do
  let count := (← Scan.byte).toNat
  if count > maxLocals then
    throw (.tooManyLocals routine count)
  Scan.times Scan.word count

/-- The locals after a call; arguments that have no local are dropped. -/
def bind (locals arguments : List Word) : List Word :=
  arguments.take locals.length ++ locals.drop arguments.length

/-- The frame for a call of the routine at an address, and the address of its first instruction. -/
def forCall (m : Memory) (routine : Nat) (arguments : List Word) (returnAddress : Nat)
    (result : Option Byte) : Except Error (Frame × Nat) := do
  let (locals, start) ← (scanLocals routine).runFrom m routine
  return (⟨routine, returnAddress, result, locals.length, (bind locals arguments).toArray⟩, start)

/-! ## The value stack -/

def push (f : Frame) (value : Word) : Frame :=
  { f with values := f.values.push value }

/-- The top of the stack. A local never counts as one. -/
def peek (f : Frame) : Except Error Word :=
  if h : f.localCount < f.values.size then .ok (f.values.back (by omega))
  else .error (.stackUnderflow f.routine)

def pop (f : Frame) : Except Error (Word × Frame) :=
  if h : f.localCount < f.values.size then
    .ok (f.values.back (by omega), { f with values := f.values.pop })
  else .error (.stackUnderflow f.routine)

/-! ## Locals, counted from 1 -/

def requireLocal (f : Frame) (number : Nat) : Except Error Unit :=
  if 0 < number ∧ number ≤ f.localCount then .ok ()
  else .error (.invalidOperand (.noLocal number f.routine f.localCount))

def getLocal (f : Frame) (number : Nat) : Except Error Word := do
  f.requireLocal number
  return f.values.getD (number - 1) 0

def setLocal (f : Frame) (number : Nat) (value : Word) : Except Error Frame := do
  f.requireLocal number
  return { f with values := f.values.setIfInBounds (number - 1) value }

/-! ## Views -/

def locals (f : Frame) : List Word :=
  f.values.toList.take f.localCount

/-- The value stack, its top first. -/
def stack (f : Frame) : List Word :=
  (f.values.toList.drop f.localCount).reverse

open Numeral in
def listing (f : Frame) : String :=
  let values (ws : List Word) := ", ".intercalate (ws.map fun w => hex 4 w.toNat)
  s!"routine {hex 4 f.routine} locals [{values f.locals}] stack [{values f.stack.reverse}]"

end Frame
end ZMachine
