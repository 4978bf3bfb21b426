import ZMachine.Machine.Control

/-!
# Chance

A positive range asks for a number in it. Any other starts the source of random numbers anew, from
the clock or from the number itself, and then the result is 0.
-/

namespace ZMachine.Machine

def drawOrReseed (range : Word) : MachineM Word := do
  if range.signed > 0 then
    let (value, random) := (← get).random.upTo range
    modify fun m => { m with random }
    return value
  else if range = 0 then
    modify fun m => { m with random := m.random.reseedFromClock }
    return 0
  else
    modify fun m => { m with random := m.random.reseed (-range).toUInt64 }
    return 0

def randomNumber (i : Instruction) (values : List Word) : MachineM Outcome := do
  let range ← operand values 0
  let value ← drawOrReseed range
  storeResult i value
  return .advanced

end ZMachine.Machine
