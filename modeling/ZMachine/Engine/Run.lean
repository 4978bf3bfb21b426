import ZMachine.Engine.Execute
import ZMachine.Instruction.Decode

/-!
# Running a story

A step reads the instruction at the program counter, moves past it, looks up its operands and
executes it. The first failure stops the engine, and so does the end of the story; a stopped engine
does nothing more.
-/

namespace ZMachine.Engine
variable {η : Type} [Host η]

/-- Refuses to go on when as many instructions as allowed have been executed. -/
def checkLimit : EngineM η Unit := do
  let e ← get
  match e.limit with
  | some limit => if e.count ≥ limit then throw (.instructionLimit limit)
  | none => return

/-- The instruction at the program counter, which then stands after it. -/
def fetch : MachineM Instruction := do
  let m ← get
  let i ← Instruction.decode m.memory m.pc
  Machine.setPc i.next
  return i

def cycle : EngineM η Outcome := do
  checkLimit
  let i ← fetch
  let values ← Machine.resolveAll i.operands
  modify fun e => { e with count := e.count + 1 }
  execute i values

def halt : EngineM η Unit :=
  modify fun e => { e with halted := true }

/-- After a failure, whether the host could flush does not matter. -/
def flushAnyway : EngineM η Unit :=
  tryCatch (onHost Host.flush) fun _ => pure ()

/-- Executes one instruction. -/
def step : EngineM η Outcome := do
  if (← get).halted then
    return .quit
  let outcome ← tryCatch cycle fun e => do
    halt
    flushAnyway
    throw e
  if outcome = .quit then
    halt
    onHost Host.flush
  return outcome

/-- Takes steps until the engine has stopped, at most `fuel` of them, and tells whether it has. -/
def runFor : (fuel : Nat) → EngineM η Bool
  | 0 => return (← get).halted
  | fuel + 1 => do
    if (← get).halted then
      return true
    let _ ← step
    runFor fuel

omit [Host η] in
/-- Whether the next step will ask the host for a line. -/
def awaitsLine (e : Engine η) : Bool :=
  !e.halted &&
    match Instruction.decode e.machine.memory e.machine.pc with
    | .ok i => i.opcode? == some .sread
    | .error _ => false

end ZMachine.Engine
