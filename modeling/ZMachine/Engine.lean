import ZMachine.Host
import ZMachine.Machine

/-!
# Engines

An engine is a machine and the host it plays on. It stops for good when the story ends or an
instruction fails, and it counts the instructions it has begun to execute.
-/

namespace ZMachine

structure Engine (η : Type) where
  machine : Machine
  host : η
  halted : Bool
  count : Nat
  limit : Option Nat

/-- An action of an engine. What was done before a failure stays done. -/
abbrev EngineM (η : Type) := EStateM Error (Engine η)

namespace Engine
variable {η α : Type}

def ofMachine (machine : Machine) (host : η) : Engine η :=
  ⟨machine, host, false, 0, none⟩

/-- An action of the machine alone. -/
def onMachine (x : MachineM α) : EngineM η α := fun ⟨machine, host, halted, count, limit⟩ =>
  match x machine with
  | .ok a machine => .ok a ⟨machine, host, halted, count, limit⟩
  | .error e machine => .error e ⟨machine, host, halted, count, limit⟩

/-- An action of the host alone. -/
def onHost (x : HostM η α) : EngineM η α := fun ⟨machine, host, halted, count, limit⟩ =>
  match x host with
  | .ok a host => .ok a ⟨machine, host, halted, count, limit⟩
  | .error e host => .error (.host e) ⟨machine, host, halted, count, limit⟩

instance machineLift : MonadLift MachineM (EngineM η) where
  monadLift := onMachine

variable [Host η]

def print (text : String) : EngineM η Unit :=
  onHost (Host.print text)

/-- The next line of input, none if there is no more. -/
def readLine? : EngineM η (Option String) :=
  onHost do
    try
      some <$> Host.readLine
    catch
      | .endOfInput => return none
      | e => throw e

end Engine
end ZMachine
