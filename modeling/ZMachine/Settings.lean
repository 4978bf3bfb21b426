import ZMachine.Random
import ZMachine.Settings.Toml

/-!
# Settings

What a player may set: a seed for random numbers that repeat themselves, a limit on instructions,
and which messages are logged.
-/

namespace ZMachine

structure Settings where
  randomSeed : Option UInt64
  instructionLimit : Option Nat
  logFilter : String
  deriving DecidableEq

inductive SettingsFault where
  | malformed (line : Nat)
  | unknown (key : String)
  | repeated (key : String)
  | mistyped (key : String)
  deriving DecidableEq, Repr

namespace SettingsFault

def message : SettingsFault → String
  | malformed line => s!"line {line} is not a setting"
  | unknown key => s!"unknown setting {key}"
  | repeated key => s!"setting {key} is given twice"
  | mistyped key => s!"setting {key} has a value of the wrong kind"

end SettingsFault

namespace Settings

def default : Settings :=
  ⟨none, none, "warn"⟩

def natural (key : String) : Toml.Value → Except SettingsFault Nat
  | .integer n => if n < 0 then .error (.mistyped key) else .ok n.toNat
  | .string _ => .error (.mistyped key)

/-- The settings with one more of them given. -/
def assign (s : Settings) (key : String) (value : Toml.Value) : Except SettingsFault Settings :=
  match key with
  | "random_seed" => return { s with randomSeed := some (UInt64.ofNat (← natural key value)) }
  | "instruction_limit" => return { s with instructionLimit := some (← natural key value) }
  | "log_filter" =>
    match value with
    | .string text => .ok { s with logFilter := text }
    | .integer _ => .error (.mistyped key)
  | _ => .error (.unknown key)

/-- The settings with all of these given, none of them twice. -/
def assignAll (s : Settings) (seen : List String) :
    List (String × Toml.Value) → Except SettingsFault Settings
  | [] => .ok s
  | (key, value) :: rest => do
    if key ∈ seen then
      throw (.repeated key)
    assignAll (← s.assign key value) (key :: seen) rest

/-- The settings in a file, and the default for each that it does not give. -/
def parse (text : String) : Except SettingsFault Settings :=
  match Toml.parse text with
  | .ok assignments => default.assignAll [] assignments
  | .error line => .error (.malformed line)

/-- The source of random numbers; without a seed set, it is started from `entropy`. -/
def random (s : Settings) (entropy : UInt64) : Random :=
  match s.randomSeed with
  | some seed => .predictable seed
  | none => .uniform entropy

end Settings
end ZMachine
