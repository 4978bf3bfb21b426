import ZMachine.Command
import ZMachine.Engine.Run
import ZMachine.Host.Terminal
import ZMachine.Settings

/-!
# Playing a story

The command that plays a story on the terminal, with settings from a file if one is named.
-/

namespace ZMachine.Play

def usage (program : String) : String :=
  "lantern - Z-Machine interpreter for version 1-3 story files\n\n" ++
  s!"Usage: {program} <story_file> [--config <file.toml>]\n\n" ++
  "The config file may set random_seed, instruction_limit and log_filter.\n"

/-! ## Arguments -/

structure Request where
  story : String
  config : Option String
  deriving DecidableEq, Repr

inductive ArgumentFault where
  | missingConfigName
  | unknownOption (option : String)
  | secondStory
  deriving DecidableEq, Repr

def ArgumentFault.message : ArgumentFault → String
  | missingConfigName => "--config needs a file name"
  | unknownOption option => s!"unknown option {option}"
  | secondStory => "only one story file may be given"

/-- What the arguments ask for after a story and a settings file have been named; none if that is
help. -/
def parseFrom (story config : Option String) : List String → Except ArgumentFault (Option Request)
  | [] => return story.map fun story => ⟨story, config⟩
  | "-h" :: _ | "--help" :: _ => return none
  | "--config" :: name :: rest => parseFrom story (some name) rest
  | ["--config"] => throw .missingConfigName
  | other :: rest =>
    if other.startsWith "-" then throw (.unknownOption other)
    else if story.isSome then throw .secondStory
    else parseFrom (some other) config rest

def parseArguments (arguments : List String) : Except ArgumentFault (Option Request) :=
  parseFrom none none arguments

/-! ## Starting -/

inductive Fault where
  | unreadableSettings (name reason : String)
  | invalidSettings (cause : SettingsFault)
  | unreadableStory (name reason : String)
  | notPlayable (name : String) (cause : Error)
  | stopped (cause : Error)
  deriving DecidableEq, Repr

/-- The message of a fault and the causes behind it; a cause that a message already quotes is named
again after it. -/
def Fault.message : Fault → String
  | unreadableSettings name reason => s!"cannot read config {name}: {reason}: {reason}"
  | invalidSettings cause => s!"invalid config: {cause.message}: {cause.message}"
  | unreadableStory name reason => s!"cannot read story file '{name}': {reason}"
  | notPlayable name cause => s!"'{name}' is not a playable story: {cause.message}"
  | stopped (.host cause) => s!"{cause.message}: {cause.message}"
  | stopped cause => cause.message

def loadSettings (files : Files) : Option String → Except Fault Settings
  | none => .ok .default
  | some name =>
    match files.text name with
    | .error reason => .error (.unreadableSettings name reason)
    | .ok text => (Settings.parse text).mapError .invalidSettings

/-- An engine at the start of the story asked for. -/
def start {η : Type} (files : Files) (entropy : UInt64) (host : η) (request : Request) :
    Except Fault (Engine η) := do
  let settings ← loadSettings files request.config
  let bytes ← (files request.story).mapError (.unreadableStory request.story)
  let memory : Memory := ⟨bytes.data⟩
  let header ← (Header.parse memory).mapError (.notPlayable request.story)
  let machine ← (Machine.start memory header (settings.random entropy)).mapError .stopped
  return { Engine.ofMachine machine host with limit := settings.instructionLimit }

/-! ## The whole command -/

/-- The report of a command that never came to play. -/
def refuse (program : String) : ArgumentFault → Report :=
  fun fault => ⟨2, usage program, s!"Error: {fault.message}\n\n"⟩

def faultReport (output : String) (fault : Fault) : Report :=
  ⟨1, output, s!"\nError: {fault.message}\n"⟩

/-- The report after a run; none if the story has not ended within the fuel. -/
def reportOf (text : Engine Terminal → String) :
    EStateM.Result Error (Engine Terminal) Bool → Option Report
  | .ok true e => some ⟨0, text e, ""⟩
  | .ok false _ => none
  | .error cause e => some (faultReport (text e) (.stopped cause))

/-- What a terminal has been sent, which is always whole texts. -/
def shownText (e : Engine Terminal) : String :=
  (String.fromUTF8? e.host.sink.written).getD ""

/-- Plays with all input known beforehand. -/
def run (fuel : Nat) (files : Files) (entropy : UInt64) (input : List Byte) (program : String)
    (arguments : List String) : Option Report :=
  match parseArguments arguments with
  | .error fault => some (refuse program fault)
  | .ok none => some ⟨0, usage program, ""⟩
  | .ok (some request) =>
    match start files entropy (⟨input, .unlimited⟩ : Terminal) request with
    | .error fault => some (faultReport "" fault)
    | .ok engine => reportOf shownText (Engine.runFor fuel engine)

end ZMachine.Play
