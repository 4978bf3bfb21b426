import ZMachine.Command.Inspect
import ZMachine.Command.Play

/-!
# The command line

The first argument is the name of a command: `lantern-dump` looks into stories, and any other name
plays one. A story is played step by step, so that output appears before the line that answers it is
typed.
-/

namespace ZMachine

def fileError (e : IO.Error) : String :=
  match e with
  | .noFileOrDirectory .. => "No such file or directory (os error 2)"
  | e => toString e

/-- What the named files hold now; no other file is found. -/
def readFiles (names : List String) : IO Files := do
  let contents ← names.mapM fun (name : String) => do
    try
      return (name, Except.ok (← IO.FS.readBinFile name))
    catch e =>
      return (name, Except.error (fileError e))
  return fun name => (contents.lookup name).getD (.error "No such file or directory (os error 2)")

def issue (r : Report) : IO UInt32 := do
  IO.print r.output
  IO.eprint r.errors
  return UInt32.ofNat r.code

/-- Shows what has been written since the last time. -/
def showOutput (e : Engine Terminal) : IO (Engine Terminal) := do
  let out ← IO.getStdout
  out.write e.host.sink.written
  out.flush
  return { e with host := { e.host with sink := { e.host.sink with written := .empty } } }

/-- Lets the next step have a typed line if it wants one, and the time of day. -/
def prepareStep (e : Engine Terminal) : IO (Engine Terminal) := do
  let now ← IO.monoNanosNow
  let random := { e.machine.random with clock := [UInt64.ofNat now] }
  let e := { e with machine := { e.machine with random } }
  if e.awaitsLine && e.host.input.isEmpty then
    let e ← showOutput e
    let line ← (← IO.getStdin).getLine
    return { e with host := { e.host with input := line.toUTF8.data.toList } }
  else
    return e

partial def play (e : Engine Terminal) : IO UInt32 := do
  if e.halted then
    let _ ← showOutput e
    return 0
  match Engine.step (← prepareStep e) with
  | .ok _ e => play e
  | .error cause e =>
    let _ ← showOutput e
    issue (Play.faultReport "" (.stopped cause))

def playCommand (program : String) (arguments : List String) : IO UInt32 := do
  match Play.parseArguments arguments with
  | .error fault => issue (Play.refuse program fault)
  | .ok none => issue ⟨0, Play.usage program, ""⟩
  | .ok (some request) =>
    let files ← readFiles (request.story :: request.config.toList)
    let entropy := UInt64.ofNat (← IO.rand 0 0xFFFFFFFF)
    match Play.start files entropy (⟨[], .unlimited⟩ : Terminal) request with
    | .error fault => issue (Play.faultReport "" fault)
    | .ok engine => play engine

def inspectCommand (program : String) (arguments : List String) : IO UInt32 := do
  let stories :=
    match Inspect.parseArguments arguments with
    | .ok (some request) => request.stories
    | _ => []
  issue (Inspect.run (← readFiles stories) program arguments)

end ZMachine

def main (arguments : List String) : IO UInt32 := do
  let program := arguments.headD "lantern"
  if program = "lantern-dump" then
    ZMachine.inspectCommand program arguments.tail
  else
    ZMachine.playCommand program arguments.tail
