import ZMachine.Host
import ZMachine.Word

/-!
# A terminal

A terminal reads lines from a stream of bytes and writes text as UTF-8 to a sink of bytes. A line
goes up to and with its newline, and the last one may lack it.
-/

namespace ZMachine

/-- Where bytes are written to. A sink with `room` for so many bytes refuses a text that would not
fit whole, for the reason `refusal`. -/
structure Sink where
  written : ByteArray
  room : Option Nat
  refusal : HostError
  flushes : Nat

structure Terminal where
  input : List Byte
  sink : Sink

namespace Sink

def unlimited : Sink :=
  ⟨.empty, none, .failed "no room", 0⟩

def fits (s : Sink) (count : Nat) : Bool :=
  s.room.all (s.written.size + count ≤ ·)

/-- An empty text is never refused, since nothing is written. -/
def write (text : String) : HostM Sink Unit := do
  let bytes := text.toUTF8
  let s ← get
  if bytes.isEmpty then return
  else if s.fits bytes.size then set { s with written := s.written ++ bytes }
  else throw s.refusal

def flush : HostM Sink Unit :=
  modify fun s => { s with flushes := s.flushes + 1 }

end Sink

namespace Terminal

def newline : Byte := 10

/-- The first line, with its newline if there is one, and what follows it. -/
def splitLine : List Byte → List Byte × List Byte
  | [] => ([], [])
  | b :: rest =>
    if b = newline then ([b], rest)
    else
      let (line, after) := splitLine rest
      (b :: line, after)

/-- The characters of a line without any newlines and carriage returns at its end. -/
def trimEnd (cs : List Char) : List Char :=
  (cs.reverse.dropWhile fun c => c = '\n' ∨ c = '\r').reverse

def onSink {α : Type} (x : HostM Sink α) : HostM Terminal α := fun t =>
  match x t.sink with
  | .ok a sink => .ok a { t with sink }
  | .error e sink => .error e { t with sink }

/-- Held-back output goes out first, so that a prompt is seen before its answer is typed. A line
that is not UTF-8 is used up and refused. -/
def readLine : HostM Terminal String := do
  onSink Sink.flush
  let (line, rest) := splitLine (← get).input
  if line.isEmpty then
    throw .endOfInput
  modify fun t => { t with input := rest }
  match String.fromUTF8? ⟨line.toArray⟩ with
  | some text => return String.ofList (trimEnd text.toList)
  | none => throw (.failed "stream did not contain valid UTF-8")

end Terminal

instance Terminal.host : Host Terminal where
  print text := Terminal.onSink (Sink.write text)
  readLine := Terminal.readLine
  flush := Terminal.onSink Sink.flush

end ZMachine
