import ZMachine.Memory

/-!
# Commands

What the command line programs share: how they find files, and what they leave behind.
-/

namespace ZMachine

/-- The contents of a file by its name, or the reason why it cannot be read. -/
abbrev Files := String → Except String ByteArray

/-- What a program that has ended wrote to its two outputs, and its exit code. -/
structure Report where
  code : Nat
  output : String
  errors : String
  deriving DecidableEq, Repr

/-- The contents of a file as text. -/
def Files.text (files : Files) (name : String) : Except String String := do
  match String.fromUTF8? (← files name) with
  | some text => return text
  | none => throw "stream did not contain valid UTF-8"

end ZMachine
