import ZMachine.Machine.Control

/-!
# Typed lines

A line of input is put into a text buffer, and its words into a parse buffer. The first byte of each
buffer says how much it holds. The text is followed by a zero byte; the words are counted in the
second byte of the parse buffer, and for each there is a record of four bytes: the address of its
dictionary entry, its length, and its place in the text buffer.
-/

namespace ZMachine

namespace TypedLine

/-- A character as it is stored: in lower case and printable ASCII. A tab counts as a blank. Outside
ASCII, the Kelvin sign and the dotted capital I have lower-case forms with an ASCII letter in
them. -/
def normalise? (c : Char) : Option Char :=
  if c = '\t' then some ' '
  else if c = '\u212A' then some 'k'
  else if c = '\u0130' then some 'i'
  else if ' ' ≤ c ∧ c ≤ '~' then some c.toLower
  else none

def normalise (line : String) : List Char :=
  line.toList.filterMap normalise?

end TypedLine

namespace Machine

def recordLength : Nat := 4

def writeBytes (address : Nat) : List Byte → MachineM Unit
  | [] => return
  | b :: rest => do
    writeByte address b
    writeBytes (address + 1) rest

/-- Puts text and a zero byte into a text buffer; `text` has been cut to what it holds. -/
def writeText (buffer : Nat) (text : List Char) : MachineM Unit := do
  writeBytes (buffer + 1) (text.map fun c => UInt8.ofNat c.toNat)
  writeByte (buffer + 1 + text.length) 0

def writeRecord (address : Nat) (word : Token) : MachineM Unit := do
  let entry := ((← get).dictionary.lookup word.text).getD 0
  writeWord address (UInt16.ofNat entry)
  writeByte (address + 2) (UInt8.ofNat word.text.utf8ByteSize)
  writeByte (address + 3) (UInt8.ofNat (word.offset + 1))

def writeRecords (address : Nat) : List Token → MachineM Unit
  | [] => return
  | word :: rest => do
    writeRecord address word
    writeRecords (address + recordLength) rest

/-- Stores a line and its words. What the text buffer has no room for is dropped before the words
are cut, and words that the parse buffer has no room for afterwards. -/
def acceptLine (textBuffer parseBuffer : Nat) (line : String) : MachineM Unit := do
  let capacity := (← readByte textBuffer).toNat - 1
  let text := (TypedLine.normalise line).take capacity
  writeText textBuffer text
  let words ← (← get).dictionary.tokenise (String.ofList text)
  let maxWords := (← readByte parseBuffer).toNat
  let kept := words.take maxWords
  writeByte (parseBuffer + 1) (UInt8.ofNat kept.length)
  writeRecords (parseBuffer + 2) kept

end Machine
end ZMachine
