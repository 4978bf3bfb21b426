import ZMachine.Text.Packing
import ZMachine.Text.Piece

/-!
# Strings in a story

A string is packed text, in which references stand for the strings of the abbreviation table. Those
may hold references of their own, but only down to a fixed depth, so reading a string always ends.
-/

namespace ZMachine

/-- Where the 96 pointers to abbreviations lie, in three tables of 32. -/
structure AbbreviationTable where
  address : Nat
  deriving DecidableEq, Repr

namespace AbbreviationTable

def count : Nat := 96

/-- Where the string of an abbreviation lies; its table entry is the halved address. -/
def stringAddress (t : AbbreviationTable) (m : Memory) (index : Nat) : Except Error Nat :=
  (2 * ·.toNat) <$> m.wordAt (t.address + 2 * index)

end AbbreviationTable

namespace ZString

/-- How many strings deep references may lead. -/
def maxDepth : Nat := 4

/-- Reads the string at an address, when so many strings may still be open at a time. -/
def readWithin (m : Memory) (abbreviations : AbbreviationTable) :
    Nat → Nat → Except Error (List Char)
  | 0, address => .error (.abbreviationTooDeep address)
  | depth + 1, address => do
    let zs ← m.zcharsAt address
    Piece.expand (fun table index => do
        let target ← abbreviations.stringAddress m (32 * table + index)
        readWithin m abbreviations depth target)
      (Piece.ofZChars zs)

/-- The string at a byte address. -/
def read (m : Memory) (abbreviations : AbbreviationTable) (address : Nat) :
    Except Error String :=
  String.ofList <$> readWithin m abbreviations maxDepth address

/-- The string at a packed address, which is half of its byte address. -/
def readPacked (m : Memory) (abbreviations : AbbreviationTable) (packed : Word) :
    Except Error String :=
  read m abbreviations (2 * packed.toNat)

/-! ## Writing -/

/-- The z-characters of one character, none if no string can hold it. -/
def zcharsOf? (c : Char) : Option (List ZChar) :=
  if c = ' ' then some [0]
  else if let some z := Alphabet.lower.zchar? c then some [z]
  else if let some z := Alphabet.upper.zchar? c then some [4, z]
  else if let some z := Alphabet.punctuation.zchar? c then some [5, z]
  else if c.toNat < 0x400 then
    some [5, 6, UInt8.ofNat (c.toNat / 32), UInt8.ofNat (c.toNat % 32)]
  else none

/-- The z-characters of a text, or a refusal of its first character that has none. -/
def toZChars : List Char → Except Error (List ZChar)
  | [] => .ok []
  | c :: rest =>
    match zcharsOf? c with
    | some zs => (zs ++ ·) <$> toZChars rest
    | none => .error (.unencodableCharacter c)

def encode (text : String) : Except Error (List Word) :=
  packZChars <$> toZChars text.toList

end ZString

namespace AbbreviationTable

/-- The text of an abbreviation. It counts as one string deep, since only references lead to it. -/
def get (t : AbbreviationTable) (m : Memory) (index : Nat) : Except Error String := do
  let address ← t.stringAddress m index
  String.ofList <$> ZString.readWithin m t (ZString.maxDepth - 1) address

/-- All abbreviations in the order of the table. -/
def all (t : AbbreviationTable) (m : Memory) : Except Error (List String) :=
  (List.range count).mapM (t.get m)

end AbbreviationTable
end ZMachine
