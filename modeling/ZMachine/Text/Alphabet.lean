import ZMachine.Word

/-!
# Alphabets

Text is made of z-characters, numbers below 32. Those from 6 on name a letter in one of three
alphabets. Of the punctuation alphabet the first two places are never read as letters: 6 opens an
escape, and 7 is the newline.
-/

namespace ZMachine

abbrev ZChar := UInt8

inductive Alphabet where
  | lower
  | upper
  | punctuation
  deriving DecidableEq, Repr

namespace Alphabet

def letters : Alphabet → List Char
  | lower => "abcdefghijklmnopqrstuvwxyz".toList
  | upper => "ABCDEFGHIJKLMNOPQRSTUVWXYZ".toList
  | punctuation => " \n0123456789.,!?_#'\"/\\-:()".toList

/-- The letter that a z-character from 6 on names. -/
def letter (a : Alphabet) (z : ZChar) : Char :=
  a.letters.getD (z.toNat - 6) ' '

/-- The z-character that names a letter. -/
def zchar? (a : Alphabet) (c : Char) : Option ZChar :=
  (a.letters.idxOf? c).map fun i => UInt8.ofNat (i + 6)

end Alphabet
end ZMachine
