import ZMachine.Memory
import ZMachine.Text.Alphabet

/-!
# Packed text

Three z-characters fill the low fifteen bits of a word. The top bit marks the last word of a text,
and the places left over in that word are padded with 5s.
-/

namespace ZMachine

/-- The z-character that fills unused places. -/
def padZChar : ZChar := 5

/-! ## One word -/

def packWord (a b c : ZChar) : Word :=
  a.toUInt16 <<< 10 ||| b.toUInt16 <<< 5 ||| c.toUInt16

/-- The word with the mark of a last word. -/
def markLast (w : Word) : Word :=
  w ||| 0x8000

def isLast (w : Word) : Bool :=
  w &&& 0x8000 ≠ 0

def unpackWord (w : Word) : List ZChar :=
  [(w >>> 10 &&& 31).toUInt8, (w >>> 5 &&& 31).toUInt8, (w &&& 31).toUInt8]

/-! ## A whole text -/

def packZChars : List ZChar → List Word
  | [] => [markLast (packWord padZChar padZChar padZChar)]
  | [a] => [markLast (packWord a padZChar padZChar)]
  | [a, b] => [markLast (packWord a b padZChar)]
  | [a, b, c] => [markLast (packWord a b c)]
  | a :: b :: c :: d :: rest => packWord a b c :: packZChars (d :: rest)

/-- The z-characters of the text at an address, padding included. -/
def Memory.zcharsAt (m : Memory) (address : Nat) : Except Error (List ZChar) :=
  if address + 2 ≤ m.size then
    let w := Word.ofBytes (m.get address) (m.get (address + 1))
    if isLast w then .ok (unpackWord w)
    else (unpackWord w ++ ·) <$> m.zcharsAt (address + 2)
  else
    .error (.memoryOutOfRange address m.size)
termination_by m.size - address

/-- How many bytes the text at an address takes, its last word included. -/
def Memory.textLength (m : Memory) (address : Nat) : Except Error Nat :=
  if address + 2 ≤ m.size then
    if isLast (Word.ofBytes (m.get address) (m.get (address + 1))) then .ok 2
    else (2 + ·) <$> m.textLength (address + 2)
  else
    .error (.memoryOutOfRange address m.size)
termination_by m.size - address

end ZMachine
