/-!
# Bytes and words

A story is made of bytes. Two of them, the high one first, make a word, which a program takes as a
number below 65536 or as a signed number in two's complement.
-/

namespace ZMachine

abbrev Byte := UInt8
abbrev Word := UInt16

namespace Word

def ofBytes (high low : Byte) : Word :=
  high.toUInt16 <<< 8 ||| low.toUInt16

def highByte (w : Word) : Byte :=
  (w >>> 8).toUInt8

def lowByte (w : Word) : Byte :=
  w.toUInt8

/-- The bytes of words, each with its high byte first. -/
def toBytes (ws : List Word) : List Byte :=
  ws.flatMap fun w => [highByte w, lowByte w]

/-- The word in two's complement. -/
def signed (w : Word) : Int :=
  w.toInt16.toInt

/-- Two words as one 32-bit number, the high word first. -/
def join (high low : Word) : UInt32 :=
  high.toUInt32 <<< 16 ||| low.toUInt32

end Word
end ZMachine
