/-!
# The ChaCha generator

A block of sixteen 32-bit words is stirred by rounds of quarter rounds, and added to what it was
before. The blocks of one key, counted from 0, make up a stream of words.
-/

namespace ZMachine.ChaCha

abbrev Block := Vector UInt32 16

def rotateLeft (x n : UInt32) : UInt32 :=
  x <<< n ||| x >>> (32 - n)

def quarterRound (s : Block) (a b c d : Fin 16) : Block :=
  let s := s.set a (s[a] + s[b])
  let s := s.set d (rotateLeft (s[d] ^^^ s[a]) 16)
  let s := s.set c (s[c] + s[d])
  let s := s.set b (rotateLeft (s[b] ^^^ s[c]) 12)
  let s := s.set a (s[a] + s[b])
  let s := s.set d (rotateLeft (s[d] ^^^ s[a]) 8)
  let s := s.set c (s[c] + s[d])
  s.set b (rotateLeft (s[b] ^^^ s[c]) 7)

/-- Stirs the columns, then the diagonals. -/
def doubleRound (s : Block) : Block :=
  let s := quarterRound s 0 4 8 12
  let s := quarterRound s 1 5 9 13
  let s := quarterRound s 2 6 10 14
  let s := quarterRound s 3 7 11 15
  let s := quarterRound s 0 5 10 15
  let s := quarterRound s 1 6 11 12
  let s := quarterRound s 2 7 8 13
  quarterRound s 3 4 9 14

/-- The block to be stirred: four constant words, the key, and the number of the block. -/
def initial (key : Vector UInt32 8) (number : UInt64) : Block :=
  #v[0x61707865, 0x3320646E, 0x79622D32, 0x6B206574,
    key[0], key[1], key[2], key[3], key[4], key[5], key[6], key[7],
    number.toUInt32, (number >>> 32).toUInt32, 0, 0]

/-- One block of the stream, after twice `doubleRounds` rounds. -/
def block (doubleRounds : Nat) (key : Vector UInt32 8) (number : UInt64) : Block :=
  let start := initial key number
  let stirred := Nat.repeat doubleRound doubleRounds start
  stirred.zipWith (· + ·) start

end ZMachine.ChaCha
