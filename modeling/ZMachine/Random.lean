import ZMachine.Random.ChaCha
import ZMachine.Word

/-!
# The source of random numbers

Numbers are drawn from a ChaCha stream of twelve rounds, whose key is spread out from a seed of 64
bits. The same seed gives the same numbers. A program may sow a seed of its own, or leave the choice
to the clock.
-/

namespace ZMachine

/-- A stream and the words of its last block that have not been drawn. -/
structure Generator where
  key : Vector UInt32 8
  nextBlock : UInt64
  buffer : List UInt32
  deriving DecidableEq

namespace Generator

/-- One step of the congruential sequence that spreads a seed out. -/
def spread (state : UInt64) : UInt64 :=
  state * 6364136223846793005 + 11634580027462260723

/-- The word of a key that a step of the sequence gives: high bits, rotated by the topmost ones. -/
def keyWord (state : UInt64) : UInt32 :=
  let x := (((state >>> 18) ^^^ state) >>> 27).toUInt32
  let turn := (state >>> 59).toUInt32
  x >>> turn ||| x <<< ((32 - turn) % 32)

def keyWords : Nat → UInt64 → List UInt32
  | 0, _ => []
  | n + 1, state => keyWord (spread state) :: keyWords n (spread state)

def ofSeed (seed : UInt64) : Generator :=
  ⟨Vector.ofFn fun i : Fin 8 => (keyWords 8 seed).getD i 0, 0, []⟩

def draw (g : Generator) : UInt32 × Generator :=
  match g.buffer with
  | w :: rest => (w, { g with buffer := rest })
  | [] =>
    let words := ChaCha.block 6 g.key g.nextBlock
    (words[0], { g with nextBlock := g.nextBlock + 1, buffer := words.toList.tail })

/-- A number from 1 to `n`, the high half of the product of `n` and a drawn word. A word whose low
half lies past the last whole multiple is drawn again, so that all numbers are equally likely; the
last of `tries` words is taken as it is. -/
def drawUpTo (n : UInt32) : (tries : Nat) → Generator → UInt32 × Generator
  | tries, g =>
    let (v, after) := g.draw
    let product := v.toUInt64 * n.toUInt64
    let zone := 0xFFFFFFFF - (0 - n) % n
    match tries with
    | 0 => ((product >>> 32).toUInt32 + 1, after)
    | tries + 1 =>
      if product.toUInt32 ≤ zone then ((product >>> 32).toUInt32 + 1, after)
      else drawUpTo n tries after

end Generator

inductive RandomMode where
  | predictable
  | uniform
  deriving DecidableEq, Repr

/-- `clock` holds what the clock will say the next times it is read; after that it says 0. -/
structure Random where
  generator : Generator
  mode : RandomMode
  clock : List UInt64
  deriving DecidableEq

namespace Random

/-- A source that repeats itself for the same seed. -/
def predictable (seed : UInt64) : Random :=
  ⟨Generator.ofSeed seed, .predictable, []⟩

/-- A source started from a seed nobody chose. -/
def uniform (seed : UInt64) : Random :=
  ⟨Generator.ofSeed seed, .uniform, []⟩

def reseed (r : Random) (seed : UInt64) : Random :=
  { r with generator := Generator.ofSeed seed, mode := .predictable }

def reseedFromClock (r : Random) : Random :=
  ⟨Generator.ofSeed (r.clock.headD 0), .uniform, r.clock.tail⟩

/-- How many words may be drawn for one number. -/
def maxTries : Nat := 64

/-- A number from 1 to `n`, and 1 if `n` is 0. -/
def upTo (r : Random) (n : Word) : Word × Random :=
  let (value, generator) := r.generator.drawUpTo (max n 1).toUInt32 maxTries
  (value.toUInt16, { r with generator })

end Random
end ZMachine
