import ZMachine.Dictionary.Search
import ZMachine.Dictionary.Token
import ZMachine.Memory.Scan
import ZMachine.Text.ZString

/-!
# The dictionary

A story lists the words it knows in the order of their keys, which are the first six z-characters
packed into 32 bits. The list is read once, when the story is loaded.
-/

namespace ZMachine

namespace DictionaryKey

/-- How many z-characters of a word its entry keeps. -/
def zcharCount : Nat := 6

/-- The key of z-characters, cut or padded to the length of an entry. -/
def ofZChars (zs : List ZChar) : UInt32 :=
  match packZChars ((zs ++ List.replicate zcharCount padZChar).take zcharCount) with
  | [high, low] => Word.join high low
  | _ => 0

/-- The key of a word that fits in an entry whole. -/
def whole? (word : String) : Option UInt32 :=
  match ZString.toZChars word.toList with
  | .ok zs => if zs.length ≤ zcharCount then some (ofZChars zs) else none
  | .error _ => none

/-- The key of a word as an entry of `entryLength` bytes keeps it: first as many characters as an
entry of that length might name, then the first z-characters of those. -/
def clipped (word : String) (entryLength : Nat) : Except Error UInt32 :=
  ofZChars <$> ZString.toZChars (word.toList.take (entryLength - 1))

end DictionaryKey

structure Dictionary where
  address : Nat
  separators : List Byte
  entryLength : Nat
  entriesAddress : Nat
  words : Array String
  keys : Array UInt32
  deriving DecidableEq

namespace Dictionary

/-- Separators, length of an entry, and number of entries. -/
def readHeading : Scan (List Byte × Nat × Nat) := do
  let separators ← Scan.times Scan.byte (← Scan.byte).toNat
  let entryLength ← Scan.byte
  let count ← Scan.word
  return (separators, entryLength.toNat, count.toNat)

def readEntry (m : Memory) (abbreviations : AbbreviationTable) (address : Nat) :
    Except Error (UInt32 × String) := do
  let key ← m.longAt address
  let word ← ZString.read m abbreviations address
  return (key, word)

def load (m : Memory) (address : Nat) (abbreviations : AbbreviationTable) :
    Except Error Dictionary := do
  let ((separators, entryLength, count), entriesAddress) ← readHeading.runFrom m address
  let entries ← (List.range count).mapM fun i =>
    readEntry m abbreviations (entriesAddress + i * entryLength)
  return {
    address, separators, entryLength, entriesAddress
    words := (entries.map (·.2)).toArray
    keys := (entries.map (·.1)).toArray }

def size (d : Dictionary) : Nat :=
  d.words.size

def entryAddress (d : Dictionary) (index : Nat) : Nat :=
  d.entriesAddress + index * d.entryLength

def find? (d : Dictionary) (key : UInt32) : Option Nat :=
  (Search.find? d.keys key).map d.entryAddress

/-- The entry spelled exactly so. -/
def search (d : Dictionary) (word : String) : Option Nat :=
  (DictionaryKey.whole? word).bind d.find?

/-- The entry for a typed word, of which only what an entry can hold counts. -/
def lookup (d : Dictionary) (typed : String) : Option Nat :=
  match DictionaryKey.clipped typed d.entryLength with
  | .ok key => d.find? key
  | .error _ => none

def tokenise (d : Dictionary) (line : String) : Except Error (List Token) :=
  Token.ofLine d.separators line

open Numeral in
def listing (d : Dictionary) : String :=
  let separators := String.ofList (d.separators.map fun b => Char.ofNat b.toNat)
  let line (entry : String × Nat) : String := s!"  [{column 4 (entry.2 + 1)}] {entry.1}\n"
  "\n    **** Dictionary ****\n\n" ++
  s!"  Word separators = \"{separators}\"\n" ++
  s!"  Word count = {d.size}, word size = {d.entryLength}\n\n" ++
  String.join (d.words.toList.zipIdx.map line)

end Dictionary
end ZMachine
