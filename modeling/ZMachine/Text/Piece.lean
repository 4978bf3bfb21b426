import ZMachine.Text.Alphabet

/-!
# Reading z-characters

A run of z-characters stands for pieces of text: characters, and references to abbreviations. What a
z-character means depends only on what the ones before it have left open.
-/

namespace ZMachine

inductive Piece where
  | char (c : Char)
  | abbreviation (table index : Nat)
  deriving DecidableEq, Repr

/-- What the next z-character is: one in an alphabet, the index of an abbreviation, or half of the
ten-bit code of a character. -/
inductive Awaited where
  | letter (alphabet : Alphabet)
  | abbreviation (table : Nat)
  | highCode
  | lowCode (high : ZChar)
  deriving DecidableEq, Repr

namespace Awaited

/-- A text opens in the lower-case alphabet, and comes back to it after each piece. -/
def start : Awaited := letter .lower

/-- Reads one z-character. A shift holds for the next one only. -/
def next : Awaited → ZChar → Awaited × Option Piece
  | abbreviation table, z => (start, some (.abbreviation table z.toNat))
  | highCode, z => (lowCode z, none)
  | lowCode high, z => (start, some (.char (Char.ofNat (32 * high.toNat + z.toNat))))
  | letter a, z =>
    if z = 0 then (start, some (.char ' '))
    else if z ≤ 3 then (abbreviation (z.toNat - 1), none)
    else if z = 4 then (letter .upper, none)
    else if z = 5 then (letter .punctuation, none)
    else if a = .punctuation ∧ z = 6 then (highCode, none)
    else if a = .punctuation ∧ z = 7 then (start, some (.char '\n'))
    else (start, some (.char (a.letter z)))

/-- The pieces of a run of z-characters. What is left open at its end is dropped. -/
def pieces : Awaited → List ZChar → List Piece
  | _, [] => []
  | state, z :: zs =>
    let (after, piece) := state.next z
    piece.toList ++ pieces after zs

end Awaited

namespace Piece

def ofZChars (zs : List ZChar) : List Piece :=
  Awaited.start.pieces zs

/-- The text of pieces, given the text of each abbreviation. -/
def expand {ε : Type} (abbreviation : Nat → Nat → Except ε (List Char)) :
    List Piece → Except ε (List Char)
  | [] => .ok []
  | .char c :: rest => (c :: ·) <$> expand abbreviation rest
  | .abbreviation table index :: rest => do
    let text ← abbreviation table index
    let tail ← expand abbreviation rest
    return text ++ tail

end Piece
end ZMachine
