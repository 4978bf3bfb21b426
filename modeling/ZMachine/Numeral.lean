/-!
# Numerals in messages and listings

Addresses are written in lower-case hexadecimal, padded with zeros to a least width. Counts and
object numbers are written in decimal, and in tables they are pushed to the right with blanks.
-/

namespace ZMachine.Numeral

/-- Fills `text` on the left with `fill` until it has at least `width` characters. -/
def padLeft (width : Nat) (fill : Char) (text : String) : String :=
  "".pushn fill (width - text.length) ++ text

/-- Lower-case hexadecimal with at least `width` digits. -/
def hex (width n : Nat) : String :=
  padLeft width '0' (String.ofList (Nat.toDigits 16 n))

/-- Hexadecimal after `0x`, with at least `width` digits. -/
def hex0x (width n : Nat) : String :=
  "0x" ++ hex width n

/-- Decimal, pushed to the right in a column of `width` characters. -/
def column (width n : Nat) : String :=
  padLeft width ' ' (toString n)

end ZMachine.Numeral
