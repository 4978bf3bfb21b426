import ZMachine.Error
import ZMachine.Word

/-!
# Cutting a line into words

Spaces part the words of a line, and each separator is a word of its own. The cut is made between
bytes, so in a line with longer characters a separator that equals one of their bytes may fall
inside a character; such a line has no words to give.
-/

namespace ZMachine

/-- A word of a line, and the place of its first byte there. -/
structure Token where
  text : String
  offset : Nat
  deriving DecidableEq, Repr

namespace Token

/-- A run of bytes of a line. -/
structure Span where
  bytes : List Byte
  offset : Nat
  isSeparator : Bool
  deriving DecidableEq, Repr

def space : Byte := 32

/-- The word that is open when `offset` is reached, its bytes in reverse. -/
def close (offset : Nat) (openWord : List Byte) : List Span :=
  if openWord.isEmpty then []
  else [⟨openWord.reverse, offset - openWord.length, false⟩]

/-- The words of the bytes from `offset` on, after the bytes of a word that is still open. -/
def spansFrom (separators : List Byte) (offset : Nat) (openWord : List Byte) :
    List Byte → List Span
  | [] => close offset openWord
  | b :: rest =>
    if b = space then
      close offset openWord ++ spansFrom separators (offset + 1) [] rest
    else if b ∈ separators then
      close offset openWord ++ ⟨[b], offset, true⟩ :: spansFrom separators (offset + 1) [] rest
    else
      spansFrom separators (offset + 1) (b :: openWord) rest

/-- A separator is read as the character with its code, any other word as UTF-8. -/
def ofSpan (s : Span) : Except Error Token :=
  if s.isSeparator then
    .ok ⟨String.ofList (s.bytes.map fun b => Char.ofNat b.toNat), s.offset⟩
  else
    match String.fromUTF8? ⟨s.bytes.toArray⟩ with
    | some text => .ok ⟨text, s.offset⟩
    | none => .error (.splitCharacter s.offset)

/-- The words of a line. -/
def ofLine (separators : List Byte) (line : String) : Except Error (List Token) :=
  (spansFrom separators 0 [] line.toUTF8.data.toList).mapM ofSpan

end Token
end ZMachine
