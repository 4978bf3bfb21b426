/-!
# Settings files

A settings file is written in a small part of TOML: a line holds a key, an equals sign and a value,
or nothing, and a comment may end it. Keys are bare or quoted. A value is a number of 64 bits or a
string on one line, with escapes or literal. Everything else that TOML knows is refused.
-/

namespace ZMachine.Toml

inductive Value where
  | integer (n : Int)
  | string (text : String)
  deriving DecidableEq, Repr

def isBlank (c : Char) : Bool :=
  c = ' ' || c = '\t'

/-- Control characters other than the tab stand nowhere in a line. -/
def isPlain (c : Char) : Bool :=
  c = '\t' || (c ≥ ' ' && c ≠ '\x7f')

def skipBlanks (cs : List Char) : List Char :=
  cs.dropWhile isBlank

/-- Whether nothing is left but blanks and a comment. -/
def isEnd (cs : List Char) : Bool :=
  match skipBlanks cs with
  | [] => true
  | '#' :: comment => comment.all isPlain
  | _ => false

/-! ## Strings -/

def hexDigit? (c : Char) : Option Nat :=
  if c.isDigit then some (c.toNat - '0'.toNat)
  else if 'a' ≤ c ∧ c ≤ 'f' then some (c.toNat - 'a'.toNat + 10)
  else if 'A' ≤ c ∧ c ≤ 'F' then some (c.toNat - 'A'.toNat + 10)
  else none

/-- The character whose code the hexadecimal digits give. -/
def codePoint? (digits : List Char) : Option Char := do
  let values ← digits.mapM hexDigit?
  let code := values.foldl (16 * · + ·) 0
  if code.isValidChar then some (Char.ofNat code) else none

/-- The character for which a backslash and one letter stand. -/
def escape? (letter : Char) : Option Char :=
  if letter = 'b' then some '\x08'
  else if letter = 't' then some '\t'
  else if letter = 'n' then some '\n'
  else if letter = 'f' then some '\x0c'
  else if letter = 'r' then some '\r'
  else if letter = '"' ∨ letter = '\\' then some letter
  else none

/-- A string in double quotes, after the first of them, and what follows it. -/
def basicString? : List Char → Option (List Char × List Char)
  | '\\' :: 'u' :: a :: b :: c :: d :: rest => do
    let code ← codePoint? [a, b, c, d]
    let (s, tail) ← basicString? rest
    return (code :: s, tail)
  | '\\' :: 'U' :: a :: b :: c :: d :: e :: f :: g :: h :: rest => do
    let code ← codePoint? [a, b, c, d, e, f, g, h]
    let (s, tail) ← basicString? rest
    return (code :: s, tail)
  | '\\' :: letter :: rest => do
    let c ← escape? letter
    let (s, tail) ← basicString? rest
    return (c :: s, tail)
  | c :: rest =>
    if c = '"' then some ([], rest)
    else if isPlain c ∧ c ≠ '\\' then do
      let (s, tail) ← basicString? rest
      return (c :: s, tail)
    else none
  | [] => none

/-- A string in single quotes, after the first of them, and what follows it. -/
def literalString? : List Char → Option (List Char × List Char)
  | [] => none
  | c :: rest =>
    if c = Char.ofNat 0x27 then some ([], rest)
    else if isPlain c then (literalString? rest).map fun (s, tail) => (c :: s, tail)
    else none

def quoted? : List Char → Option (String × List Char)
  | c :: rest =>
    if c = '"' then (basicString? rest).map fun (s, tail) => (String.ofList s, tail)
    else if c = Char.ofNat 0x27 then
      (literalString? rest).map fun (s, tail) => (String.ofList s, tail)
    else none
  | [] => none

/-! ## Numbers -/

/-- The digits of a number in a base. Single underscores may stand between digits. -/
def digits? (base : Nat) : List Char → Option (List Nat)
  | [] => none
  | [c] => do
    let d ← hexDigit? c
    guard (d < base)
    return [d]
  | c :: '_' :: rest => do
    let d ← hexDigit? c
    guard (d < base)
    return d :: (← digits? base rest)
  | c :: rest => do
    let d ← hexDigit? c
    guard (d < base)
    return d :: (← digits? base rest)

def number? (base : Nat) (cs : List Char) : Option Nat :=
  (digits? base cs).map (·.foldl (base * · + ·) 0)

/-- A decimal number has no zeros in front. -/
def decimal? (cs : List Char) : Option Nat :=
  if cs.head? = some '0' ∧ cs.length > 1 then none else number? 10 cs

/-- A decimal number with or without a sign, or one in base 16, 8 or 2 without. -/
def integer? : List Char → Option Int
  | '0' :: 'x' :: cs => (number? 16 cs).map Int.ofNat
  | '0' :: 'o' :: cs => (number? 8 cs).map Int.ofNat
  | '0' :: 'b' :: cs => (number? 2 cs).map Int.ofNat
  | '-' :: cs => (decimal? cs).map fun n => -(n : Int)
  | '+' :: cs => (decimal? cs).map Int.ofNat
  | cs => (decimal? cs).map Int.ofNat

def isNumberPart (c : Char) : Bool :=
  c.isAlphanum || c = '_' || c = '+' || c = '-'

/-! ## Lines -/

def isBareKeyPart (c : Char) : Bool :=
  c.isAlphanum || c = '_' || c = '-'

def key? (cs : List Char) : Option (String × List Char) :=
  match quoted? cs with
  | some r => some r
  | none =>
    let name := cs.takeWhile isBareKeyPart
    if name.isEmpty then none else some (String.ofList name, cs.dropWhile isBareKeyPart)

def value? (cs : List Char) : Option (Value × List Char) :=
  match quoted? cs with
  | some (text, rest) => some (.string text, rest)
  | none => do
    let n ← integer? (cs.takeWhile isNumberPart)
    guard (-0x8000000000000000 ≤ n ∧ n < 0x8000000000000000)
    return (.integer n, cs.dropWhile isNumberPart)

/-- A key and its value. -/
def assignment? (cs : List Char) : Option (String × Value) := do
  let (key, rest) ← key? (skipBlanks cs)
  let '=' :: rest := skipBlanks rest | none
  let (value, rest) ← value? (skipBlanks rest)
  guard (isEnd rest)
  return (key, value)

/-- A line is empty or holds one assignment. -/
def line? (cs : List Char) : Option (List (String × Value)) :=
  if isEnd cs then some [] else (assignment? cs).map fun a => [a]

/-- The lines of a text. One that is ended may have a carriage return before its newline. -/
def lines (text : String) : List (List Char) :=
  let all := (text.splitOn "\n").map String.toList
  let ended (cs : List Char) := if cs.getLast? = some '\r' then cs.dropLast else cs
  all.dropLast.map ended ++ all.getLast?.toList

/-- The assignments of a text in their order, or the number of the first line that is refused. -/
def parse (text : String) : Except Nat (List (String × Value)) := do
  let assignments ← (lines text).zipIdx.mapM fun (cs, index) =>
    match line? cs with
    | some found => .ok found
    | none => .error (index + 1)
  return assignments.flatten

end ZMachine.Toml
