import ZMachine.Machine.Typing
import ZMachine.Proofs.Action
import ZMachine.Proofs.Dictionary.Runs
import ZMachine.Proofs.Text.Bytes

/-!
# Words of a line

A line of ASCII has one byte for each character, so that it can be cut anywhere, whatever the bytes
are that a story declares as separators. What is left of a typed line is printable ASCII.

## Main definitions

* `Token.LiesIn` — a word stands in a line at its place.
* `Token.Before` — one word ends before the other begins.

## Main statements

* `Token.ofLine_ascii` — a line of ASCII is cut into parts of it.
* `Token.pairwise_ofLine` — the parts are in the order of the line, and do not overlap.
* `TypedLine.printable_normalise` — what is left of a typed line.
-/

namespace ZMachine

namespace Token

variable {separators : List Byte} {text : List Char}

/-! ## Lines of ASCII -/

def code (c : Char) : Byte :=
  UInt8.ofNat c.toNat

theorem ofNat_code {c : Char} (ascii : c.toNat < 128) : Char.ofNat (code c).toNat = c := by
  rw [code, UInt8.toNat_ofNat', Nat.mod_eq_of_lt (by omega), Char.ofNat_toNat]

def LiesIn (line : List Char) (word : Token) : Prop :=
  ∃ before own after, line = before ++ own ++ after ∧ before.length = word.offset ∧
    word.text = String.ofList own

theorem LiesIn.bounds {word : Token} (lies : word.LiesIn text) :
    word.offset + word.text.length ≤ text.length := by
  obtain ⟨before, own, after, rfl, place, same⟩ := lies
  rw [same, String.length_ofList]
  simp only [List.length_append]
  omega

/-- A word in a line of ASCII has as many bytes as characters. -/
theorem LiesIn.utf8ByteSize_eq {word : Token} (lies : word.LiesIn text)
    (ascii : ∀ c ∈ text, c.toNat < 128) :
    word.text.utf8ByteSize = word.text.length := by
  obtain ⟨before, own, after, rfl, -, same⟩ := lies
  have small : ∀ c ∈ own, c.toNat < 128 := fun c mem => ascii c (by simp [mem])
  have size := congrArg List.length (toList_toUTF8_ascii small)
  rw [List.length_map, ← same] at size
  rw [same, String.length_ofList, ← size, ← same]
  rfl

def Span.word (s : Span) : Token :=
  ⟨String.ofList (s.bytes.map fun b => Char.ofNat b.toNat), s.offset⟩

/-- A run of bytes in a line of ASCII is a run of its characters. -/
theorem Span.LiesIn.exists_chars (ascii : ∀ c ∈ text, c.toNat < 128) {s : Span}
    (lies : s.LiesIn (text.map code)) : ∃ before own after, text = before ++ own ++ after ∧
      before.length = s.offset ∧ own.map code = s.bytes ∧ s.word.text = String.ofList own := by
  obtain ⟨bytesBefore, bytesAfter, parts, place⟩ := lies
  obtain ⟨front, after, rfl, frontBytes, rfl⟩ := List.map_eq_append_iff.mp parts
  obtain ⟨before, own, rfl, rfl, bytes⟩ := List.map_eq_append_iff.mp frontBytes
  refine ⟨before, own, after, rfl, by simpa using place, bytes, ?_⟩
  have back : (own.map code).map (fun b => Char.ofNat b.toNat) = own := by
    rw [List.map_map]
    exact (List.map_congr_left fun c mem => ofNat_code (ascii c (by simp [mem]))).trans
      (List.map_id own)
  rw [word, ← bytes, back]

/-- In a line of ASCII, every run of bytes is a word. -/
theorem ofSpan_ascii (ascii : ∀ c ∈ text, c.toNat < 128) {s : Span}
    (lies : s.LiesIn (text.map code)) : ofSpan s = .ok s.word ∧ s.word.LiesIn text := by
  obtain ⟨before, own, after, rfl, place, bytes, chars⟩ := lies.exists_chars ascii
  refine ⟨?_, before, own, after, rfl, place, chars⟩
  unfold ofSpan
  split
  · rfl
  · have encoded : (⟨s.bytes.toArray⟩ : ByteArray) = (String.ofList own).toUTF8 := by
      rw [← bytes]
      change ByteArray.mk (own.map fun c => UInt8.ofNat c.toNat).toArray = _
      rw [← toList_toUTF8_ascii fun c mem => ascii c (by simp [mem])]
    rw [encoded, fromUTF8?_toUTF8]
    exact congrArg (fun text => Except.ok (Token.mk text s.offset)) chars.symm

/-- The words of a line of ASCII are those of its runs. -/
theorem ofLine_eq_map (separators : List Byte) (ascii : ∀ c ∈ text, c.toNat < 128) :
    ofLine separators (String.ofList text) =
      .ok ((spansFrom separators 0 [] (text.map code)).map Span.word) := by
  rw [ofLine, toList_toUTF8_ascii ascii]
  exact Except.mapM_eq_ok_map fun s mem => (ofSpan_ascii ascii ((standsAt_of_mem mem).liesIn)).1

/-- A line of ASCII is cut into words that stand in it, whatever the separators are. -/
theorem ofLine_ascii (separators : List Byte) (ascii : ∀ c ∈ text, c.toNat < 128) :
    ∃ words, ofLine separators (String.ofList text) = .ok words ∧
      ∀ word ∈ words, word.LiesIn text := by
  refine ⟨_, ofLine_eq_map separators ascii, fun word mem => ?_⟩
  obtain ⟨s, own, rfl⟩ := List.mem_map.mp mem
  exact (ofSpan_ascii ascii ((standsAt_of_mem own).liesIn)).2

/-! ## The order of words -/

def Before (word other : Token) : Prop :=
  word.offset + word.text.length ≤ other.offset

/-- The words of a line of ASCII follow its order. -/
theorem pairwise_ofLine (ascii : ∀ c ∈ text, c.toNat < 128) {words : List Token}
    (cut : ofLine separators (String.ofList text) = .ok words) : words.Pairwise Before := by
  rw [ofLine_eq_map separators ascii] at cut
  cases cut
  refine List.pairwise_map.mpr ((pairwise_spansFrom (Nat.le_refl 0)).imp fun before => ?_)
  rw [Before, Span.word, String.length_ofList, List.length_map]
  exact before

/-- Other lines cannot be cut everywhere. -/
theorem ofLine_split : ofLine [0xA9] "é" = .error (.splitCharacter 0) := by
  decide +kernel

end Token

namespace TypedLine

theorem printable_toLower {c : Char} (low : ' ' ≤ c) (high : c ≤ '~') :
    ' ' ≤ c.toLower ∧ c.toLower ≤ '~' := by
  have all : ∀ n < 127, ' ' ≤ Char.ofNat n →
      ' ' ≤ (Char.ofNat n).toLower ∧ (Char.ofNat n).toLower ≤ '~' := by decide +kernel
  have own := all c.toNat (Nat.lt_succ_of_le high)
  rw [Char.ofNat_toNat] at own
  exact own low

theorem printable_normalise? {c d : Char} (h : normalise? c = some d) : ' ' ≤ d ∧ d ≤ '~' := by
  unfold normalise? at h
  split at h
  · cases h
    decide
  · split at h
    · cases h
      decide
    · split at h
      · cases h
        decide
      · split at h
        · next printable =>
          cases h
          exact printable_toLower printable.1 printable.2
        · cases h

/-- All that is left of a typed line is printable. -/
theorem printable_normalise {line : String} :
    ∀ c ∈ normalise line, ' ' ≤ c ∧ c ≤ '~' := by
  intro c mem
  obtain ⟨typed, -, left⟩ := List.mem_filterMap.mp mem
  exact printable_normalise? left

/-- A typed line that was cleaned up has only ASCII. -/
theorem ascii_normalise {line : String} : ∀ c ∈ normalise line, c.toNat < 128 := by
  intro c mem
  have high : c.toNat ≤ 126 := (printable_normalise c mem).2
  omega

end TypedLine
end ZMachine
