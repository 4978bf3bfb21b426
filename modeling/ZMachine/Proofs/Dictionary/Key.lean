import ZMachine.Dictionary
import ZMachine.Proofs.Text.Codec

/-!
# The keys of words

The key of a word is a text of two words. It may end in the midst of a character, but what is left
of this is no reference, so that the key can be read. A word is clipped by characters before its
z-characters are cut, but as every character has a z-character, the cut alone decides.

## Main definitions

* `DictionaryKey.cut` — the z-characters that a key keeps.

## Main statements

* `DictionaryKey.isText_cut` — keys are texts without references.
* `DictionaryKey.clipped_eq_ok` — a long enough entry loses nothing by clipping.
* `DictionaryKey.ofZChars_eq_iff` — words share a key if their first z-characters are the same.
* `DictionaryKey.eq_of_ofZChars_eq` — words that fit in an entry do not share keys.
-/

namespace ZMachine

/-- The pieces of z-characters are the first pieces of longer ones. -/
theorem Awaited.pieces_prefix (state : Awaited) (zs rest : List ZChar) :
    state.pieces zs <+: state.pieces (zs ++ rest) := by
  induction zs generalizing state with
  | nil => exact List.nil_prefix
  | cons z zs ih => exact (List.prefix_append_right_inj _).mpr (ih _)

/-- The first characters of a text have the first z-characters, at least one each. -/
theorem ZString.toZChars_take {text : List Char} {zs : List ZChar} (h : toZChars text = .ok zs)
    (count : Nat) : ∃ front, toZChars (text.take count) = .ok front ∧ front <+: zs ∧
      (front = zs ∨ count ≤ front.length) := by
  induction text generalizing zs count with
  | nil => exact ⟨zs, by simpa using h, List.prefix_refl zs, .inl rfl⟩
  | cons c text ih =>
    cases count with
    | zero => exact ⟨[], rfl, List.nil_prefix, .inr (Nat.zero_le _)⟩
    | succ count =>
      rw [toZChars] at h
      split at h
      · next own found =>
        obtain ⟨rest, tail, rfl⟩ := Except.map_eq_ok.mp h
        obtain ⟨front, taken, isFront, whole⟩ := ih tail count
        refine ⟨own ++ front, ?_, (List.prefix_append_right_inj own).mpr isFront, ?_⟩
        · rw [List.take_succ_cons, toZChars, found, taken]
          rfl
        · have := List.length_pos_iff.mpr (spelling_of_zcharsOf? found).ne_nil
          obtain rfl | long := whole
          · exact .inl rfl
          · exact .inr (by rw [List.length_append]; omega)
      · cases h

namespace DictionaryKey

def cut (zs : List ZChar) : List ZChar :=
  (zs ++ List.replicate zcharCount padZChar).take zcharCount

variable {zs zs' : List ZChar} {word : String} {text : List Char}

theorem length_cut (zs : List ZChar) : (cut zs).length = zcharCount := by
  simp [cut]

theorem lt_of_mem_cut (small : ∀ z ∈ zs, z < 32) : ∀ z ∈ cut zs, z < 32 := by
  intro z mem
  rcases List.mem_append.mp (List.mem_of_mem_take mem) with mem | mem
  · exact small z mem
  · obtain rfl := List.eq_of_mem_replicate mem
    decide

/-- The key depends on no more z-characters than it holds. -/
theorem cut_of_prefix {front : List ZChar} (isFront : front <+: zs)
    (whole : front = zs ∨ zcharCount ≤ front.length) : cut front = cut zs := by
  obtain rfl | long := whole
  · rfl
  · obtain ⟨rest, rfl⟩ := isFront
    rw [cut, cut, List.append_assoc, List.take_append_of_le_length long,
      List.take_append_of_le_length long]

/-- The z-characters of a key are packed into its two words. -/
theorem packZChars_cut (zs : List ZChar) :
    packZChars (cut zs) = [(ofZChars zs >>> 16).toUInt16, (ofZChars zs).toUInt16] := by
  have packed : ∃ high low, packZChars (cut zs) = [high, low] := by
    have length := length_cut zs
    revert length
    rcases cut zs with _ | ⟨a, _ | ⟨b, _ | ⟨c, _ | ⟨d, _ | ⟨e, _ | ⟨f, _ | ⟨g, rest⟩⟩⟩⟩⟩⟩⟩ <;>
      simp [zcharCount, packZChars]
  obtain ⟨high, low, packed⟩ := packed
  have key : ofZChars zs = Word.join high low := by
    rw [cut] at packed
    rw [ofZChars, packed]
  rw [key, packed, Word.highWord_join, Word.lowWord_join]

theorem longBytes_ofZChars (zs : List ZChar) :
    Word.longBytes (ofZChars zs) = Word.toBytes (packZChars (cut zs)) := by
  rw [packZChars_cut, Word.longBytes]

/-- The words of a key are read back as its z-characters. -/
theorem unpack_cut (small : ∀ z ∈ zs, z < 32) :
    IsText (packZChars (cut zs)) ∧ (packZChars (cut zs)).flatMap unpackWord = cut zs := by
  obtain ⟨isText, unpacked⟩ := packZChars_spec (lt_of_mem_cut small)
  have none : padding (cut zs).length = [] := by
    rw [length_cut]
    rfl
  rw [none, List.append_nil] at unpacked
  exact ⟨isText, unpacked⟩

/-- The key of a word is a text of its first characters. -/
theorem isText_cut (h : ZString.toZChars text = .ok zs) :
    IsText (packZChars (cut zs)) ∧ ∃ front, front <+: text ∧
      Piece.ofZChars ((packZChars (cut zs)).flatMap unpackWord) = front.map .char := by
  obtain ⟨isText, unpacked⟩ := unpack_cut (ZString.lt_of_toZChars h)
  have whole := Awaited.start.pieces_prefix (cut zs)
    ((zs ++ List.replicate zcharCount padZChar).drop zcharCount)
  rw [cut, List.take_append_drop, ← cut, ZString.pieces_of_toZChars h, Awaited.start,
    ZString.pieces_padding, List.append_nil] at whole
  obtain ⟨front, isFront, pieces⟩ := List.prefix_map_iff.mp whole
  refine ⟨isText, front, isFront, ?_⟩
  rw [unpacked]
  exact pieces

theorem ofZChars_congr (same : cut zs = cut zs') : ofZChars zs = ofZChars zs' := by
  rw [cut, cut] at same
  rw [ofZChars, ofZChars, same]

/-- Keys are the same if and only if all z-characters in them are. -/
theorem ofZChars_eq_iff (small : ∀ z ∈ zs, z < 32) (small' : ∀ z ∈ zs', z < 32) :
    ofZChars zs = ofZChars zs' ↔ cut zs = cut zs' := by
  constructor
  · intro same
    rw [← (unpack_cut small).2, ← (unpack_cut small').2, packZChars_cut, packZChars_cut, same]
  · exact ofZChars_congr

/-- An entry of the usual length or a longer one keeps all characters that count. -/
theorem clipped_eq_ok (h : ZString.toZChars word.toList = .ok zs) {entryLength : Nat}
    (long : zcharCount < entryLength) : clipped word entryLength = .ok (ofZChars zs) := by
  obtain ⟨front, taken, isFront, whole⟩ := ZString.toZChars_take h (entryLength - 1)
  have same := cut_of_prefix isFront (whole.imp_right fun le => by omega)
  rw [clipped, taken, ← ofZChars_congr same]
  rfl

/-- A word has a key of its own iff its z-characters fit into one. -/
theorem whole?_eq_some_iff {key : UInt32} : whole? word = some key ↔
    ∃ zs, ZString.toZChars word.toList = .ok zs ∧ zs.length ≤ zcharCount ∧ ofZChars zs = key := by
  rw [whole?]
  cases ZString.toZChars word.toList <;> simp

/-! ## Words that fit in an entry -/

/-- A word that fits is read back from its key. -/
theorem pieces_cut (h : ZString.toZChars text = .ok zs) (fits : zs.length ≤ zcharCount) :
    Piece.ofZChars (cut zs) = text.map .char := by
  rw [cut, List.take_append, List.take_of_length_le fits, List.take_replicate, Piece.ofZChars,
    ZString.pieces_of_toZChars h, Awaited.start, ZString.pieces_padding, List.append_nil]

/-- Different words that fit into a key have different keys. -/
theorem eq_of_ofZChars_eq {text' : List Char} (h : ZString.toZChars text = .ok zs)
    (h' : ZString.toZChars text' = .ok zs') (fits : zs.length ≤ zcharCount)
    (fits' : zs'.length ≤ zcharCount) (same : ofZChars zs = ofZChars zs') : text = text' := by
  have cuts := (ofZChars_eq_iff (ZString.lt_of_toZChars h) (ZString.lt_of_toZChars h')).mp same
  have chars : text.map Piece.char = text'.map .char := by
    rw [← pieces_cut h fits, ← pieces_cut h' fits', cuts]
  exact List.map_injective_iff.mpr (fun _ _ => Piece.char.inj) chars

/-- A word that fits still does when it is clipped, so that nothing more is cut off. -/
theorem clipped_of_fits (h : ZString.toZChars word.toList = .ok zs) (fits : zs.length ≤ zcharCount)
    (entryLength : Nat) :
    ∃ front, ZString.toZChars (word.toList.take (entryLength - 1)) = .ok front ∧
      front.length ≤ zcharCount ∧ clipped word entryLength = .ok (ofZChars front) := by
  obtain ⟨front, taken, isFront, -⟩ := ZString.toZChars_take h (entryLength - 1)
  refine ⟨front, taken, Nat.le_trans isFront.length_le fits, ?_⟩
  rw [clipped, taken]
  rfl

end DictionaryKey
end ZMachine
