import Mathlib.Data.List.Forall2
import ZMachine.Blueprint
import ZMachine.Proofs.Dictionary.Key
import ZMachine.Proofs.Scan

/-!
# The dictionary of an image

The keys of the words are written in ascending order and each of them once, however the words are
given. As keys are texts without references, every entry can be read.

## Main statements

* `Blueprint.dictionaryPatch_eq_ok` — the bytes of a dictionary, and the keys in it.
* `Blueprint.load_dictionary` — a dictionary that is written can be read.
-/

namespace ZMachine

namespace Blueprint

variable {m : Memory} {address : Nat} {keys : List UInt32} {key : UInt32}

/-! ## Keys without repeats -/

theorem eraseReps_cons_cons (first next : UInt32) (rest : List UInt32) :
    (first :: next :: rest).eraseReps =
      if first = next then (next :: rest).eraseReps else first :: (next :: rest).eraseReps := by
  -- What has been kept comes first, whatever is still to be looked at.
  have kept (rest : List UInt32) : ∀ (last : UInt32) (before : List UInt32),
      List.eraseRepsBy.loop (· == ·) last rest before =
        before.reverse ++ List.eraseRepsBy.loop (· == ·) last rest [] := by
    induction rest with
    | nil => simp [List.eraseRepsBy.loop]
    | cons next rest ih =>
      intro last before
      rw [List.eraseRepsBy.loop, List.eraseRepsBy.loop]
      split
      · exact ih last before
      · rw [ih next (last :: before), ih next [last]]
        simp
  by_cases same : first = next
  · rw [if_pos same, same]
    simp [List.eraseReps, List.eraseRepsBy, List.eraseRepsBy.loop]
  · have differ : (first == next) = false := by simpa using same
    rw [if_neg same]
    simp [List.eraseReps, List.eraseRepsBy, List.eraseRepsBy.loop, differ, kept rest next [first]]

/-- Leaving out repetitions drops no key. -/
theorem mem_eraseReps : key ∈ keys.eraseReps ↔ key ∈ keys := by
  induction keys with
  | nil => rfl
  | cons first rest ih =>
    cases rest with
    | nil => rfl
    | cons next rest =>
      rw [eraseReps_cons_cons]
      split <;> simp_all

/-- Of keys in order, each one is left once. -/
theorem pairwise_eraseReps (sorted : keys.Pairwise (· ≤ ·)) : keys.eraseReps.Pairwise (· < ·) := by
  induction keys with
  | nil => exact .nil
  | cons first rest ih =>
    cases rest with
    | nil => exact List.pairwise_singleton _ _
    | cons next rest =>
      obtain ⟨least, sorted⟩ := List.pairwise_cons.mp sorted
      rw [eraseReps_cons_cons]
      split
      · exact ih sorted
      · next ne =>
        refine List.pairwise_cons.mpr ⟨fun key mem => ?_, ih sorted⟩
        have below : first < next := UInt32.lt_of_le_of_ne (least next List.mem_cons_self) ne
        have above : next ≤ key := by
          obtain rfl | mem := List.mem_cons.mp (mem_eraseReps.mp mem)
          · exact UInt32.le_refl _
          · exact List.rel_of_pairwise_cons sorted mem
        exact UInt32.lt_of_lt_of_le below above

/-! ## Entries -/

/-- An entry of a dictionary can be read. -/
theorem readEntry_of_keyOf {word : String} (keyOf : Blueprint.keyOf word = .ok key)
    (holds : m.Holds address (entryOfKey key)) (abbreviations : AbbreviationTable) :
    ∃ text, Dictionary.readEntry m abbreviations address = .ok (key, text) := by
  unfold Blueprint.keyOf at keyOf
  split at keyOf
  case h_2 => cases keyOf
  next key' clipped =>
  cases keyOf
  obtain ⟨zs, written, rfl⟩ := Except.map_eq_ok.mp clipped
  obtain ⟨long, -⟩ := Memory.holds_append.mp holds
  obtain ⟨isText, front, -, pieces⟩ := DictionaryKey.isText_cut written
  have text : m.Holds address (Word.toBytes (packZChars (DictionaryKey.cut zs))) := by
    rw [← DictionaryKey.longBytes_ofZChars]
    exact long
  refine ⟨String.ofList front, Except.bind_eq_ok.mpr ⟨_, Memory.longAt_eq_ok.mpr long,
    Except.bind_eq_ok.mpr ⟨_, ?_, rfl⟩⟩⟩
  rw [ZString.read, ZString.maxDepth, ZString.readWithin_of_holds isText pieces text]
  rfl

@[simp] theorem length_entryOfKey (key : UInt32) : (entryOfKey key).length = entryLength := rfl

/-- The entries of keys lie one after another. -/
theorem holds_entry {index : Nat} (holds : m.Holds address (keys.flatMap entryOfKey))
    (found : keys[index]? = some key) : m.Holds (address + index * entryLength) (entryOfKey key) :=
  holds.of_flatMap length_entryOfKey found

/-- A dictionary has the keys of the words in ascending order, and no others. -/
theorem dictionaryPatch_eq_ok {separators : List Byte} {words : List String} {p : Patch}
    (h : dictionaryPatch separators words = .ok p) :
    ∃ keys : List UInt32, keys.Pairwise (· < ·) ∧
      (∀ key, key ∈ keys ↔ ∃ word ∈ words, keyOf word = .ok key) ∧
      dictionaryAddress ≤ p.address ∧ p.stop ≤ abbreviationStringsAddress ∧
      p = ⟨dictionaryAddress, UInt8.ofNat separators.length :: separators ++
        UInt8.ofNat entryLength :: Word.toBytes [UInt16.ofNat keys.length] ++
        keys.flatMap entryOfKey⟩ := by
  obtain ⟨all, keysOf, h⟩ := Except.bind_eq_ok.mp h
  dsimp only at h
  split at h
  · cases h
  · next fits =>
    cases h
    have sorted : (all.mergeSort fun a b => a ≤ b).Pairwise (· ≤ ·) :=
      (List.pairwise_mergeSort (fun _ _ _ => by simpa using UInt32.le_trans)
        (fun a b => by simpa using UInt32.le_total a b) all).imp of_decide_eq_true
    refine ⟨_, pairwise_eraseReps sorted, fun key => ?_, Nat.le_refl _, Nat.le_of_not_lt fits, rfl⟩
    rw [mem_eraseReps, (List.mergeSort_perm all fun a b => a ≤ b).mem_iff]
    exact Except.mem_of_mapM_eq_ok keysOf

/-- The heading of a dictionary is read back: its separators, the length of an entry, the number of
entries. -/
theorem readHeading_of_holds {separators : List Byte} {length : Byte} {count : Word}
    (few : separators.length < 256) (holds : m.Holds address
      (UInt8.ofNat separators.length :: separators ++ length :: Word.toBytes [count])) :
    Dictionary.readHeading.runFrom m address =
      .ok ((separators, length.toNat, count.toNat), address + separators.length + 4) := by
  have given : (UInt8.ofNat separators.length).toNat = separators.length := by
    rw [UInt8.toNat_ofNat']
    omega
  have reads := Scan.Reads.byte.bind fun number => (Scan.Reads.byte.times number.toNat).bind
    fun separators => Scan.Reads.byte.bind fun length => Scan.Reads.word.bind fun count =>
      Scan.Reads.pure (separators, length.toNat, count.toNat)
  refine Scan.runFrom_eq_ok.mpr ((reads m address _ _).mpr ⟨_, ⟨_, _, _, rfl,
    ⟨separators, separators, _, ⟨given.symm, by simp⟩, ⟨length, _, _, rfl,
      ⟨count, _, _, rfl, ⟨rfl, rfl⟩, rfl⟩, rfl⟩, rfl⟩, rfl⟩, holds, ?_⟩)
  simp
  omega

/-- A dictionary is loaded with the keys that were written. -/
theorem load_dictionary {separators : List Byte} {words : List String} {p : Patch}
    (h : dictionaryPatch separators words = .ok p) (holds : m.Holds p.address p.bytes)
    (abbreviations : AbbreviationTable) :
    ∃ d, Dictionary.load m dictionaryAddress abbreviations = .ok d ∧
      d.entryLength = entryLength ∧ d.keys.toList.Pairwise (· < ·) ∧
      ∀ key, key ∈ d.keys.toList ↔ ∃ word ∈ words, keyOf word = .ok key := by
  obtain ⟨keys, ascending, mem_keys, -, fits, rfl⟩ := dictionaryPatch_eq_ok h
  have size : 1 + separators.length + 3 + keys.length * entryLength ≤ 256 := by
    simp [Patch.stop, List.length_flatMap, dictionaryAddress, abbreviationStringsAddress] at fits
    omega
  obtain ⟨heading, heldEntries⟩ := Memory.holds_append.mp holds
  have counted : (UInt16.ofNat keys.length).toNat = keys.length := by
    rw [UInt16.toNat_ofNat']
    rw [entryLength] at size
    omega
  have start : separators.length + 4 = (UInt8.ofNat separators.length :: separators ++
      UInt8.ofNat entryLength :: Word.toBytes [UInt16.ofNat keys.length]).length := by simp
  rw [← start] at heldEntries
  have entryAt (index : Nat) (inside : index < keys.length) :
      ∃ text, Dictionary.readEntry m abbreviations
        (dictionaryAddress + separators.length + 4 + index * entryLength) =
          .ok (keys[index], text) := by
    obtain ⟨word, -, keyOf⟩ := (mem_keys _).mp (List.getElem_mem inside)
    exact readEntry_of_keyOf keyOf
      (holds_entry heldEntries (List.getElem?_eq_getElem inside)) abbreviations
  obtain ⟨entries, read⟩ := Except.exists_mapM_eq_ok (l := List.range keys.length)
    (f := fun i => Dictionary.readEntry m abbreviations
      (dictionaryAddress + separators.length + 4 + i * entryLength)) fun index mem => by
        obtain ⟨text, entry⟩ := entryAt index (List.mem_range.mp mem)
        exact ⟨_, entry⟩
  have each := Except.mapM_eq_ok read
  have same : entries.map (·.1) = keys := by
    refine List.ext_getElem (by simpa using each.length_eq.symm) fun index inside inKeys => ?_
    obtain ⟨text, entry⟩ := entryAt index inKeys
    have own := (List.forall₂_iff_get.mp each).2 index (by simpa using inKeys)
      (by simpa using inside)
    simp only [List.get_eq_getElem, List.getElem_range, entry, Except.ok.injEq] at own
    simp [← own]
  rw [← counted] at read
  refine ⟨_, Except.bind_eq_ok.mpr ⟨_, readHeading_of_holds (by omega) heading,
    Except.bind_eq_ok.mpr ⟨_, read, rfl⟩⟩, rfl, ?_, ?_⟩
  · simpa [same] using ascending
  · simpa [same] using mem_keys

end Blueprint
end ZMachine
