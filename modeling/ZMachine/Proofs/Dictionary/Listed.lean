import Mathlib.Tactic.IntervalCases
import ZMachine.Proofs.Dictionary.Key
import ZMachine.Proofs.Dictionary.Lookup

/-!
# Words as they are listed

The list of words is read back from the entries. An entry keeps six z-characters of its word, and
what it has of a character that is cut off is not listed. A program that searches for a listed word
writes it anew, with padding after its last character. So it finds the entry again, unless more than
padding was left there of a character that was cut off: a shift to the upper case, or an escape.

## Main definitions

* `DictionaryKey.kept` — the characters that fit in an entry whole, and what is left of the next
  one.
* `DictionaryKey.Severed` — the words of which more than padding is left.
* `Dictionary.EntryFor` — an entry has the key of a word.

## Main statements

* `DictionaryKey.severed_iff` — the ways in which a word is severed.
* `DictionaryKey.exists_cut` — a key is the characters that are kept whole and what is left of the
  next one.
* `Dictionary.listed_of_entryFor` — what is listed for an entry.
* `Dictionary.search_listed_iff` — when a listed word is found.
* `Dictionary.lists_back` — a dictionary that is written for some words, and its list.
-/

namespace ZMachine

/-- What is left of a character that is cut off stands for no piece, and it is padding only if it is
no more than one shift. -/
theorem ZString.Spelling.take_short {c : Char} {zs : List ZChar} {room : Nat} (h : Spelling c zs)
    (short : room < zs.length) : Awaited.start.pieces (zs.take room) = [] ∧
      (zs.take room = List.replicate room padZChar ↔ zs.take room ∈ [[], [padZChar]]) := by
  cases h <;> simp only [List.length_cons, List.length_nil] at short <;> interval_cases room <;>
    exact ⟨rfl, by simp [padZChar]⟩

namespace DictionaryKey

/-- The characters whose z-characters fit in so much room, and what room is left for of the
z-characters of the next one. -/
def kept (room : Nat) : List Char → List Char × List ZChar
  | [] => ([], [])
  | c :: rest =>
    match ZString.zcharsOf? c with
    | none => ([], [])
    | some own =>
      if own.length ≤ room then
        let (front, left) := kept (room - own.length) rest
        (c :: front, left)
      else
        ([], own.take room)

def listed (word : String) : String :=
  String.ofList (kept zcharCount word.toList).1

/-- More is left of a character that is cut off than the padding that would stand there. -/
def Severed (word : String) : Prop :=
  (kept zcharCount word.toList).2 ∉ [[], [padZChar]]

instance (word : String) : Decidable (Severed word) :=
  inferInstanceAs (Decidable (_ ∉ _))

variable {text : List Char} {zs : List ZChar} {word : String}

/-- Of a text that is longer than its room, the end does not matter. -/
theorem kept_take {room count : Nat} (enough : room ≤ count) (text : List Char) :
    kept room (text.take count) = kept room text := by
  induction text generalizing room count with
  | nil => rw [List.take_nil]
  | cons c text ih =>
    cases found : ZString.zcharsOf? c with
    | none => cases count <;> simp [kept, found]
    | some own =>
      have pos : 0 < own.length :=
        List.length_pos_iff.mpr (ZString.spelling_of_zcharsOf? found).ne_nil
      cases count with
      | zero =>
        obtain rfl := Nat.le_zero.mp enough
        simp [kept, found, Nat.not_le.mpr pos]
      | succ count =>
        rw [List.take_succ_cons, kept, kept, found]
        dsimp only
        rw [ih (by omega)]

/-- What is left of a character is nothing, a shift, or an escape that lacks one half or both. -/
theorem kept_left (room : Nat) (text : List Char) :
    (kept room text).2 ∈ [[], [padZChar], [4], [5, 6]] ∨
      ∃ high, (kept room text).2 = [5, 6, high] := by
  induction text generalizing room with
  | nil => exact .inl (by simp [kept])
  | cons c text ih =>
    cases found : ZString.zcharsOf? c with
    | none => exact .inl (by simp [kept, found])
    | some own =>
      rw [kept, found]
      dsimp only
      split
      · exact ih _
      · next short =>
        have spelling := ZString.spelling_of_zcharsOf? found
        cases spelling <;> simp only [List.length_cons, List.length_nil, Nat.not_le] at short <;>
          interval_cases room <;> simp [padZChar]

/-- The three ways in which more is left of a character than padding. -/
theorem severed_iff : Severed word ↔ (kept zcharCount word.toList).2 ∈ [[4], [5, 6]] ∨
    ∃ high, (kept zcharCount word.toList).2 = [5, 6, high] := by
  rw [Severed]
  obtain none | ⟨high, escape⟩ := kept_left zcharCount word.toList
  · simp only [List.mem_cons, List.not_mem_nil, or_false] at none
    obtain none | none | none | none := none <;> simp [none, padZChar]
  · simp [escape]

example : Severed "abcd@" ∧ ¬ Severed "abcde@" := by decide +kernel

/-- What is put after a text fills its room. -/
theorem take_append_padding (own back : List ZChar) (room : Nat) :
    (own ++ back ++ List.replicate (own.length + room) padZChar).take (own.length + room) =
      own ++ (back ++ List.replicate room padZChar).take room := by
  rw [List.append_assoc, List.take_length_add_append, List.take_append, List.take_append,
    List.take_replicate, List.take_replicate]
  congr 3
  omega

/-- A key is the z-characters of the characters that are kept whole, and after them what is left of
the next character. This stands for no piece, and it is all padding iff nothing is severed. -/
theorem exists_cut (h : ZString.toZChars text = .ok zs) (room : Nat) :
    ∃ own rest, ZString.toZChars (kept room text).1 = .ok own ∧ own.length ≤ room ∧
      (zs ++ List.replicate room padZChar).take room = own ++ rest ∧
      Awaited.start.pieces rest = [] ∧
      (rest = List.replicate (room - own.length) padZChar ↔
        (kept room text).2 ∈ [[], [padZChar]]) := by
  induction text generalizing zs room with
  | nil =>
    cases h
    refine ⟨[], List.replicate room padZChar, rfl, Nat.zero_le _, by simp,
      ZString.pieces_padding .lower room, by simp [kept]⟩
  | cons c text ih =>
    rw [ZString.toZChars] at h
    split at h
    · next own found =>
      obtain ⟨back, tail, rfl⟩ := Except.map_eq_ok.mp h
      rw [kept, found]
      dsimp only
      split
      · next fits =>
        obtain ⟨room, rfl⟩ := Nat.exists_eq_add_of_le fits
        obtain ⟨front, rest, written, le, cut, none, padding⟩ := ih tail room
        refine ⟨own ++ front, rest, ?_, ?_, ?_, none, ?_⟩
        · rw [Nat.add_sub_cancel_left, ZString.toZChars, found]
          exact Except.map_eq_ok.mpr ⟨front, written, rfl⟩
        · rw [List.length_append]
          omega
        · rw [take_append_padding, cut, List.append_assoc]
        · rw [List.length_append, Nat.add_sub_add_left, Nat.add_sub_cancel_left]
          exact padding
      · next short =>
        have short := Nat.lt_of_not_le short
        obtain ⟨none, padding⟩ := (ZString.spelling_of_zcharsOf? found).take_short short
        refine ⟨[], own.take room, rfl, Nat.zero_le _, ?_, none, padding⟩
        rw [List.append_assoc, List.take_append_of_le_length (Nat.le_of_lt short), List.nil_append]
    · cases h

/-- A text that fits in a key is followed by padding. -/
theorem cut_of_fits (fits : zs.length ≤ zcharCount) :
    cut zs = zs ++ List.replicate (zcharCount - zs.length) padZChar := by
  rw [cut, List.take_append, List.take_of_length_le fits, List.take_replicate,
    Nat.min_eq_left (Nat.sub_le _ _)]

/-- The listed word fits in an entry, and is what its key is read as. Written anew, it has the same
key iff the word is not severed. -/
theorem key_of_listed {key : UInt32} (clip : clipped word 7 = .ok key) :
    ∃ zs, whole? (listed word) = some (ofZChars zs) ∧
      (ofZChars zs = key ↔ ¬ Severed word) ∧
      ∀ m abbreviations address text,
        Dictionary.readEntry m abbreviations address = .ok (key, text) → text = listed word := by
  obtain ⟨zs, written, rfl⟩ := Except.map_eq_ok.mp clip
  obtain ⟨own, rest, written', fits, whole, none, padding⟩ := exists_cut written zcharCount
  have whole : cut zs = own ++ rest := whole
  rw [kept_take (by decide)] at written' padding
  have small := ZString.lt_of_toZChars written
  refine ⟨own, whole?_eq_some_iff.mpr ⟨own, ?_, fits, rfl⟩, ?_,
    fun m abbreviations address text read => ?_⟩
  · rwa [listed, String.toList_ofList]
  · rw [ofZChars_eq_iff (ZString.lt_of_toZChars written') small, whole, cut_of_fits fits,
      List.append_cancel_left_eq, eq_comm, padding, Severed, not_not]
  · obtain ⟨isText, unpacked⟩ := unpack_cut small
    have held := Memory.longAt_eq_ok.mp (Dictionary.longAt_of_readEntry read)
    rw [longBytes_ofZChars] at held
    have pieces : Piece.ofZChars ((packZChars (cut zs)).flatMap unpackWord) =
        (kept zcharCount word.toList).1.map .char := by
      rw [unpacked, whole, Piece.ofZChars, ZString.pieces_of_toZChars written', none,
        List.append_nil]
    obtain ⟨_, -, read⟩ := Except.bind_eq_ok.mp read
    obtain ⟨_, readText, same⟩ := Except.bind_eq_ok.mp read
    rw [ZString.read, ZString.maxDepth, ZString.readWithin_of_holds isText pieces held] at readText
    cases readText
    cases same
    rfl

end DictionaryKey

namespace Dictionary

open Blueprint DictionaryKey

variable {m : Memory} {address index : Nat} {abbreviations : AbbreviationTable} {d : Dictionary}
  {word word' : String} {words : List String}

def EntryFor (d : Dictionary) (word : String) (index : Nat) : Prop :=
  ∃ key, clipped word 7 = .ok key ∧ d.keys[index]? = some key

section
variable (loaded : load m address abbreviations = .ok d)
include loaded

/-- An entry is listed as what it has of its word. -/
theorem listed_of_entryFor (own : d.EntryFor word index) :
    d.words[index]? = some (listed word) := by
  obtain ⟨key, clip, found⟩ := own
  have inside : index < d.size :=
    size_keys_of_load loaded ▸ (Array.getElem?_eq_some_iff.mp found).1
  obtain ⟨key', text, found', named, read⟩ := readEntry_of_load loaded inside
  cases found.symm.trans found'
  obtain ⟨_, -, -, reads⟩ := key_of_listed clip
  rw [named, reads m abbreviations _ text read]

variable (ascending : d.keys.toList.Pairwise (· < ·))
include ascending

/-- The entry of a word is found by what is listed for it iff the word is not severed. -/
theorem search_listed_iff (own : d.EntryFor word index) :
    d.search (listed word) = some (d.entryAddress index) ↔ ¬ Severed word := by
  obtain ⟨key, clip, found⟩ := own
  obtain ⟨zs, whole, same, -⟩ := key_of_listed clip
  have hit := ((carries_iff loaded).mpr found).find?_eq_some loaded ascending
  rw [← same, search, whole, Option.bind_some]
  exact ⟨fun again => find?_key_unique loaded again hit, fun eq => eq ▸ hit⟩

/-- Words that are listed alike share their entry, unless one of them is severed. -/
theorem entryFor_unique {index' : Nat} (own : d.EntryFor word index)
    (own' : d.EntryFor word' index') (intact : ¬ Severed word) (intact' : ¬ Severed word')
    (alike : listed word = listed word') : index = index' := by
  obtain ⟨key, clip, found⟩ := own
  obtain ⟨key', clip', found'⟩ := own'
  obtain ⟨zs, whole, same, -⟩ := key_of_listed clip
  obtain ⟨zs', whole', same', -⟩ := key_of_listed clip'
  have keys : key = key' := by
    rw [alike, whole'] at whole
    rw [← same.mpr intact, ← same'.mpr intact', Option.some.inj whole]
  exact ((carries_iff loaded).mpr found).unique loaded ascending
    ((carries_iff loaded).mpr (keys ▸ found'))

end

/-- Every entry is that of a word, and of each word there is one entry. It is listed as what the
entry has of the word, and found by that iff the word is not severed. If listed words are the same,
so are the entries, unless one of the words is severed. -/
structure ListsBack (d : Dictionary) (words : List String) : Prop where
  entry : ∀ index < d.size, ∃ word ∈ words, d.EntryFor word index
  once : ∀ word ∈ words, ∃! index, d.EntryFor word index
  listed : ∀ word index, d.EntryFor word index → d.words[index]? = some (listed word)
  search : ∀ word index, d.EntryFor word index →
    (d.search (DictionaryKey.listed word) = some (d.entryAddress index) ↔ ¬ Severed word)
  distinct : ∀ word word' index index', d.EntryFor word index → d.EntryFor word' index' →
    ¬ Severed word → ¬ Severed word' →
      DictionaryKey.listed word = DictionaryKey.listed word' → index = index'

/-- A dictionary that lies in memory lists its words back. -/
theorem listsBack_of_patch {separators : List Byte} {p : Patch}
    (written : dictionaryPatch separators words = .ok p) (holds : m.Holds p.address p.bytes)
    (abbreviations : AbbreviationTable) :
    ∃ d, load m dictionaryAddress abbreviations = .ok d ∧ d.ListsBack words := by
  obtain ⟨d, loaded, -, ascending, mem_keys⟩ := load_dictionary written holds abbreviations
  simp only [keyOf_eq_ok] at mem_keys
  refine ⟨d, loaded, fun index inside => ?_, fun word mem => ?_,
    fun _ _ => listed_of_entryFor loaded, fun _ _ => search_listed_iff loaded ascending,
    fun _ _ _ _ => entryFor_unique loaded ascending⟩
  · obtain ⟨key, _, found, -⟩ := readEntry_of_load loaded inside
    have kept := Array.mem_toList_iff.mpr (Array.mem_of_getElem? found)
    obtain ⟨word, mem, clip⟩ := (mem_keys key).mp kept
    exact ⟨word, mem, key, clip, found⟩
  · obtain ⟨keys, keysOf, -⟩ := Except.bind_eq_ok.mp written
    have each := Except.mapM_eq_ok keysOf
    obtain ⟨place, inside, rfl⟩ := List.getElem_of_mem mem
    have clip := keyOf_eq_ok.mp
      ((List.forall₂_iff_get.mp each).2 place inside (each.length_eq ▸ inside))
    obtain ⟨index, found⟩ := List.mem_iff_getElem?.mp ((mem_keys _).mpr ⟨_, mem, clip⟩)
    rw [Array.getElem?_toList] at found
    refine ⟨index, ⟨_, clip, found⟩, fun other own => ?_⟩
    obtain ⟨key, clip', found'⟩ := own
    cases clip.symm.trans clip'
    exact ((carries_iff loaded).mpr found').unique loaded ascending ((carries_iff loaded).mpr found)

theorem image_of_patches {b : Blueprint} {ps : List Patch} (h : b.patches = .ok ps) :
    b.image = .ok (finish (ps.foldl Patch.apply (Array.replicate minSize 0))) :=
  Except.bind_eq_ok.mpr ⟨ps, h, rfl⟩

/-- An image in which nothing covers the dictionary lists its words back. -/
theorem listsBack_of_image {b : Blueprint} {img : Array Byte} (laidOut : b.image = .ok img) :
    ∃ p, dictionaryPatch b.separators b.words = .ok p ∧
      ((∀ placement ∈ b.placements, ∀ q, placementPatch placement = .ok q →
        q.stop ≤ p.address ∨ p.stop ≤ q.address) →
      ∀ abbreviations, ∃ d, load ⟨img⟩ dictionaryAddress abbreviations = .ok d ∧
        d.ListsBack b.words) := by
  obtain ⟨p, written, holds⟩ := holds_dictionary laidOut
  exact ⟨p, written, fun clear => listsBack_of_patch written (holds clear)⟩

/-- For every dictionary that is written for some words, wherever it is loaded from and whatever
abbreviations there are: a listed word is found at its own entry iff the word of the entry is not
severed. The image of a blueprint has such a dictionary, unless something is placed over it.

A word is severed if all that is left of its last character is a shift to the upper case, or an
escape that lacks one or both halves of its code. -/
theorem lists_back :
    (∀ separators words p, dictionaryPatch separators words = .ok p →
      ∀ m : Memory, m.Holds p.address p.bytes → ∀ abbreviations,
        ∃ d, load m dictionaryAddress abbreviations = .ok d ∧ d.ListsBack words) ∧
    (∀ b img, image b = .ok img → ∃ p, dictionaryPatch b.separators b.words = .ok p ∧
      ((∀ placement ∈ b.placements, ∀ q, placementPatch placement = .ok q →
        q.stop ≤ p.address ∨ p.stop ≤ q.address) →
      ∀ abbreviations, ∃ d, load ⟨img⟩ dictionaryAddress abbreviations = .ok d ∧
        d.ListsBack b.words)) ∧
    (∀ word, Severed word ↔ (kept zcharCount word.toList).2 ∈ [[4], [5, 6]] ∨
      ∃ high, (kept zcharCount word.toList).2 = [5, 6, high]) :=
  ⟨fun _ _ _ written _ holds => listsBack_of_patch written holds,
    fun _ _ laidOut => listsBack_of_image laidOut, fun _ => severed_iff⟩

/-- "lamp" is found again by what is listed for it. Of "lamé" an escape is left that lacks its last
part, so that "lam" is listed, and is not found. -/
theorem lists_back_lampBlueprint :
    ∃ img d index index', lampBlueprint.image = .ok img ∧
      load ⟨img⟩ dictionaryAddress ⟨abbreviationsAddress⟩ = .ok d ∧
      d.words[index]? = some "lamp" ∧ d.search "lamp" = some (d.entryAddress index) ∧
      d.words[index']? = some "lam" ∧ d.search "lam" ≠ some (d.entryAddress index') := by
  obtain ⟨ps, patchesOf⟩ := exists_patches_lampBlueprint
  have laidOut := image_of_patches patchesOf
  obtain ⟨p, -, back⟩ := lists_back.2.1 _ _ laidOut
  obtain ⟨d, loaded, lists⟩ := back nofun ⟨abbreviationsAddress⟩
  obtain ⟨index, own, -⟩ := lists.once "lamp" (by decide)
  obtain ⟨index', own', -⟩ := lists.once "lamé" (by decide)
  have whole : listed "lamp" = "lamp" := by decide +kernel
  have short : listed "lamé" = "lam" := by decide +kernel
  refine ⟨_, d, index, index', laidOut, loaded, whole ▸ lists.listed _ _ own,
    whole ▸ (lists.search _ _ own).mpr (by decide +kernel), short ▸ lists.listed _ _ own',
    fun found => ?_⟩
  exact (lists.search _ _ own').mp (short.symm ▸ found) (by decide +kernel)

/-- Two words of which the second one is cut off within its last character. -/
def stubBlueprint : Blueprint :=
  ⟨[], [], [], [], [], ["abcd", "abcd@"], [], []⟩

theorem exists_patches_stubBlueprint : ∃ ps, stubBlueprint.patches = .ok ps := by
  -- The kernel does not open the sort, so that its result is put in first.
  have keys : ["abcd", "abcd@"].mapM keyOf = .ok [417899685, 417899686] := by rfl
  have sortedKeys : ([417899685, 417899686] : List UInt32).mergeSort
      (fun a b => a ≤ b) = [417899685, 417899686] := by simp [List.mergeSort]
  have goOn (ks : List UInt32) (f : List UInt32 → Except BlueprintFault Patch) :
      Except.ok ks >>= f = f ks := rfl
  refine Except.exists_eq_ok_of_isOk ?_
  simp only [patches, stubBlueprint, objectPatches, dictionaryPatch, keys, goOn, sortedKeys]
  decide +kernel

/-- Both words are listed as "abcd", and a search for it finds only one of them. -/
theorem listed_twice :
    ∃ img d index index', stubBlueprint.image = .ok img ∧
      load ⟨img⟩ dictionaryAddress ⟨abbreviationsAddress⟩ = .ok d ∧ index ≠ index' ∧
      d.words[index]? = some "abcd" ∧ d.words[index']? = some "abcd" ∧
      d.search "abcd" = some (d.entryAddress index) ∧
      d.search "abcd" ≠ some (d.entryAddress index') := by
  obtain ⟨ps, patchesOf⟩ := exists_patches_stubBlueprint
  have laidOut := image_of_patches patchesOf
  obtain ⟨p, -, back⟩ := listsBack_of_image laidOut
  obtain ⟨d, loaded, lists⟩ := back nofun ⟨abbreviationsAddress⟩
  obtain ⟨index, own, -⟩ := lists.once "abcd" (by decide)
  obtain ⟨index', own', -⟩ := lists.once "abcd@" (by decide)
  have whole : listed "abcd" = "abcd" := by decide +kernel
  have short : listed "abcd@" = "abcd" := by decide +kernel
  have found := (lists.search _ _ own).mpr (by decide +kernel)
  have missed := (lists.search _ _ own').not.mpr (by decide +kernel)
  rw [whole] at found
  rw [short] at missed
  exact ⟨_, d, index, index', laidOut, loaded, fun same => missed (same ▸ found),
    whole ▸ lists.listed _ _ own, short ▸ lists.listed _ _ own', found, missed⟩

end Dictionary
end ZMachine
