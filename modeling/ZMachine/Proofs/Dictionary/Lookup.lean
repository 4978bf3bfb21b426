import ZMachine.Proofs.Blueprint.RoundTrip
import ZMachine.Proofs.Dictionary.Search

/-!
# Looking up words

A dictionary that is written for some words has one entry for each of their keys, in ascending
order, so that a typed word is found exactly if it has the key of one of them. Other dictionaries
may miss a word, but they do not confuse it with one that has another key.

## Main definitions

* `Dictionary.Lists` — a dictionary has the keys of some words.

## Main statements

* `Blueprint.holds_dictionary` — the image of a blueprint has its dictionary.
* `Dictionary.lookup_sound_complete` — what `search` and `lookup` find.
-/

namespace ZMachine

namespace Blueprint

open Patch

variable {b : Blueprint} {img : Array Byte}

/-- The dictionary is in the image, unless something else is placed there. -/
theorem holds_dictionary (laidOut : b.image = .ok img) :
    ∃ p, dictionaryPatch b.separators b.words = .ok p ∧
      ((∀ placement ∈ b.placements, ∀ q, placementPatch placement = .ok q →
        q.stop ≤ p.address ∨ p.stop ≤ q.address) →
      (Memory.mk img).Holds p.address p.bytes) := by
  obtain ⟨ps, length, _, patchesOf, rfl, size, bytes⟩ := exists_patches_of_image laidOut
  have large : minSize ≤ img.size := by
    have := @le_size_foldl_apply ps (Array.replicate minSize 0)
    rw [Array.size_replicate] at this
    omega
  obtain ⟨abbreviations, -, patchesOf⟩ := Except.bind_eq_ok.mp patchesOf
  obtain ⟨defaults, -, patchesOf⟩ := Except.bind_eq_ok.mp patchesOf
  obtain ⟨objects, -, patchesOf⟩ := Except.bind_eq_ok.mp patchesOf
  obtain ⟨globals, -, patchesOf⟩ := Except.bind_eq_ok.mp patchesOf
  obtain ⟨dictionary, dictionaryOf, patchesOf⟩ := Except.bind_eq_ok.mp patchesOf
  obtain ⟨placed, placedOf, patchesOf⟩ := Except.bind_eq_ok.mp patchesOf
  cases patchesOf
  refine ⟨dictionary, dictionaryOf, fun clear => ?_⟩
  obtain ⟨keys, -, -, low, high, -⟩ := dictionaryPatch_eq_ok dictionaryOf
  simp only [dictionaryAddress, abbreviationStringsAddress] at low high
  -- Nothing of what is written later reaches into the dictionary.
  have free (i : Nat) (after : dictionary.address ≤ i) (inside : i < dictionary.stop) :
      written (⟨codeAddress, b.code⟩ :: placed ++ [ofWord 0x1A length]) i = none := by
    refine written_eq_none fun q mem => ?_
    simp only [List.cons_append, List.mem_cons, List.mem_append, List.not_mem_nil, or_false] at mem
    obtain rfl | mem | rfl := mem
    · exact .inl (by simp only [codeAddress]; omega)
    · obtain ⟨placement, mem, own⟩ := (Except.mem_of_mapM_eq_ok placedOf).mp mem
      have := clear placement mem q own
      omega
    · have stop : stop (ofWord 0x1A length) = 0x1C := rfl
      omega
  rw [List.append_assoc] at bytes
  refine ((Wrote.self _ dictionary free).append _).holds bytes ?_
  change _ ≤ img.size
  rw [stop] at high
  rw [minSize] at large
  omega

end Blueprint

namespace Dictionary

open Blueprint DictionaryKey

/-- The dictionary has one entry for each key of the words, and no others. -/
structure Lists (d : Dictionary) (words : List String) : Prop where
  ascending : d.keys.toList.Pairwise (· < ·)
  keys : ∀ key, key ∈ d.keys.toList ↔ ∃ word ∈ words, clipped word 7 = .ok key
  lookup : ∀ typed, (d.lookup typed).isSome ↔
    ∃ word ∈ words, ∃ key, clipped word 7 = .ok key ∧ clipped typed 7 = .ok key

/-- The key of an entry is that of the word as a typed one would be clipped. -/
theorem keyOf_eq_ok {word : String} {key : UInt32} :
    keyOf word = .ok key ↔ clipped word 7 = .ok key := by
  rw [keyOf, Blueprint.entryLength]
  cases clipped word 7 <;> simp

/-- In a dictionary in ascending order, a word is found iff its key is listed. -/
theorem isSome_lookup {d : Dictionary} (ascending : d.keys.toList.Pairwise (· < ·))
    {typed : String} : (d.lookup typed).isSome ↔
      ∃ key, clipped typed d.entryLength = .ok key ∧ key ∈ d.keys.toList := by
  rw [Dictionary.lookup]
  cases clipped typed d.entryLength with
  | error e => simp
  | ok key =>
    simp only [find?, Option.isSome_map, Except.ok.injEq, exists_eq_left']
    rw [Option.isSome_iff_exists, List.mem_iff_getElem?]
    simp only [Search.find?_eq_some_iff ascending, Array.getElem?_toList]

/-- A dictionary that lies in memory has the keys of its words and no others. -/
theorem lists_of_patch {m : Memory} {separators : List Byte} {words : List String} {p : Patch}
    (written : dictionaryPatch separators words = .ok p) (holds : m.Holds p.address p.bytes)
    (abbreviations : AbbreviationTable) :
    ∃ d, load m dictionaryAddress abbreviations = .ok d ∧ d.Lists words := by
  obtain ⟨d, loaded, length, ascending, keys⟩ := load_dictionary written holds abbreviations
  simp only [keyOf_eq_ok] at keys
  refine ⟨d, loaded, ascending, keys, fun typed => ?_⟩
  rw [isSome_lookup ascending, length, Blueprint.entryLength]
  simp only [keys]
  constructor
  · rintro ⟨key, own, word, mem, same⟩
    exact ⟨word, mem, key, same, own⟩
  · rintro ⟨word, mem, key, same, own⟩
    exact ⟨key, own, word, mem, same⟩

/-- For every dictionary that loads, sorted or not: an address that is found is that of an entry
with the key of the word. If its keys ascend, no entry is missed and no two share a key.

For every dictionary that is written for some words, wherever it is loaded from: its keys ascend and
are those of the words, and a typed word is found exactly if a word has the same key. The image of a
blueprint has it, unless something is placed over it.

Texts have the same key if their first six z-characters, with padding, are the same. -/
theorem lookup_sound_complete :
    (∀ m address abbreviations d, load m address abbreviations = .ok d → ∀ word,
      d.Answers m (whole? word) (d.search word) ∧
      d.Answers m (clipped word d.entryLength).toOption (d.lookup word)) ∧
    (∀ separators words p, dictionaryPatch separators words = .ok p →
      ∀ m : Memory, m.Holds p.address p.bytes → ∀ abbreviations,
        ∃ d, load m dictionaryAddress abbreviations = .ok d ∧ d.Lists words) ∧
    (∀ b img, image b = .ok img → ∃ p, dictionaryPatch b.separators b.words = .ok p ∧
      ((∀ placement ∈ b.placements, ∀ q, placementPatch placement = .ok q →
        q.stop ≤ p.address ∨ p.stop ≤ q.address) → (Memory.mk img).Holds p.address p.bytes)) ∧
    (∀ t t' : String, (∀ c ∈ t.toList, c.toNat < 0x400) → (∀ c ∈ t'.toList, c.toNat < 0x400) →
      ∃ zs zs', ZString.toZChars t.toList = .ok zs ∧ ZString.toZChars t'.toList = .ok zs' ∧
        (clipped t 7 = clipped t' 7 ↔ cut zs = cut zs')) := by
  refine ⟨fun m address abbreviations d loaded word =>
      ⟨answers_search loaded word, answers_lookup loaded word⟩,
    fun separators words p written m holds abbreviations =>
      lists_of_patch written holds abbreviations,
    fun b img laidOut => holds_dictionary laidOut, fun t t' small small' => ?_⟩
  obtain ⟨zs, written⟩ := ZString.exists_toZChars small
  obtain ⟨zs', written'⟩ := ZString.exists_toZChars small'
  refine ⟨zs, zs', written, written', ?_⟩
  rw [clipped_eq_ok written (by decide), clipped_eq_ok written' (by decide), Except.ok.injEq]
  exact ofZChars_eq_iff (ZString.lt_of_toZChars written) (ZString.lt_of_toZChars written')

/-- The key of "lamé" ends in the midst of its last character, and so another word has the same
one. -/
theorem lookup_in_lampBlueprint :
    ∃ img d, lampBlueprint.image = .ok img ∧
      load ⟨img⟩ dictionaryAddress ⟨abbreviationsAddress⟩ = .ok d ∧
      (d.lookup "lamê").isSome ∧ d.lookup "lampe" = none := by
  obtain ⟨ps, patchesOf⟩ := exists_patches_lampBlueprint
  have laidOut : lampBlueprint.image =
      .ok (finish (ps.foldl Patch.apply (Array.replicate minSize 0))) :=
    Except.bind_eq_ok.mpr ⟨ps, patchesOf, rfl⟩
  obtain ⟨p, written, holds⟩ := lookup_sound_complete.2.2.1 _ _ laidOut
  obtain ⟨d, loaded, lists⟩ := lookup_sound_complete.2.1 _ _ _ written _ (holds nofun)
    ⟨abbreviationsAddress⟩
  have lamp : clipped "lamp" 7 = .ok 1154667685 := by rfl
  have acute : clipped "lamé" 7 = .ok 1154651335 := by rfl
  have circumflex : clipped "lamê" 7 = .ok 1154651335 := by rfl
  have lampe : clipped "lampe" 7 = .ok 1154667845 := by rfl
  refine ⟨_, d, laidOut, loaded,
    (lists.lookup "lamê").mpr ⟨"lamé", by decide, _, acute, circumflex⟩, ?_⟩
  rw [← Option.not_isSome_iff_eq_none, lists.lookup]
  rintro ⟨word, mem, key, own, same⟩
  cases lampe.symm.trans same
  obtain rfl | mem := List.mem_cons.mp mem
  · cases lamp.symm.trans own
  · obtain rfl := List.mem_singleton.mp mem
    cases acute.symm.trans own

end Dictionary
end ZMachine
