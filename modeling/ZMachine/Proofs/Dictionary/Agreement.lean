import ZMachine.Proofs.Dictionary.Key
import ZMachine.Proofs.Dictionary.Search

/-!
# Words that are found as they are

`search` takes a word as it is, and finds it only if its z-characters fit in an entry. `lookup`
keeps one character less than an entry has bytes, although an entry keeps six z-characters whatever
its length is. So where entries have seven bytes or more, `lookup` finds what `search` does. With
shorter ones it drops characters that the entry of a word does hold, and looks for those that are
left.

## Main statements

* `Dictionary.lookup_eq_search_take` — `lookup` is a `search` for the first characters.
* `Dictionary.lookup_of_search` — when a word that `search` finds is found by `lookup`.
* `Dictionary.lookup_zork_ne_search` — entries of four bytes, where `lookup` finds another word.
-/

namespace ZMachine.Dictionary

open DictionaryKey

variable {m : Memory} {address : Nat} {abbreviations : AbbreviationTable} {d : Dictionary}
  {word : String} {zs : List ZChar} {key : UInt32} {place : Nat}

theorem lookup_of_clipped (h : clipped word d.entryLength = .ok key) :
    d.lookup word = d.find? key := by
  rw [lookup, h]

/-- For a word that fits into a key, a lookup is a search for its first characters. -/
theorem lookup_eq_search_take (written : ZString.toZChars word.toList = .ok zs)
    (fits : zs.length ≤ zcharCount) :
    d.lookup word = d.search (String.ofList (word.toList.take (d.entryLength - 1))) := by
  obtain ⟨front, taken, fits', clip⟩ := clipped_of_fits written fits d.entryLength
  have whole : whole? (String.ofList (word.toList.take (d.entryLength - 1))) =
      some (ofZChars front) :=
    whole?_eq_some_iff.mpr ⟨front, by rwa [String.toList_ofList], fits', rfl⟩
  rw [lookup_of_clipped clip, search, whole, Option.bind_some]

/-- A word that loses a character becomes another one, with another key and so another address. -/
theorem lookup_eq_some_iff (loaded : load m address abbreviations = .ok d)
    (written : ZString.toZChars word.toList = .ok zs) (fits : zs.length ≤ zcharCount)
    (hit : d.find? (ofZChars zs) = some place) :
    d.lookup word = some place ↔ word.toList.length ≤ d.entryLength - 1 := by
  obtain ⟨front, taken, fits', clip⟩ := clipped_of_fits written fits d.entryLength
  rw [lookup_of_clipped clip]
  constructor
  · intro hit'
    have sameKey := find?_key_unique loaded hit hit'
    have sameWord := eq_of_ofZChars_eq written taken fits fits' sameKey
    exact (List.take_eq_self_iff _).mp sameWord.symm
  · intro short
    rw [List.take_of_length_le short, written, Except.ok.injEq] at taken
    rwa [← taken]

/-- Whatever order the keys are in, a word that `search` finds is found by `lookup` if and only if
no character of it is dropped, and so always where entries have seven bytes or more. What `lookup`
gives is always what `search` finds for the characters that are left. -/
theorem lookup_of_search (loaded : load m address abbreviations = .ok d)
    (found : d.search word = some place) :
    (d.lookup word = some place ↔ word.toList.length ≤ d.entryLength - 1) ∧
      (7 ≤ d.entryLength → d.lookup word = some place) ∧
      d.lookup word = d.search (String.ofList (word.toList.take (d.entryLength - 1))) := by
  obtain ⟨key, whole, hit⟩ := Option.bind_eq_some_iff.mp found
  obtain ⟨zs, written, fits, rfl⟩ := whole?_eq_some_iff.mp whole
  refine ⟨lookup_eq_some_iff loaded written fits hit, fun long => ?_,
    lookup_eq_search_take written fits⟩
  rw [lookup_of_clipped (clipped_eq_ok written long), hit]

/-- A dictionary of "zor" and "zork", of which entries of four bytes hold every character. -/
def zorkMemory : Memory :=
  ⟨#[0, 4, 0, 2, 0x7E, 0x97, 0x94, 0xA5, 0x7E, 0x97, 0xC0, 0xA5]⟩

def zorkDictionary : Dictionary := ⟨0, [], 4, 4, #["zor", "zork"], #[0x7E9794A5, 0x7E97C0A5]⟩

theorem load_zorkMemory : load zorkMemory 0 ⟨0⟩ = .ok zorkDictionary := by decide +kernel

theorem lookup_of_search_zor :
    zorkDictionary.lookup "zor" = some 4 ∧ zorkDictionary.lookup "zork" ≠ some 8 := by
  have zor : zorkDictionary.search "zor" = some 4 := by decide +kernel
  have zork : zorkDictionary.search "zork" = some 8 := by decide +kernel
  refine ⟨(lookup_of_search load_zorkMemory zor).1.mpr (by decide), fun same => ?_⟩
  exact absurd ((lookup_of_search load_zorkMemory zork).1.mp same) (by decide)

/-- The keys ascend and entries have the four bytes that every key needs. Yet the address of "zor"
is given for "zork". -/
theorem lookup_zork_ne_search :
    load zorkMemory 0 ⟨0⟩ = .ok zorkDictionary ∧
      zorkDictionary.keys.toList.Pairwise (· < ·) ∧ 4 ≤ zorkDictionary.entryLength ∧
      zorkDictionary.search "zork" = some 8 ∧ zorkDictionary.lookup "zork" = some 4 :=
  ⟨load_zorkMemory, by decide +kernel, by decide, by decide +kernel, by decide +kernel⟩

end ZMachine.Dictionary
