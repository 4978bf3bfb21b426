import Mathlib.Data.UInt
import ZMachine.Dictionary
import ZMachine.Proofs.Scan

/-!
# Finding keys

Whatever order the keys of a dictionary are in, a key is found only where it stands. If the keys
ascend, the search never leaves the half in which the key stands, so that it finds every key.

## Main definitions

* `Dictionary.Carries` — an entry in memory begins with a key.

## Main statements

* `Search.find?_eq_some_iff` — among ascending keys, all are found.
* `Dictionary.find?_eq_some_iff` — the same for the entries of a loaded dictionary.
-/

namespace ZMachine

namespace Search

variable {keys : Array UInt32} {key : UInt32} {place : Nat}

theorem getElem?_of_find? (h : find? keys key = some place) : keys[place]? = some key := by
  simp only [find?, Option.ite_none_right_eq_some, Option.some.injEq] at h
  obtain ⟨found, rfl⟩ := h
  exact found

/-- Ascending keys compare as their places do. -/
theorem getD_lt_iff (ascending : keys.toList.Pairwise (· < ·)) {i j : Nat} (hi : i < keys.size)
    (hj : j < keys.size) : keys.getD i 0 < keys.getD j 0 ↔ i < j := by
  have mono {a b : Nat} (hb : b < keys.size) (lt : a < b) : keys.getD a 0 < keys.getD b 0 := by
    have := List.pairwise_iff_getElem.mp ascending a b (by simp; omega) hb lt
    simpa [hb, Nat.lt_trans lt hb] using this
  constructor
  · intro lt
    by_contra not
    rcases Nat.lt_or_eq_of_le (Nat.le_of_not_lt not) with gt | rfl
    · exact absurd (mono hi gt) (UInt32.not_lt.mpr (UInt32.le_of_lt lt))
    · exact UInt32.lt_irrefl _ lt
  · exact mono hj

/-- The place of the key stays among the candidates until it is the only one. -/
theorem narrow_eq (ascending : keys.toList.Pairwise (· < ·)) (found : keys.getD place 0 = key)
    {base size : Nat} (inside : base + size ≤ keys.size) (low : base ≤ place)
    (high : place < base + size) : narrow keys key base size = place := by
  fun_induction narrow keys key base size with
  | case1 base size single => omega
  | case2 base size several half middle ih =>
    have after := getD_lt_iff ascending (i := place) (j := middle) (by omega) (by omega)
    rw [found] at after
    simp only [gt_iff_lt, after, dite_eq_ite] at ih ⊢
    apply ih <;> split <;> omega

/-- Among keys in ascending order, a search gives a place iff the key is there. -/
theorem find?_eq_some_iff (ascending : keys.toList.Pairwise (· < ·)) :
    find? keys key = some place ↔ keys[place]? = some key := by
  refine ⟨getElem?_of_find?, fun found => ?_⟩
  have inside : place < keys.size := (Array.getElem?_eq_some_iff.mp found).1
  have narrowed : narrow keys key 0 keys.size = place :=
    narrow_eq ascending (by simp [Array.getD_eq_getD_getElem?, found]) (by omega) (by omega)
      (by omega)
  simp [find?, narrowed, found]

end Search

namespace Dictionary

variable {m : Memory} {address : Nat} {abbreviations : AbbreviationTable} {d : Dictionary}
  {key : UInt32} {index place : Nat}

structure Carries (m : Memory) (d : Dictionary) (key : UInt32) (index : Nat) : Prop where
  inside : index < d.size
  key : m.longAt (d.entryAddress index) = .ok key

theorem longAt_of_readEntry {entry : UInt32 × String}
    (h : readEntry m abbreviations address = .ok entry) : m.longAt address = .ok entry.1 := by
  obtain ⟨key, long, rest⟩ := Except.bind_eq_ok.mp h
  obtain ⟨word, -, rest⟩ := Except.bind_eq_ok.mp rest
  cases rest
  exact long

/-- There is a key for each entry that the heading counts. -/
theorem size_keys_of_load (loaded : load m address abbreviations = .ok d) :
    d.keys.size = d.size := by
  obtain ⟨_, -, rest⟩ := Except.bind_eq_ok.mp loaded
  obtain ⟨entries, -, rest⟩ := Except.bind_eq_ok.mp rest
  cases rest
  simp [size]

/-- The keys and words of a loaded dictionary are those of its entries. -/
theorem readEntry_of_load (loaded : load m address abbreviations = .ok d)
    (inside : index < d.size) :
    ∃ key word, d.keys[index]? = some key ∧ d.words[index]? = some word ∧
      readEntry m abbreviations (d.entryAddress index) = .ok (key, word) := by
  obtain ⟨⟨⟨separators, entryLength, count⟩, start⟩, -, rest⟩ := Except.bind_eq_ok.mp loaded
  obtain ⟨entries, read, rest⟩ := Except.bind_eq_ok.mp rest
  cases rest
  have inside : index < entries.length := by simpa [size] using inside
  have each := Except.mapM_eq_ok read
  have entry := (List.forall₂_iff_get.mp each).2 index (each.length_eq ▸ inside) inside
  exact ⟨entries[index].1, entries[index].2, by simp [inside], by simp [inside],
    by simpa [entryAddress] using entry⟩

/-- The keys of a loaded dictionary are those that its entries begin with. -/
theorem carries_iff (loaded : load m address abbreviations = .ok d) :
    d.Carries m key index ↔ d.keys[index]? = some key := by
  constructor
  · rintro ⟨inside, long⟩
    obtain ⟨own, _, found, -, read⟩ := readEntry_of_load loaded inside
    cases long.symm.trans (longAt_of_readEntry read)
    exact found
  · intro found
    have inside : index < d.size :=
      size_keys_of_load loaded ▸ (Array.getElem?_eq_some_iff.mp found).1
    obtain ⟨own, _, found', -, read⟩ := readEntry_of_load loaded inside
    cases found.symm.trans found'
    exact ⟨inside, longAt_of_readEntry read⟩

/-- Whatever order the keys are in, the address found is that of an entry with the key. -/
theorem exists_carries_of_find? (loaded : load m address abbreviations = .ok d)
    (h : d.find? key = some place) :
    ∃ index, d.Carries m key index ∧ place = d.entryAddress index := by
  obtain ⟨index, found, rfl⟩ := Option.map_eq_some_iff.mp h
  exact ⟨index, (carries_iff loaded).mpr (Search.getElem?_of_find? found), rfl⟩

/-- No address is found for two keys, even if entries overlap. -/
theorem find?_key_unique {key' : UInt32} (loaded : load m address abbreviations = .ok d)
    (h : d.find? key = some place) (h' : d.find? key' = some place) : key = key' := by
  obtain ⟨index, carries, rfl⟩ := exists_carries_of_find? loaded h
  obtain ⟨other, carries', same⟩ := exists_carries_of_find? loaded h'
  exact Except.ok.inj (carries.key.symm.trans (same ▸ carries'.key))

section Ascending

variable (loaded : load m address abbreviations = .ok d)
  (ascending : d.keys.toList.Pairwise (· < ·))
include loaded ascending

/-- Among ascending keys, every entry with the key is found. -/
theorem Carries.find?_eq_some (h : d.Carries m key index) :
    d.find? key = some (d.entryAddress index) := by
  rw [carries_iff loaded] at h
  rw [find?, (Search.find?_eq_some_iff ascending).mpr h, Option.map_some]

/-- Among ascending keys, only one entry has the key. -/
theorem Carries.unique {other : Nat} (h : d.Carries m key index) (h' : d.Carries m key other) :
    index = other := by
  rw [carries_iff loaded, ← Search.find?_eq_some_iff ascending] at h h'
  exact Option.some.inj (h.symm.trans h')

end Ascending

/-- What a search for a key may give, if the word that is sought has one. -/
structure Answers (m : Memory) (d : Dictionary) (key? : Option UInt32) (answer : Option Nat) :
    Prop where
  sound : ∀ place, answer = some place →
    ∃ key index, key? = some key ∧ d.Carries m key index ∧ place = d.entryAddress index
  complete : d.keys.toList.Pairwise (· < ·) → answer = none →
    key? = none ∨ ∃ key, key? = some key ∧ ∀ index, ¬ d.Carries m key index
  unique : d.keys.toList.Pairwise (· < ·) → ∀ place, answer = some place →
    ∃! index, (∃ key, key? = some key ∧ d.Carries m key index)

/-- The entry that is found for a key begins with it. -/
theorem answers_find? (loaded : load m address abbreviations = .ok d) (key? : Option UInt32) :
    d.Answers m key? (key?.bind d.find?) := by
  cases key? with
  | none => exact ⟨by simp, by simp, by simp⟩
  | some key =>
    refine ⟨fun place found => ?_,
      fun ascending missing => .inr ⟨key, rfl, fun index carries => ?_⟩,
      fun ascending place found => ?_⟩
    · obtain ⟨index, carries, rfl⟩ := exists_carries_of_find? loaded found
      exact ⟨key, index, rfl, carries, rfl⟩
    · rw [Option.bind_some, carries.find?_eq_some loaded ascending] at missing
      cases missing
    · obtain ⟨index, carries, -⟩ := exists_carries_of_find? loaded found
      refine ⟨index, ⟨key, rfl, carries⟩, ?_⟩
      rintro other ⟨key', same, carries'⟩
      cases same
      exact carries'.unique loaded ascending carries

theorem answers_search (loaded : load m address abbreviations = .ok d) (word : String) :
    d.Answers m (DictionaryKey.whole? word) (d.search word) :=
  answers_find? loaded _

theorem answers_lookup (loaded : load m address abbreviations = .ok d) (typed : String) :
    d.Answers m (DictionaryKey.clipped typed d.entryLength).toOption (d.lookup typed) := by
  have same : d.lookup typed =
      (DictionaryKey.clipped typed d.entryLength).toOption.bind d.find? := by
    unfold lookup
    cases DictionaryKey.clipped typed d.entryLength <;> rfl
  exact same ▸ answers_find? loaded _

end Dictionary
end ZMachine
