import ZMachine.Proofs.Blueprint.Dictionary
import ZMachine.Proofs.Blueprint.Objects

/-!
# The parts of an image

What is written for the header, the objects, the dictionary, and the tables of words and
abbreviations lies apart from each other and before the code. So a place in an image belongs to one
part, and the size of an image depends on its code only.

## Main definitions

* `Blueprint.Readable` — a blueprint that loses nothing when it is written.
* `Blueprint.Parts` — what is written for each part of a blueprint.

## Main statements

* `Blueprint.Parts.written_patches` — which part of an image a place belongs to.
* `Blueprint.image_eq_ok` — the size and the bytes of an image.
-/

namespace ZMachine.Blueprint

open Patch

variable {b : Blueprint}

/-- Nothing is placed over the rest, there is a place for each default, and each object can be read
back. -/
structure Readable (b : Blueprint) : Prop where
  unplaced : b.placements = []
  defaults : ∀ d ∈ b.defaults, 0 < d.1 ∧ d.1 ≤ ObjectTable.maxProperty
  objects : ∀ o ∈ b.objects, o.Readable

/-! ## The parts of an image -/

theorem defaultPatch_eq_ok {d : Nat × Word} {p : Patch} (h : defaultPatch d = .ok p) :
    p = ofWord (objectsAddress + 2 * (d.1 - 1)) d.2.toNat := by
  obtain ⟨number, value⟩ := d
  rw [defaultPatch] at h
  split at h
  · cases h
  · exact (Except.ok.inj h).symm

theorem globalPatch_eq_ok {d : Nat × Word} {p : Patch} (h : globalPatch d = .ok p) :
    d.1 < globalCount ∧ p = ofWord (globalsAddress + 2 * d.1) d.2.toNat := by
  obtain ⟨index, value⟩ := d
  rw [globalPatch] at h
  split at h
  · cases h
  · next few => exact ⟨Nat.lt_of_not_le few, (Except.ok.inj h).symm⟩

structure Parts (b : Blueprint) where
  abbreviations : List Patch
  defaults : List Patch
  objects : List Patch
  globals : List Patch
  dictionary : Patch
  abbreviationsOf : abbreviationPatches abbreviationStringsAddress b.abbreviations =
    .ok abbreviations
  defaultsOf : WordsAt (fun number => objectsAddress + 2 * (number - 1)) b.defaults defaults
  objectsOf : objectPatches (objectsAddress + ObjectTable.defaultsLength)
    (objectsAddress + ObjectTable.defaultsLength + ObjectTable.entryLength * b.objects.length)
    b.objects = .ok objects
  globalsOf : WordsAt (fun index => globalsAddress + 2 * index) b.globals globals
  fewGlobals : ∀ d ∈ b.globals, d.1 < globalCount
  dictionaryOf : dictionaryPatch b.separators b.words = .ok dictionary

namespace Parts

def tables (parts : Parts b) : List Patch :=
  header ++ parts.abbreviations ++ parts.defaults ++ parts.objects ++ parts.globals ++
    [parts.dictionary]

def patches (parts : Parts b) (length : Nat) : List Patch :=
  parts.tables ++ [⟨codeAddress, b.code⟩, ofWord 0x1A length]

end Parts

/-- Where nothing else is placed, the patches of a blueprint are its parts and the code. -/
theorem exists_parts {ps : List Patch} (h : b.patches = .ok ps) (unplaced : b.placements = []) :
    ∃ parts : Parts b, ps = parts.tables ++ [⟨codeAddress, b.code⟩] := by
  obtain ⟨abbreviations, abbreviationsOf, h⟩ := Except.bind_eq_ok.mp h
  obtain ⟨defaults, defaultsOf, h⟩ := Except.bind_eq_ok.mp h
  obtain ⟨objects, objectsOf, h⟩ := Except.bind_eq_ok.mp h
  obtain ⟨globals, globalsOf, h⟩ := Except.bind_eq_ok.mp h
  obtain ⟨dictionary, dictionaryOf, h⟩ := Except.bind_eq_ok.mp h
  rw [unplaced] at h
  cases h
  obtain ⟨fewGlobals, globalsOf⟩ := (List.forall₂_and_left _ _).mp
    ((Except.mapM_eq_ok globalsOf).imp fun _ _ => globalPatch_eq_ok)
  refine ⟨⟨abbreviations, defaults, objects, globals, dictionary, abbreviationsOf,
    (Except.mapM_eq_ok defaultsOf).imp fun _ _ => defaultPatch_eq_ok, objectsOf, globalsOf,
    fewGlobals, dictionaryOf⟩, ?_⟩
  simp [Parts.tables]

/-! ## The places of the parts -/

namespace Parts

variable (parts : Parts b) {length i : Nat}

theorem within_header : Within 0 0x40 header := by
  unfold Within
  decide +kernel

theorem within_defaults (readable : b.Readable) :
    Within objectsAddress (objectsAddress + ObjectTable.defaultsLength) parts.defaults := by
  refine within_words parts.defaultsOf fun d mem => ?_
  have := readable.defaults d mem
  simp only [ObjectTable.defaultsLength]
  omega

/-- The objects lie between the defaults and the globals. -/
theorem within_objects :
    Within (objectsAddress + ObjectTable.defaultsLength) globalsAddress parts.objects := by
  intro p mem
  have regions := objectPatches_regions parts.objectsOf p mem
  have few := (laid_of_objectPatches parts.objectsOf (Nat.le_refl _) (Nat.le_refl _)).length_le
  simp only [ObjectTable.entryLength, objectsAddress, ObjectTable.defaultsLength,
    ObjectTable.maxProperty, globalsAddress] at *
  omega

theorem within_globals :
    Within globalsAddress (globalsAddress + 2 * globalCount) parts.globals := by
  refine within_words parts.globalsOf fun d mem => ?_
  have := parts.fewGlobals d mem
  omega

theorem abbreviations_eq_none (outside : i < abbreviationsAddress ∨
    abbreviationsAddress + 2 * AbbreviationTable.count ≤ i ∧ i < abbreviationStringsAddress ∨
    stringsAddress ≤ i) : written parts.abbreviations i = none := by
  refine written_eq_none fun p mem => ?_
  simp only [abbreviationsAddress, AbbreviationTable.count, abbreviationStringsAddress,
    stringsAddress] at outside
  have regions := abbreviation_regions parts.abbreviationsOf p mem
  simp only [abbreviationsAddress, AbbreviationTable.count, abbreviationStringsAddress,
    stringsAddress] at regions
  obtain ⟨low, high⟩ | ⟨d, -, few, address, stop⟩ := regions <;> omega

theorem dictionary_eq_none (outside : i < dictionaryAddress ∨ abbreviationStringsAddress ≤ i) :
    parts.dictionary.byte? i = none := by
  obtain ⟨keys, -, -, low, high, -⟩ := dictionaryPatch_eq_ok parts.dictionaryOf
  exact byte?_eq_none (by omega)

/-- The part of an image that a place belongs to. -/
theorem written_patches (readable : b.Readable) : written (parts.patches length) i =
    if i < 0x40 then (byte? (ofWord 0x1A length) i).or (written header i)
    else if i < 0x100 then written parts.abbreviations i
    else if i < 0x13E then written parts.defaults i
    else if i < 0x600 then written parts.objects i
    else if i < 0xA00 then written parts.globals i
    else if i < 0xB00 then parts.dictionary.byte? i
    else if i < 0xC00 then written parts.abbreviations i
    else byte? ⟨codeAddress, b.code⟩ i := by
  -- No part reaches beyond its own places.
  have header (_ : 0x40 ≤ i) : written header i = none :=
    within_header.written_eq_none (.inr ‹_›)
  have defaults (_ : i < 0x100 ∨ 0x13E ≤ i) : written parts.defaults i = none :=
    (parts.within_defaults readable).written_eq_none ‹_›
  have objects (_ : i < 0x13E ∨ 0x600 ≤ i) : written parts.objects i = none :=
    parts.within_objects.written_eq_none ‹_›
  have globals (_ : i < 0x600 ∨ 0x7E0 ≤ i) : written parts.globals i = none :=
    parts.within_globals.written_eq_none ‹_›
  have abbreviations (_ : i < 0x40 ∨ 0x100 ≤ i ∧ i < 0xB00 ∨ 0xC00 ≤ i) :
    written parts.abbreviations i = none := parts.abbreviations_eq_none ‹_›
  have dictionary (_ : i < 0xA00 ∨ 0xB00 ≤ i) : parts.dictionary.byte? i = none :=
    parts.dictionary_eq_none ‹_›
  have code (_ : i < 0x1000) : byte? ⟨codeAddress, b.code⟩ i = none := byte?_eq_none (.inl ‹_›)
  have size (_ : 0x1C ≤ i) : byte? (ofWord 0x1A length) i = none := byte?_eq_none (.inr ‹_›)
  simp only [patches, tables, written_append, written, Option.none_or]
  split_ifs
  all_goals simp (disch := omega) only [header, defaults, objects, globals, abbreviations,
    dictionary, code, size, Option.none_or, Option.or_none]

/-- The parts before the code lie in the smallest image. -/
theorem stop_le_of_mem_tables (readable : b.Readable) : ∀ p ∈ parts.tables, p.stop ≤ minSize := by
  intro p mem
  simp only [tables, List.mem_append, List.mem_singleton] at mem
  rcases mem with ((((mem | mem) | mem) | mem) | mem) | rfl
  · exact Nat.le_trans (within_header p mem).2 (by decide)
  · have regions := abbreviation_regions parts.abbreviationsOf p mem
    simp only [abbreviationsAddress, AbbreviationTable.count, stringsAddress, minSize] at *
    omega
  · exact Nat.le_trans (parts.within_defaults readable p mem).2 (by decide)
  · exact Nat.le_trans (parts.within_objects p mem).2 (by decide)
  · exact Nat.le_trans (parts.within_globals p mem).2 (by decide)
  · obtain ⟨keys, -, -, low, high, -⟩ := dictionaryPatch_eq_ok parts.dictionaryOf
    exact Nat.le_trans high (by decide)

end Parts

/-- At last an image is padded and its length is written. -/
theorem finish_spec (image : Array Byte) :
    (finish image).size = max (image.size + image.size % 2) 0x1C ∧
    ∃ length, ∀ i, (finish image).getD i 0 =
      (byte? (ofWord 0x1A length) i).getD (image.getD i 0) := by
  constructor
  · rw [finish, size_apply, Array.size_append, Array.size_replicate]
    rfl
  · refine ⟨(image ++ Array.replicate (image.size % 2) 0).size / 2, fun i => ?_⟩
    rw [finish, getD_apply, getD_append_replicate]

/-- An image is what its patches and the one for its length leave. -/
theorem exists_patches_of_image {img : Array Byte} (h : b.image = .ok img) :
    ∃ ps length size, b.patches = .ok ps ∧
      (ps.foldl apply (Array.replicate minSize 0)).size = size ∧
      img.size = max (size + size % 2) 0x1C ∧
      ∀ i, img.getD i 0 = (written (ps ++ [ofWord 0x1A length]) i).getD 0 := by
  obtain ⟨ps, patchesOf, h⟩ := Except.bind_eq_ok.mp h
  obtain ⟨size, length, bytes⟩ := finish_spec (ps.foldl apply (Array.replicate minSize 0))
  have blank (i : Nat) : (Array.replicate minSize (0 : Byte)).getD i 0 = 0 := by
    rw [Array.getD_eq_getD_getElem?, Array.getElem?_replicate]
    split <;> rfl
  rw [← Except.ok.inj h]
  refine ⟨ps, length, _, patchesOf, rfl, size, fun i => ?_⟩
  rw [bytes, getD_foldl_apply, blank, written_append]
  simp only [written, Option.none_or]
  cases byte? (ofWord 0x1A length) i <;> rfl

/-- The size of an image depends on its code only, and its bytes are those that its parts leave. -/
theorem image_eq_ok {img : Array Byte} (h : b.image = .ok img) (readable : b.Readable) :
    img.size = 2 * ((max minSize (codeAddress + b.code.length) + 1) / 2) ∧
      ∃ (parts : Parts b) (length : Nat),
        ∀ i, img.getD i 0 = (written (parts.patches length) i).getD 0 := by
  obtain ⟨ps, length, _, patchesOf, rfl, size, bytes⟩ := exists_patches_of_image h
  obtain ⟨parts, rfl⟩ := exists_parts patchesOf readable.unplaced
  have inside : (parts.tables.foldl apply (Array.replicate minSize 0)).size = minSize := by
    rw [size_foldl_apply, Array.size_replicate]
    simpa using parts.stop_le_of_mem_tables readable
  have codeStop : stop ⟨codeAddress, b.code⟩ = codeAddress + b.code.length := rfl
  refine ⟨?_, parts, length, fun i => ?_⟩
  · rw [size, List.foldl_append, List.foldl_cons, List.foldl_nil, size_apply, inside,
      codeStop, minSize]
    omega
  · rw [bytes, List.append_assoc]
    rfl

end ZMachine.Blueprint
