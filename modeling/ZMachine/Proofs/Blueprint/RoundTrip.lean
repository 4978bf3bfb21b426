import ZMachine.Machine.Variable
import ZMachine.Proofs.Blueprint.Parts
import ZMachine.Proofs.Machine.Loaded

/-!
# Loading what a blueprint describes

Each part of an image is read as it was written, and the header says where the parts lie. So the
machine that is loaded from the image of a blueprint has all that the blueprint describes.

## Main definitions

* `Blueprint.LoadedAs` — a machine has all that a blueprint describes.

## Main statements

* `Blueprint.load_image` — the image of a blueprint is loaded as the blueprint describes it.
-/

namespace ZMachine.Blueprint

open Patch

variable {b : Blueprint}

/-- The machine has the objects of the blueprint in their order, and of all that is given for a
default property, a global or an abbreviation, the last. -/
structure LoadedAs (b : Blueprint) (machine : Machine) : Prop where
  size : machine.objects.size = b.objects.length
  objects : ∀ index plan, b.objects[index]? = some plan →
    ∃ o, machine.objects.get? (index + 1) = some o ∧ plan.LoadedAs machine.memory o
  defaults : ∀ number, 0 < number → number ≤ ObjectTable.maxProperty →
    machine.objects.defaultValue machine.memory number =
      .ok ((b.defaults.reverse.lookup number).getD 0)
  globals : ∀ index < globalCount,
    (Machine.readGlobal index).run machine = .ok ((b.globals.reverse.lookup index).getD 0) machine
  abbreviations : ∀ index text, b.abbreviations.reverse.lookup index = some text →
    machine.abbreviations.get machine.memory index = .ok text

/-! ## Reading the parts -/

namespace Parts

variable (parts : Parts b)

structure MakeUp (length : Nat) (m : Memory) : Prop where
  large : minSize ≤ m.size
  get : ∀ i, m.get i = (written (parts.patches length) i).getD 0

namespace MakeUp

variable {parts : Parts b} {length : Nat} {m : Memory} (made : parts.MakeUp length m)
include made

/-- What the patches leave from an address on lies in the image, if nothing covers it later. -/
theorem holds {ps : List Patch} {address : Nat} {bytes : List Byte} (wrote : Wrote ps address bytes)
    (inside : address + bytes.length ≤ minSize)
    (same : ∀ i, address ≤ i → i < address + bytes.length →
      written (parts.patches length) i = written ps i) : m.Holds address bytes :=
  (wrote.congr same).holds made.get (Nat.le_trans inside made.large)

variable (readable : b.Readable)
include readable

theorem get_header {i : Nat} (low : i < 0x1A) :
    m.get i = [3, 0, 0, 1, 0x10, 0, 0x10, 0, 0x0A, 0, 0x01, 0, 0x06, 0, 0x09, 0, 0, 0,
      50, 54, 49, 48, 49, 56, 0, 0x40].getD i 0 := by
  have bytes : ∀ i < 0x1A, (written header i).getD 0 = [3, 0, 0, 1, 0x10, 0, 0x10, 0, 0x0A, 0,
      0x01, 0, 0x06, 0, 0x09, 0, 0, 0, 50, 54, 49, 48, 49, 56, 0, 0x40].getD i 0 := by
    decide +kernel
  rw [made.get, parts.written_patches readable, if_pos (by omega),
    byte?_eq_none (.inl low), Option.none_or, bytes i low]

/-- The header of an image says where its parts lie. -/
theorem exists_header (fits : m.size ≤ Header.maxFileLength) :
    ∃ h, Header.parse m = .ok h ∧ h.dictionary = dictionaryAddress ∧ h.objects = objectsAddress ∧
      h.globals = globalsAddress ∧ h.abbreviations = abbreviationsAddress := by
  have at_place (place : Nat) (low : place + 1 < 0x1A) :=
    And.intro (made.get_header readable (Nat.lt_of_succ_lt low)) (made.get_header readable low)
  have version : (Header.fields m).version = 3 := made.get_header readable (by decide)
  have high : (Header.fields m).highBase = codeAddress := by
    simp only [Header.fields, at_place 0x04 (by decide)]
    rfl
  have limit : (Header.fields m).dynamicLimit = dynamicLimit := by
    simp only [Header.fields, at_place 0x0E (by decide)]
    rfl
  have short : (Header.fields m).fileLength ≤ Header.maxFileLength := by
    have := (Word.ofBytes (m.get 0x1A) (m.get (0x1A + 1))).toNat_lt
    simp only [Header.fields, Header.maxFileLength]
    omega
  have long : Header.length ≤ m.size := Nat.le_trans (by decide) made.large
  have none : (Header.fields m).fault? m.size = none := by
    rw [Header.fault?, version, high, limit, if_neg (by decide), if_neg (by decide),
      if_neg (by decide), if_neg (by omega)]
  refine ⟨_, Header.parse_eq_ok.mpr ⟨long, Header.read_of_long long, none⟩, ?_, ?_, ?_, ?_⟩
  · simp only [Header.fields, at_place 0x08 (by decide)]
    rfl
  · simp only [Header.fields, at_place 0x0A (by decide)]
    rfl
  · simp only [Header.fields, at_place 0x0C (by decide)]
    rfl
  · simp only [Header.fields, at_place 0x18 (by decide)]
    rfl

/-- The table of objects is loaded with every object as planned. -/
theorem load_objects (abbreviations : AbbreviationTable) :
    ∃ t, ObjectTable.load m objectsAddress abbreviations = .ok t ∧ t.address = objectsAddress ∧
      t.size = b.objects.length ∧ ∀ index plan, b.objects[index]? = some plan →
        ∃ o, t.get? (index + 1) = some o ∧ plan.LoadedAs m o := by
  have here {i : Nat} (low : objectsAddress + ObjectTable.defaultsLength ≤ i)
      (high : i < globalsAddress) :
      written (parts.patches length) i = written parts.objects i := by
    simp only [objectsAddress, ObjectTable.defaultsLength, ObjectTable.maxProperty,
      globalsAddress] at low high
    rw [parts.written_patches readable, if_neg (by omega), if_neg (by omega), if_neg (by omega),
      if_pos (by omega)]
  have laid := laid_of_objectPatches parts.objectsOf (Nat.le_refl _) (Nat.le_refl _)
  have held := laid.mono fun address bytes h => made.holds h.2.2 (Nat.le_trans h.2.1 (by decide))
    fun i after before => here (Nat.le_trans h.1 after) (Nat.lt_of_lt_of_le before h.2.1)
  refine load_of_laid abbreviations readable.objects held fun nil => ?_
  have noObjects : parts.objects = [] := by
    have given := parts.objectsOf
    rw [nil] at given
    exact (Except.ok.inj given).symm
  have inside : objectsAddress + ObjectTable.defaultsLength + 7 + 2 ≤ m.size :=
    Nat.le_trans (by decide) made.large
  rw [Memory.wordAt_of_le inside, made.get, made.get, here (by omega) (by decide),
    here (by omega) (by decide), noObjects]
  rfl

theorem load_dictionary (abbreviations : AbbreviationTable) :
    ∃ d, Dictionary.load m dictionaryAddress abbreviations = .ok d := by
  obtain ⟨keys, -, -, low, high, -⟩ := dictionaryPatch_eq_ok parts.dictionaryOf
  refine (Blueprint.load_dictionary parts.dictionaryOf ?_ abbreviations).imp
    fun d loaded => loaded.1
  refine made.holds (Wrote.self [] parts.dictionary fun _ _ _ => rfl)
    (Nat.le_trans high (by decide)) fun i after before => ?_
  rw [stop] at high
  simp only [dictionaryAddress, abbreviationStringsAddress] at low high
  rw [parts.written_patches readable, if_neg (by omega), if_neg (by omega), if_neg (by omega),
    if_neg (by omega), if_neg (by omega), if_pos (by omega)]
  rfl

/-- A default that is not given is 0, and of several the last counts. -/
theorem wordAt_default {number : Nat} (pos : 0 < number)
    (few : number ≤ ObjectTable.maxProperty) :
    m.wordAt (objectsAddress + 2 * (number - 1)) =
      .ok ((b.defaults.reverse.lookup number).getD 0) := by
  have large := made.large
  simp only [minSize, ObjectTable.maxProperty] at large few
  have here {i : Nat} (low : 0x100 ≤ i) (high : i < 0x13E) :
      written (parts.patches length) i = written parts.defaults i := by
    rw [parts.written_patches readable, if_neg (by omega), if_neg (by omega), if_pos high]
  have word := word_of_words parts.defaultsOf number fun d mem ne => by
    have := readable.defaults d mem
    omega
  simp only [objectsAddress] at word ⊢
  rw [Memory.wordAt_of_le (by omega), made.get, made.get, here (by omega) (by omega),
    here (by omega) (by omega), word]

/-- A global that is not given is 0, and of several the last counts. -/
theorem wordAt_global {index : Nat} (few : index < globalCount) :
    m.wordAt (globalsAddress + 2 * index) = .ok ((b.globals.reverse.lookup index).getD 0) := by
  have large := made.large
  simp only [minSize, globalCount] at large few
  have here {i : Nat} (low : 0x600 ≤ i) (high : i < 0x7E0) :
      written (parts.patches length) i = written parts.globals i := by
    rw [parts.written_patches readable, if_neg (by omega), if_neg (by omega), if_neg (by omega),
      if_neg (by omega), if_pos (by omega)]
  have word := word_of_words parts.globalsOf index fun d mem ne => by omega
  simp only [globalsAddress] at word ⊢
  rw [Memory.wordAt_of_le (by omega), made.get, made.get, here (by omega) (by omega),
    here (by omega) (by omega), word]

/-- The last text given for an abbreviation is read back. -/
theorem get_abbreviation {index : Nat} {text : String}
    (last : b.abbreviations.reverse.lookup index = some text) :
    AbbreviationTable.get ⟨abbreviationsAddress⟩ m index = .ok text := by
  obtain ⟨few, words, target, written, even, low, high, pointer, string⟩ :=
    wroteAbbreviation parts.abbreviationsOf rfl (Nat.le_refl _) last
  simp only [abbreviationsAddress, AbbreviationTable.count, abbreviationStringsAddress,
    stringsAddress] at few low high pointer
  have here {i : Nat} (inside : 0x40 ≤ i ∧ i < 0x100 ∨ 0xB00 ≤ i ∧ i < 0xC00) :
      Patch.written (parts.patches length) i = Patch.written parts.abbreviations i := by
    rw [parts.written_patches readable, if_neg (by omega)]
    split_ifs <;> first | rfl | omega
  have pointed := made.holds pointer (by simp [minSize]; omega) fun i after before =>
    here (by simp at before; omega)
  have held := made.holds string (by simp [minSize]; omega) fun i after before =>
    here (by simp at before; omega)
  have value : 2 * (UInt16.ofNat (target / 2)).toNat = target := by
    rw [UInt16.toNat_ofNat']
    omega
  obtain ⟨isText, pieces⟩ := ZString.encode_spec written
  refine Except.bind_eq_ok.mpr ⟨target, Except.map_eq_ok.mpr
    ⟨_, Memory.wordAt_eq_ok.mpr pointed, value⟩, ?_⟩
  rw [ZString.maxDepth, ZString.readWithin_of_holds isText pieces held]
  exact congrArg Except.ok String.ofList_toList

end MakeUp

end Parts

/-! ## The image as a whole -/

/-- A blueprint that can be laid out in a story of the allowed size gives a story that loads, and
the machine has all that the blueprint describes. -/
theorem load_image {img : Array Byte} (readable : b.Readable) (laidOut : b.image = .ok img)
    (fits : img.size ≤ Header.maxFileLength) (random : Random) :
    ∃ machine, Machine.load ⟨img⟩ random = .ok machine ∧ machine.memory = ⟨img⟩ ∧
      b.LoadedAs machine := by
  obtain ⟨size, parts, length, bytes⟩ := image_eq_ok laidOut readable
  have made : parts.MakeUp length ⟨img⟩ := ⟨by change minSize ≤ img.size; omega, bytes⟩
  obtain ⟨h, parsed, dictionaryAt, objectsAt, globalsAt, abbreviationsAt⟩ :=
    made.exists_header readable fits
  obtain ⟨t, loadedObjects, address, size, objects⟩ :=
    made.load_objects readable ⟨h.abbreviations⟩
  obtain ⟨d, loadedWords⟩ := made.load_dictionary readable ⟨h.abbreviations⟩
  rw [← objectsAt] at loadedObjects
  rw [← dictionaryAt] at loadedWords
  refine ⟨Machine.atStart ⟨img⟩ h t d random,
    Machine.load_iff.mpr ⟨h, t, d, parsed, loadedObjects, loadedWords, rfl⟩, rfl, ?_⟩
  exact {
    size := size
    objects := objects
    defaults := by
      intro number pos few
      have given : ObjectTable.requireProperty number = .ok () := if_pos ⟨pos, few⟩
      change ObjectTable.defaultValue t ⟨img⟩ number = _
      rw [ObjectTable.defaultValue, given, address]
      exact made.wordAt_default readable pos few
    globals := by
      intro index few
      have word := made.wordAt_global readable few
      rw [← globalsAt] at word
      change EStateM.run (monadLift (Memory.wordAt ⟨img⟩ (h.globals + 2 * index)) : MachineM Word)
        _ = _
      rw [EStateM.run_lift, word]
    abbreviations := by
      intro index text last
      change AbbreviationTable.get ⟨h.abbreviations⟩ ⟨img⟩ index = .ok text
      rw [abbreviationsAt]
      exact made.get_abbreviation readable last }

/-- A lamp in a room. The first of two values for a default, for a global and for an abbreviation is
overridden, and the key of a word ends in the midst of a character. -/
def lampBlueprint : Blueprint where
  objects := [⟨"", [], 0, 0, 2, []⟩, ⟨"a lamp", [3, 31], 1, 0, 0, [(5, [7]), (9, [1, 2])]⟩]
  defaults := [(31, 10), (31, 11)]
  globals := [(239, 1), (239, 2)]
  abbreviations := [(95, "the "), (95, "of ")]
  separators := [44]
  words := ["lamp", "lamé"]
  code := [0xBA]
  placements := []

theorem readable_lampBlueprint : lampBlueprint.Readable := by
  have short : ∀ o ∈ lampBlueprint.objects,
      (ZString.encode o.name).toOption.all (·.length ≤ 255) = true := by
    decide +kernel
  have distinct : ∀ o ∈ lampBlueprint.objects, (o.properties.map (·.1)).Nodup := by decide
  refine ⟨rfl, by decide, fun o mem => ⟨fun words written => ?_, distinct o mem⟩⟩
  have := short o mem
  rw [written] at this
  exact of_decide_eq_true this

theorem exists_patches_lampBlueprint : ∃ ps, lampBlueprint.patches = .ok ps := by
  -- The kernel does not open the two sorts, so that their results are put in first.
  have sorted : ([(5, [7]), (9, [1, 2])] : List (Nat × List Byte)).mergeSort
      (fun d d' => d.1 ≥ d'.1) = [(9, [1, 2]), (5, [7])] := by simp [List.mergeSort]
  have keys : ["lamp", "lamé"].mapM keyOf = .ok [1154667685, 1154651335] := by rfl
  have sortedKeys : ([1154667685, 1154651335] : List UInt32).mergeSort
      (fun a b => a ≤ b) = [1154651335, 1154667685] := by simp [List.mergeSort]
  have goOn (ks : List UInt32) (f : List UInt32 → Except BlueprintFault Patch) :
      Except.ok ks >>= f = f ks := rfl
  refine Except.exists_eq_ok_of_isOk ?_
  simp only [patches, lampBlueprint, objectPatches, propertyBlock, sorted, List.mergeSort_nil,
    dictionaryPatch, keys, goOn, sortedKeys]
  decide +kernel

theorem load_image_lampBlueprint :
    lampBlueprint.Readable ∧ ∃ img, lampBlueprint.image = .ok img ∧
      img.size ≤ Header.maxFileLength ∧
      ∃ machine, Machine.load ⟨img⟩ (Random.predictable 0) = .ok machine ∧
        machine.memory = ⟨img⟩ ∧ lampBlueprint.LoadedAs machine := by
  obtain ⟨ps, patchesOf⟩ := exists_patches_lampBlueprint
  have laidOut : lampBlueprint.image = .ok (finish (ps.foldl apply (Array.replicate minSize 0))) :=
    Except.bind_eq_ok.mpr ⟨ps, patchesOf, rfl⟩
  have readable := readable_lampBlueprint
  have fits := (image_eq_ok laidOut readable).1.trans_le (by decide : _ ≤ Header.maxFileLength)
  exact ⟨readable, _, laidOut, fits, load_image readable laidOut fits _⟩

end ZMachine.Blueprint
