import ZMachine.Proofs.Blueprint.Properties
import ZMachine.Proofs.Object.Attributes
import ZMachine.Proofs.Object.Loaded

/-!
# Objects of an image

The entries of objects lie one after another, and after the last one their blocks. Nothing says how
many there are, but the first block begins where the entries end, so counting them stops there. What
is read from an entry and its block is what was written.

## Main definitions

* `Blueprint.Laid` — entries and blocks, one after another.
* `ObjectPlan.Readable` — a plan that loses nothing when it is written.
* `ObjectPlan.LoadedAs` — an object that was loaded is as it was planned.

## Main statements

* `Blueprint.laid_of_objectPatches` — objects are written so.
* `Blueprint.load_of_laid` — and read so.
-/

namespace ZMachine

namespace ObjectPlan

/-- The length of the name fits in a byte, and no property is given twice. -/
structure Readable (plan : ObjectPlan) : Prop where
  shortName : ∀ words, ZString.encode plan.name = .ok words → words.length ≤ 255
  distinct : (plan.properties.map (·.1)).Nodup

structure LoadedAs (plan : ObjectPlan) (m : Memory) (o : Object) : Prop where
  attributes : ∀ number < Attributes.count, o.attributes.has number = true ↔
    number ∈ plan.attributes
  parent : o.parent = plan.parent
  sibling : o.sibling = plan.sibling
  child : o.child = plan.child
  name : o.name = if plan.name.isEmpty then none else some plan.name
  /-- The properties come in the order of their numbers, the highest first. -/
  properties : ∃ given : List (Nat × List Byte), given.Perm plan.properties ∧
    given.Pairwise (fun d d' => d'.1 < d.1) ∧ List.Forall₂ (Property.Carries m) given o.properties

end ObjectPlan

namespace Blueprint

open Patch

variable {ps : List Patch} {o : ObjectPlan} {bytes : List Byte} {entry block : Nat}

/-! ## Writing -/

/-- An entry is written only if its attributes exist. Its bytes are attributes, links and the
pointer. -/
theorem entryBytes_eq_ok (h : entryBytes o block = .ok bytes) :
    (∀ number ∈ o.attributes, number < Attributes.count) ∧
      bytes = Word.longBytes (UInt32.ofBitVec (Attributes.ofList o.attributes)) ++
        [o.parent, o.sibling, o.child] ++ Word.toBytes [UInt16.ofNat block] := by
  rw [entryBytes] at h
  split at h
  · cases h
  · next none =>
    cases h
    refine ⟨fun number mem => ?_, by rw [Attributes.longBytes_eq]; rfl⟩
    have := List.find?_eq_none.mp none number mem
    simpa using this

/-- The first object takes the first entry and the first block; the others follow both. -/
theorem objectPatches_cons {rest : List ObjectPlan}
    (h : objectPatches entry block (o :: rest) = .ok ps) :
    ∃ fixed data others, entryBytes o block = .ok fixed ∧ propertyBlock o = .ok data ∧
      block + data.length ≤ globalsAddress ∧
      objectPatches (entry + ObjectTable.entryLength) (block + data.length) rest = .ok others ∧
      ps = ⟨entry, fixed⟩ :: ⟨block, data⟩ :: others := by
  rw [objectPatches] at h
  obtain ⟨fixed, entryOf, h⟩ := Except.bind_eq_ok.mp h
  obtain ⟨data, blockOf, h⟩ := Except.bind_eq_ok.mp h
  dsimp only at h
  split at h
  · cases h
  · next fits =>
    obtain ⟨others, after, h⟩ := Except.bind_eq_ok.mp h
    cases h
    exact ⟨fixed, data, others, entryOf, blockOf, Nat.le_of_not_lt fits, after, rfl⟩

theorem length_entryBytes (h : entryBytes o block = .ok bytes) :
    bytes.length = ObjectTable.entryLength := by
  obtain ⟨-, rfl⟩ := entryBytes_eq_ok h
  rfl

/-- Entries from `entry` on and blocks from `block` on, one after another, as far as `held`
tells. -/
inductive Laid (held : (address : Nat) → List Byte → Prop) :
    (entry block : Nat) → List ObjectPlan → Prop
  | nil (entry block : Nat) : Laid held entry block []
  | cons {entry block : Nat} {o : ObjectPlan} {rest : List ObjectPlan} {fixed data : List Byte}
      (entryOf : entryBytes o block = .ok fixed) (blockOf : propertyBlock o = .ok data)
      (fits : block + data.length ≤ globalsAddress) (heldEntry : held entry fixed)
      (heldBlock : held block data)
      (others : Laid held (entry + ObjectTable.entryLength) (block + data.length) rest) :
      Laid held entry block (o :: rest)

theorem Laid.mono {held held' : Nat → List Byte → Prop} {plans : List ObjectPlan}
    (h : Laid held entry block plans) (imp : ∀ address bytes, held address bytes →
      held' address bytes) : Laid held' entry block plans := by
  induction h with
  | nil => exact .nil _ _
  | cons entryOf blockOf fits heldEntry heldBlock _ ih =>
    exact .cons entryOf blockOf fits (imp _ _ heldEntry) (imp _ _ heldBlock) ih

/-- Objects are written among the entries and among the blocks, and nowhere else. -/
theorem objectPatches_regions {plans : List ObjectPlan}
    (h : objectPatches entry block plans = .ok ps) :
    ∀ p ∈ ps, entry ≤ p.address ∧ p.stop ≤ entry + ObjectTable.entryLength * plans.length ∨
      block ≤ p.address ∧ p.stop ≤ globalsAddress := by
  induction plans generalizing entry block ps with
  | nil =>
    cases h
    exact nofun
  | cons o rest ih =>
    obtain ⟨fixed, data, others, entryOf, blockOf, fits, after, rfl⟩ := objectPatches_cons h
    have length := length_entryBytes entryOf
    simp only [ObjectTable.entryLength, List.length_cons] at *
    intro p mem
    rcases List.mem_cons.mp mem with rfl | mem
    · simp only [stop]
      omega
    · rcases List.mem_cons.mp mem with rfl | mem
      · simp only [stop]
        omega
      · have := ih after p mem
        omega

/-- What is written for objects stays, and lies between the first entry and the globals. -/
theorem laid_of_objectPatches {plans : List ObjectPlan} {low : Nat}
    (h : objectPatches entry block plans = .ok ps) (from_low : low ≤ entry)
    (room : entry + ObjectTable.entryLength * plans.length ≤ block) :
    Laid (fun address bytes => low ≤ address ∧ address + bytes.length ≤ globalsAddress ∧
      Wrote ps address bytes) entry block plans := by
  induction plans generalizing entry block ps with
  | nil => exact .nil _ _
  | cons o rest ih =>
    obtain ⟨fixed, data, others, entryOf, blockOf, fits, after, rfl⟩ := objectPatches_cons h
    have length := length_entryBytes entryOf
    have regions := objectPatches_regions after
    simp only [ObjectTable.entryLength, List.length_cons] at *
    have laid := ih after (by omega) (by omega)
    refine .cons entryOf blockOf fits ⟨from_low, by omega, ?_⟩ ⟨by omega, fits, ?_⟩
      (laid.mono fun address bytes h => ⟨h.1, h.2.1, (h.2.2.cons _).cons _⟩)
    · refine .self _ ⟨entry, fixed⟩ fun i low high => written_eq_none fun p mem => ?_
      simp only [stop] at low high
      rcases List.mem_cons.mp mem with rfl | mem
      · exact .inl (by dsimp only; omega)
      · have := regions p mem
        omega
    · refine Wrote.cons (.self _ ⟨block, data⟩ fun i low high => written_eq_none fun p mem => ?_) _
      simp only [stop] at low high
      have := regions p mem
      omega

/-! ## Counting -/

variable {m : Memory} {plans : List ObjectPlan}

theorem length_propertyBlock (h : propertyBlock o = .ok bytes) : 2 ≤ bytes.length := by
  obtain ⟨name, records, nameOf, -, rfl⟩ := propertyBlock_eq_ok h
  have : 1 ≤ name.length := by
    obtain ⟨-, rfl⟩ | ⟨-, words, -, rfl⟩ := nameBytes_eq_ok nameOf <;> simp
  simp only [List.length_append, List.length_singleton]
  omega

/-- A block has at least two bytes, so that there are few objects. -/
theorem Laid.length_le {held : Nat → List Byte → Prop} (h : Laid held entry block plans) :
    2 * plans.length ≤ globalsAddress - block := by
  induction h with
  | nil => exact Nat.zero_le _
  | cons _ blockOf fits _ _ _ ih =>
    have := length_propertyBlock blockOf
    rw [List.length_cons]
    omega

/-- The last word of an entry points to the block. -/
theorem wordAt_pointer (entryOf : entryBytes o block = .ok bytes) (holds : m.Holds entry bytes)
    (small : block < 65536) : m.wordAt (entry + 7) = .ok (UInt16.ofNat block) ∧
      (UInt16.ofNat block).toNat = block := by
  obtain ⟨-, rfl⟩ := entryBytes_eq_ok entryOf
  refine ⟨Memory.wordAt_eq_ok.mpr (Memory.holds_append.mp holds).2, ?_⟩
  rw [UInt16.toNat_ofNat']
  omega

/-- Counting goes on while entries are left, whose blocks lie past all of them. -/
theorem countFrom_of_laid_some {room : Nat} (h : Laid m.Holds entry block plans)
    (enough : plans.length ≤ room) {first : Nat}
    (last : entry + ObjectTable.entryLength * plans.length = first) (later : first ≤ block) :
    ObjectTable.countFrom m room entry (some first) = .ok plans.length := by
  induction h generalizing room with
  | nil entry block =>
    cases room with
    | zero => rfl
    | succ room =>
      have stops : (some first).any (· ≤ entry) = true := by simpa using last.ge
      rw [ObjectTable.countFrom, if_pos stops]
      rfl
  | @cons entry block o rest fixed data entryOf blockOf fits heldEntry heldBlock others ih =>
    obtain ⟨room, rfl⟩ : ∃ k, room = k + 1 := ⟨room - 1, by simp at enough; omega⟩
    simp only [List.length_cons, ObjectTable.entryLength, globalsAddress] at *
    have goes : ¬ (some first).any (· ≤ entry) = true := by simp; omega
    obtain ⟨pointer, value⟩ := wordAt_pointer entryOf heldEntry (by omega)
    have inside : ¬ (UInt16.ofNat block).toNat < entry + ObjectTable.entryLength := by
      rw [ObjectTable.entryLength]
      omega
    have lowest : (some first).elim (UInt16.ofNat block).toNat (min (UInt16.ofNat block).toNat) =
        first := by
      rw [Option.elim_some, value]
      omega
    rw [ObjectTable.countFrom, if_neg goes]
    refine Except.bind_eq_ok.mpr ⟨_, pointer, ?_⟩
    dsimp only
    rw [if_neg inside, lowest]
    exact Except.bind_eq_ok.mpr ⟨_, ih (by omega) (by omega) (by omega), rfl⟩

/-- The entries of a table are counted. Without objects, there is no entry to be seen, because no
block is pointed to. -/
theorem countFrom_of_laid {room : Nat} (h : Laid m.Holds entry block plans)
    (enough : plans.length < room) (last : entry + ObjectTable.entryLength * plans.length = block)
    (empty : plans = [] → m.wordAt (entry + 7) = .ok 0) :
    ObjectTable.countFrom m room entry none = .ok plans.length := by
  obtain ⟨room, rfl⟩ : ∃ k, room = k + 1 := ⟨room - 1, by omega⟩
  have goes : ¬ (none : Option Nat).any (· ≤ entry) = true := by simp
  rw [ObjectTable.countFrom, if_neg goes]
  cases h with
  | nil =>
    refine Except.bind_eq_ok.mpr ⟨_, empty rfl, ?_⟩
    exact if_pos (Nat.succ_pos _)
  | cons entryOf blockOf fits heldEntry heldBlock others =>
    have : block < 65536 := Nat.lt_of_le_of_lt (Nat.le_of_add_right_le fits) (by decide)
    obtain ⟨pointer, value⟩ := wordAt_pointer entryOf heldEntry this
    rw [List.length_cons, ObjectTable.entryLength] at last
    have inside : ¬ (UInt16.ofNat block).toNat < entry + ObjectTable.entryLength := by
      rw [value, ObjectTable.entryLength]
      omega
    refine Except.bind_eq_ok.mpr ⟨_, pointer, ?_⟩
    dsimp only
    rw [if_neg inside, Option.elim_none, value]
    rw [List.length_cons] at enough
    refine Except.bind_eq_ok.mpr ⟨_, countFrom_of_laid_some others (by omega) ?_ ?_, rfl⟩
    · rw [ObjectTable.entryLength]
      omega
    · omega

/-! ## Reading -/

variable {table : Nat} {fixed data : List Byte} (abbreviations : AbbreviationTable)

/-- An entry that lies in memory is read back as its object was planned. -/
theorem readEntry_of_holds {id : Nat} (entryOf : entryBytes o block = .ok fixed)
    (small : block < 65536) (holds : m.Holds (ObjectTable.entryAt table id) fixed) :
    ∃ stop, ObjectTable.readEntry.runFrom m (ObjectTable.entryAt table id) =
      .ok ((Attributes.ofList o.attributes, o.parent, o.sibling, o.child, block), stop) := by
  obtain ⟨-, value⟩ := wordAt_pointer entryOf holds small
  obtain ⟨-, rfl⟩ := entryBytes_eq_ok entryOf
  refine ⟨_, Scan.runFrom_eq_ok.mpr ((ObjectTable.reads_readEntry m _ _ _).mpr
    ⟨_, ⟨UInt16.ofNat block, value.symm, rfl⟩, holds, rfl⟩)⟩

/-- The name of a block, the length of which stands before it. -/
theorem readName_of_holds {name : String} (short : ∀ words, ZString.encode name = .ok words →
    words.length ≤ 255) (nameOf : nameBytes name = .ok bytes) (holds : m.Holds block bytes) :
    ∃ count : Byte, m.byteAt block = .ok count ∧ bytes.length = 1 + 2 * count.toNat ∧
      if count.toNat = 0 then name.isEmpty = true
      else name.isEmpty = false ∧ ZString.read m abbreviations (block + 1) = .ok name := by
  obtain ⟨empty, rfl⟩ | ⟨nonempty, words, written, rfl⟩ := nameBytes_eq_ok nameOf
  · exact ⟨0, Memory.byteAt_eq_ok.mpr holds, rfl, empty⟩
  · have value : (UInt8.ofNat words.length).toNat = words.length := by
      have := short words written
      rw [UInt8.toNat_ofNat']
      omega
    have some : words.length ≠ 0 := by
      intro none
      obtain ⟨zs, -, rfl⟩ := Except.map_eq_ok.mp written
      exact packZChars_ne_nil zs (List.length_eq_zero_iff.mp none)
    obtain ⟨inside, count, text⟩ := Memory.holds_cons.mp holds
    refine ⟨_, Memory.byteAt_eq_ok.mpr ⟨inside, count, trivial⟩, ?_, ?_⟩
    · rw [List.length_cons, Word.length_toBytes, value, Nat.add_comm]
    · rw [value, if_neg some]
      exact ⟨nonempty, (ZString.read_of_holds written text abbreviations).1⟩

/-- An object whose entry and block are held is read as planned. -/
theorem objectAt_of_holds {id : Nat} (readable : o.Readable)
    (entryOf : entryBytes o block = .ok fixed) (blockOf : propertyBlock o = .ok data)
    (small : block < 65536) (heldEntry : m.Holds (ObjectTable.entryAt table id) fixed)
    (heldBlock : m.Holds block data) :
    ∃ object, ObjectTable.objectAt m abbreviations table id = .ok object ∧ o.LoadedAs m object := by
  obtain ⟨stop, read⟩ := readEntry_of_holds entryOf small heldEntry
  obtain ⟨name, records, nameOf, recordsOf, rfl⟩ := propertyBlock_eq_ok blockOf
  obtain ⟨heldName, heldRecords⟩ := Memory.holds_append.mp heldBlock
  obtain ⟨count, counted, length, readName⟩ :=
    readName_of_holds abbreviations readable.shortName nameOf heldName
  rw [length, ← Nat.add_assoc] at heldRecords
  obtain ⟨properties, found, carried⟩ := readRecords_of_holds recordsOf heldRecords
  have descending := pairwise_descending readable.distinct
  let object : Object := ⟨Attributes.ofList o.attributes, o.parent, o.sibling, o.child, block,
    if o.name.isEmpty then none else some o.name, properties⟩
  refine ⟨object, ObjectTable.objectAt_eq_ok.mpr ⟨stop, count, properties, read, counted, ?_, found,
    (foldl_insert_of_carries carried descending).symm⟩, ?_⟩
  · split at readName
    · next none =>
      rw [if_pos none]
      exact if_pos readName
    · next some =>
      rw [if_neg some]
      exact ⟨o.name, readName.2, if_neg (by simp [readName.1])⟩
  · exact {
      attributes := fun number => Attributes.has_ofList (entryBytes_eq_ok entryOf).1
      parent := rfl
      sibling := rfl
      child := rfl
      name := rfl
      properties := ⟨_, List.mergeSort_perm _ _, descending, carried⟩ }

/-- Each object that was laid out is loaded as planned. -/
theorem objectAt_of_laid {index : Nat} (first : Nat) (readable : ∀ o ∈ plans, o.Readable)
    (h : Laid m.Holds (ObjectTable.entryAt table (first + 1)) block plans)
    (found : plans[index]? = some o) :
    ∃ object, ObjectTable.objectAt m abbreviations table (first + index + 1) = .ok object ∧
      o.LoadedAs m object := by
  induction plans generalizing first index block with
  | nil => cases found
  | cons o' rest ih =>
    cases h with
    | cons entryOf blockOf fits heldEntry heldBlock others =>
      cases index with
      | zero =>
        cases found
        exact objectAt_of_holds abbreviations (readable o List.mem_cons_self) entryOf blockOf
          (Nat.lt_of_le_of_lt (Nat.le_of_add_right_le fits) (by decide)) heldEntry heldBlock
      | succ index =>
        have next : ObjectTable.entryAt table (first + 1) + ObjectTable.entryLength =
            ObjectTable.entryAt table (first + 1 + 1) := by
          rw [ObjectTable.entryAt, ObjectTable.entryAt, Nat.add_sub_cancel, Nat.add_sub_cancel,
            Nat.add_one_mul, Nat.add_assoc _ (first * _)]
        rw [next] at others
        have := ih (first + 1) (fun o mem => readable o (List.mem_cons_of_mem o' mem)) others found
        rwa [Nat.add_assoc first 1 index, Nat.add_comm 1 index] at this

/-- A table whose entries and blocks are held is read as planned. -/
theorem load_of_laid (readable : ∀ o ∈ plans, o.Readable)
    (h : Laid m.Holds (table + ObjectTable.defaultsLength)
      (table + ObjectTable.defaultsLength + ObjectTable.entryLength * plans.length) plans)
    (empty : plans = [] → m.wordAt (table + ObjectTable.defaultsLength + 7) = .ok 0) :
    ∃ t, ObjectTable.load m table abbreviations = .ok t ∧ t.address = table ∧
      t.size = plans.length ∧ ∀ index o, plans[index]? = some o →
        ∃ object, t.get? (index + 1) = some object ∧ o.LoadedAs m object := by
  have few := h.length_le
  have enough : plans.length < ObjectTable.maxObjects := by
    simp only [ObjectTable.entryLength, globalsAddress, ObjectTable.maxObjects] at few ⊢
    omega
  have counted := countFrom_of_laid h enough rfl empty
  have start : ObjectTable.entryAt table (0 + 1) = table + ObjectTable.defaultsLength := by
    simp [ObjectTable.entryAt]
  have each {index : Nat} {o : ObjectPlan} (found : plans[index]? = some o) :=
    objectAt_of_laid abbreviations 0 readable (start ▸ h) found
  obtain ⟨objects, read⟩ := Except.exists_mapM_eq_ok (l := List.range plans.length)
    (f := fun i => ObjectTable.objectAt m abbreviations table (i + 1)) fun index mem => by
      obtain ⟨object, read, -⟩ := each (List.getElem?_eq_getElem (List.mem_range.mp mem))
      rw [Nat.zero_add] at read
      exact ⟨object, read⟩
  have found := Except.mapM_eq_ok read
  have length : objects.length = plans.length := by simpa using found.length_eq.symm
  refine ⟨⟨table, objects.toArray⟩, ?_, rfl, length, fun index o at_index => ?_⟩
  · exact Except.bind_eq_ok.mpr ⟨_, counted, Except.bind_eq_ok.mpr ⟨_, read, rfl⟩⟩
  · obtain ⟨object, read, loaded⟩ := each at_index
    have inside : index < objects.length := length ▸ (List.getElem?_eq_some_iff.mp at_index).1
    have same := (List.forall₂_iff_get.mp found).2 index (by simpa [length] using inside) inside
    rw [Nat.zero_add] at read
    simp only [List.get_eq_getElem, List.getElem_range, read, Except.ok.injEq] at same
    exact ⟨object, by simp [ObjectTable.get?, inside, same], loaded⟩

end Blueprint
end ZMachine
