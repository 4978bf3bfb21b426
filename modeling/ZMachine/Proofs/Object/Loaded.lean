import ZMachine.Proofs.Object.Store
import ZMachine.Proofs.Scan

/-!
# Loaded tables

A table that was read from memory holds no more objects than a byte can number, and the entry of
each of them lies in that memory.

## Main statements

* `ObjectTable.countFrom_eq_succ` — what is known of an entry that is counted.
* `ObjectTable.objectAt_eq_ok` — what is read for one object.
* `ObjectTable.load_eq_ok` — which objects a loaded table holds.
* `ObjectTable.fits_of_load` — a loaded table fits the memory that it was loaded from.
-/

namespace ZMachine

namespace ObjectTable

variable {m : Memory} {table : Nat} {abbreviations : AbbreviationTable} {t : ObjectTable}

def entryLayout : Layout (Attributes × Byte × Byte × Byte × Nat) :=
  fun _ (attributes, parent, sibling, child, propertiesAddress) bytes =>
    ∃ pointer : Word, propertiesAddress = pointer.toNat ∧
      bytes = Word.longBytes (UInt32.ofBitVec attributes) ++ [parent, sibling, child] ++
        [Word.highByte pointer, Word.lowByte pointer]

/-- An entry is read as it is laid out. -/
theorem reads_readEntry : readEntry.Reads entryLayout := by
  refine Scan.Reads.congr (.bind .long fun attributes => .bind .byte fun parent =>
    .bind .byte fun sibling => .bind .byte fun child => .bind .word fun pointer => .pure _) ?_
  rintro start ⟨attributes, parent, sibling, child, propertiesAddress⟩ bytes
  simp [Layout.andThen, Layout.long, Layout.byte, Layout.word, Layout.nothing, entryLayout]
  constructor
  · rintro ⟨long, pointer, ⟨rfl, rfl⟩, rfl⟩
    exact ⟨pointer, rfl, rfl⟩
  · rintro ⟨pointer, rfl, rfl⟩
    exact ⟨⟨attributes⟩, pointer, ⟨rfl, rfl⟩, rfl⟩

theorem length_entryLayout {start : Nat} {e : Attributes × Byte × Byte × Byte × Nat}
    {bytes : List Byte} (h : entryLayout start e bytes) : bytes.length = entryLength := by
  obtain ⟨pointer, -, rfl⟩ := h
  rfl

/-- An entry that is counted begins before all blocks met so far and points past its own end. -/
theorem countFrom_eq_succ {room address count : Nat} {lowest : Option Nat}
    (h : countFrom m room address lowest = .ok (count + 1)) :
    ∃ left block, room = left + 1 ∧ (∀ low ∈ lowest, address < low) ∧
      m.wordAt (address + 7) = .ok block ∧ address + entryLength ≤ block.toNat ∧
      countFrom m left (address + entryLength)
        (some (lowest.elim block.toNat (min block.toNat))) = .ok count := by
  cases room with
  | zero => cases h
  | succ left =>
    rw [countFrom] at h
    split at h
    · cases h
    · next before =>
      obtain ⟨block, read, h⟩ := Except.bind_eq_ok.mp h
      dsimp only at h
      split at h
      · cases h
      · next past =>
        obtain ⟨rest, others, h⟩ := Except.bind_eq_ok.mp h
        cases h
        refine ⟨left, block, rfl, fun low met => ?_, read, Nat.le_of_not_lt past, others⟩
        cases met
        simpa using before

/-- No more entries are counted than there is room for. -/
theorem countFrom_le {room address count : Nat} {lowest : Option Nat}
    (h : countFrom m room address lowest = .ok count) : count ≤ room := by
  induction count generalizing room address lowest with
  | zero => exact Nat.zero_le room
  | succ count ih =>
    obtain ⟨left, _, rfl, -, -, -, others⟩ := countFrom_eq_succ h
    exact Nat.succ_le_succ (ih others)

/-- An object is read from its entry and from the block that this points to. -/
theorem objectAt_eq_ok {id : Nat} {o : Object} :
    objectAt m abbreviations table id = .ok o ↔
      ∃ stop words records,
        readEntry.runFrom m (entryAt table id) =
          .ok ((o.attributes, o.parent, o.sibling, o.child, o.propertiesAddress), stop) ∧
        m.byteAt o.propertiesAddress = .ok words ∧
        (if words.toNat = 0 then o.name = none
          else ∃ text, ZString.read m abbreviations (o.propertiesAddress + 1) = .ok text ∧
            o.name = some text) ∧
        Property.readRecords m (o.propertiesAddress + 1 + 2 * words.toNat) = .ok records ∧
        o.properties = records.foldl Property.insert [] := by
  obtain ⟨attributes, parent, sibling, child, block, name, properties⟩ := o
  rw [objectAt, Except.bind_eq_ok]
  constructor
  · rintro ⟨⟨entry, stop⟩, readEntry, rest⟩
    obtain ⟨words, readWords, rest⟩ := Except.bind_eq_ok.mp rest
    dsimp only at readWords rest
    split at rest
    · next none =>
      obtain ⟨_, ⟨⟩, rest⟩ := Except.bind_eq_ok.mp rest
      obtain ⟨records, readRecords, rest⟩ := Except.bind_eq_ok.mp rest
      cases rest
      exact ⟨stop, words, records, readEntry, readWords, by rw [if_pos none], readRecords, rfl⟩
    · next some =>
      obtain ⟨name, readName, rest⟩ := Except.bind_eq_ok.mp rest
      obtain ⟨records, readRecords, rest⟩ := Except.bind_eq_ok.mp rest
      obtain ⟨text, readText, rfl⟩ := Except.map_eq_ok.mp readName
      cases rest
      refine ⟨stop, words, records, readEntry, readWords, ?_, readRecords, rfl⟩
      rw [if_neg some]
      exact ⟨text, readText, rfl⟩
  · rintro ⟨stop, words, records, readEntry, readWords, readName, readRecords, rfl⟩
    refine ⟨_, readEntry, Except.bind_eq_ok.mpr ⟨words, readWords, ?_⟩⟩
    dsimp only at readName readRecords ⊢
    split at readName
    · next none =>
      subst readName
      rw [if_pos none]
      exact Except.bind_eq_ok.mpr ⟨_, rfl, Except.bind_eq_ok.mpr ⟨records, readRecords, rfl⟩⟩
    · next some =>
      obtain ⟨text, readText, rfl⟩ := readName
      rw [if_neg some]
      exact Except.bind_eq_ok.mpr ⟨_, Except.map_eq_ok.mpr ⟨text, readText, rfl⟩,
        Except.bind_eq_ok.mpr ⟨records, readRecords, rfl⟩⟩

/-- The objects of a loaded table are the ones that its entries and their blocks describe. -/
theorem load_eq_ok (h : load m table abbreviations = .ok t) :
    t.address = table ∧ t.size ≤ maxObjects ∧
      ∀ id, t.Has id → ∃ o, t.get? id = some o ∧ objectAt m abbreviations table id = .ok o := by
  obtain ⟨count, counted, h⟩ := Except.bind_eq_ok.mp h
  obtain ⟨objects, read, h⟩ := Except.bind_eq_ok.mp h
  cases h
  have each := Except.mapM_eq_ok read
  have length : objects.length = count := by simpa using each.length_eq.symm
  refine ⟨rfl, ?_, fun id has => ?_⟩
  · simpa [size, length] using countFrom_le counted
  · obtain ⟨index, rfl⟩ := Nat.exists_eq_add_one.mpr has.1
    have inside : index < objects.length := has.2
    refine ⟨objects[index], by simp [get?, inside], ?_⟩
    simpa using List.forall₂_iff_get.mp each |>.2 index (by simpa [length] using inside) inside

/-- The objects of a table are those that its entries tell. -/
theorem objectAt_of_load {id : Nat} {o : Object} (h : load m table abbreviations = .ok t)
    (found : t.get? id = some o) : objectAt m abbreviations table id = .ok o := by
  obtain ⟨-, -, objects⟩ := load_eq_ok h
  obtain ⟨o', found', read⟩ := objects id (has_of_get? found)
  rwa [Option.some.inj (found.symm.trans found')]

/-- The entries of a table that was loaded lie in memory. -/
theorem fits_of_load (h : load m table abbreviations = .ok t) : ObjectStore.Fits ⟨m, t⟩ := by
  obtain ⟨address, size_le, objects⟩ := load_eq_ok h
  refine ⟨size_le, fun id has => ?_⟩
  obtain ⟨o, -, read⟩ := objects id has
  obtain ⟨⟨entry, stop⟩, entryRead, -⟩ := Except.bind_eq_ok.mp read
  obtain ⟨bytes, layout, holds, -⟩ := (reads_readEntry m _ entry stop).mp
    (Scan.runFrom_eq_ok.mp entryRead)
  have length := length_entryLayout layout
  have inside := holds.end_le fun nil => by simp [nil, entryLength] at length
  rw [length] at inside
  rwa [entryAddress, address]

end ObjectTable
end ZMachine
