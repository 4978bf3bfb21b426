import ZMachine.Proofs.Object.Values

/-!
# Counted entries and property blocks

Nothing says how many objects there are; entries are counted up to the first of the blocks that they
point to. Of the blocks that were met before, the count asks whether an entry begins before them,
and not whether it ends before them. So each counted entry ends before all blocks, with one
exception: a block can begin inside the last entry. Then attributes and links of the last object lie
among the properties of another.

## Main definitions

* `ObjectTable.LastClear` — no block begins inside the last entry that is counted.

## Main statements

* `ObjectTable.block_of_countEntries` — how a counted entry and a block lie to each other.
* `ObjectTable.relink_changes_last` — which data of properties a change of attributes and links can
  reach.
* `ObjectTable.counted_before_blocks` — entries, blocks and changes together.
* `ObjectTable.overrun` — a count whose last entry reaches into a block.
-/

namespace ZMachine

namespace ObjectTable

open ObjectStore Property

variable {m : Memory} {table count id other a : Nat} {abbreviations : AbbreviationTable}
  {t : ObjectTable} {s : ObjectStore} {o : Object} {p : Property}

/-! ## The count -/

section
variable {room address index : Nat} {lowest : Option Nat}
  (h : countFrom m room address lowest = .ok count) (counted : index < count)
include h counted

/-- The lowest block so far only gets lower on the way, and each entry begins before it. -/
theorem begins_before_lowest {low : Nat} (met : low ∈ lowest) :
    address + index * entryLength < low := by
  induction index generalizing room address lowest count low with
  | zero =>
    obtain ⟨count, rfl⟩ := Nat.exists_eq_add_one.mpr counted
    obtain ⟨_, _, -, before, -⟩ := countFrom_eq_succ h
    simpa using before low met
  | succ index ih =>
    obtain ⟨count, rfl⟩ := Nat.exists_eq_add_one.mpr (Nat.zero_lt_of_lt counted)
    obtain ⟨_, block, -, -, -, -, others⟩ := countFrom_eq_succ h
    have lower := ih others (Nat.lt_of_succ_lt_succ counted) rfl
    cases met
    rw [next_entry] at lower
    exact Nat.lt_of_lt_of_le lower (Nat.min_le_right _ _)

/-- No entry begins at or past the block of another one, be it counted before or after that. -/
theorem begins_before_block {earlier : Nat} {block : Word} (counted' : earlier < count)
    (points : m.wordAt (address + earlier * entryLength + 7) = .ok block) :
    address + index * entryLength < block.toNat := by
  obtain late | early := Nat.lt_or_ge earlier index
  · induction earlier generalizing room address lowest count index with
    | zero =>
      obtain ⟨count, rfl⟩ := Nat.exists_eq_add_one.mpr counted'
      obtain ⟨index, rfl⟩ := Nat.exists_eq_add_one.mpr late
      obtain ⟨_, own, -, -, read, -, others⟩ := countFrom_eq_succ h
      have lower := begins_before_lowest others (Nat.lt_of_succ_lt_succ counted) rfl
      rw [Nat.zero_mul, Nat.add_zero, read] at points
      cases points
      rw [next_entry] at lower
      cases lowest with
      | none => exact lower
      | some low => exact Nat.lt_of_lt_of_le lower (Nat.min_le_left _ _)
    | succ earlier ih =>
      obtain ⟨count, rfl⟩ := Nat.exists_eq_add_one.mpr (Nat.zero_lt_of_lt counted')
      obtain ⟨index, rfl⟩ := Nat.exists_eq_add_one.mpr (Nat.zero_lt_of_lt late)
      obtain ⟨_, _, -, -, -, -, others⟩ := countFrom_eq_succ h
      have rest := ih others (Nat.lt_of_succ_lt_succ counted) (Nat.lt_of_succ_lt_succ counted')
        (by rwa [next_entry])
        (Nat.lt_of_succ_lt_succ late)
      rwa [next_entry] at rest
  · obtain ⟨own, read, past⟩ := block_of_countFrom h counted'
    cases points.symm.trans read
    have := Nat.mul_le_mul_right entryLength early
    rw [Nat.succ_mul] at past
    simp only [entryLength] at past this ⊢
    omega

end

/-- A number that was given to a counted entry. -/
def Numbered (count id : Nat) : Prop :=
  1 ≤ id ∧ id ≤ count

/-- No block that a counted entry points to begins inside the last of them. -/
def LastClear (m : Memory) (table count : Nat) : Prop :=
  ∀ id, Numbered count id → ∀ block, m.wordAt (entryAt table id + 7) = .ok block →
    ¬ (entryAt table count < block.toNat ∧ block.toNat < entryAt table count + entryLength)

section
variable (counted : countEntries m table = .ok count)
include counted

/-- Each entry begins before the block of each, and ends before it as well, unless it is the last
entry and the block is that of another one. -/
theorem block_of_countEntries (numbered : Numbered count id) (numbered' : Numbered count other) :
    ∃ block, m.wordAt (entryAt table other + 7) = .ok block ∧ entryAt table id < block.toNat ∧
      (id < count ∨ id = other → entryAt table id + entryLength ≤ block.toNat) := by
  obtain ⟨index, rfl⟩ := Nat.exists_eq_add_one.mpr numbered.1
  obtain ⟨index', rfl⟩ := Nat.exists_eq_add_one.mpr numbered'.1
  obtain ⟨block, read, past⟩ := block_of_countFrom counted numbered'.2
  refine ⟨block, read, begins_before_block counted numbered.2 numbered'.2 read, ?_⟩
  rintro (inner | same)
  · -- It ends where the entry after it begins.
    have := begins_before_block counted inner numbered'.2 read
    simp only [entryAt, entryLength] at this ⊢
    omega
  · cases same
    simp only [entryAt, entryLength] at past ⊢
    omega

/-- Each entry ends before the block of each iff no block begins inside the last entry. -/
theorem lastClear_iff : LastClear m table count ↔
    ∀ id other, Numbered count id → Numbered count other → ∀ block,
      m.wordAt (entryAt table other + 7) = .ok block →
        entryAt table id + entryLength ≤ block.toNat := by
  constructor
  · intro clear id other numbered numbered' block points
    obtain ⟨own, read, begins, ends⟩ := block_of_countEntries counted numbered numbered'
    cases points.symm.trans read
    obtain inner | last := Nat.lt_or_eq_of_le numbered.2
    · exact ends (.inl inner)
    · subst last
      exact Nat.le_of_not_lt fun inside => clear other numbered' block points ⟨begins, inside⟩
  · intro ends id numbered block points inside
    have last : Numbered count count := ⟨Nat.le_trans numbered.1 numbered.2, Nat.le_refl _⟩
    exact Nat.not_lt_of_ge (ends count id last numbered block points) inside.2

end

/-! ## Changes of attributes and links -/

/-- Data of a property that a change of attributes and links reaches lies in the last entry, and so
does the beginning of the block that it is in. -/
theorem relink_changes_last (loaded : load m table abbreviations = .ok t) (reached : Reached m t s)
    {s' : ObjectStore} (relinks : s.Relinks s') (found : t.get? id = some o)
    (mem : p ∈ o.properties) (low : p.address ≤ a) (changed : s'.memory.get a ≠ s.memory.get a) :
    entryAt table t.size < o.propertiesAddress ∧ o.propertiesAddress < a ∧
      a < entryAt table t.size + linkedLength := by
  obtain ⟨changedId, has, first, last⟩ := relinks.changed a changed
  rw [reached.shape.has_iff] at has
  rw [entryAddress, reached.shape.address_eq, (load_eq_ok loaded).1] at first last
  have own : Numbered t.size id := has_of_get? found
  obtain ⟨block, read, begins, ends⟩ :=
    block_of_countEntries (countEntries_of_load loaded) has own
  obtain ⟨pointer, points, place⟩ := pointer_of_load loaded found
  cases points.symm.trans read
  obtain ⟨start, records, past, readRecords, kept⟩ := records_of_load loaded found
  have within := ((readRecords_placed readRecords).1 p (kept p mem)).1
  have inside : o.propertiesAddress < a := by omega
  obtain inner | rfl := Nat.lt_or_eq_of_le has.2
  · have := ends (.inl inner)
    simp only [entryLength, linkedLength] at this last
    omega
  · exact ⟨place ▸ begins, inside, last⟩

/-- For every memory in which entries are counted, each counted entry but the last one ends before
all blocks that counted entries point to. The last one does so too iff none of these blocks begins
inside it. If so, then whatever objects a table is loaded with, and whatever has been done since, no
change of attributes or links reaches the data of a property; if not, it can only reach data that
lies in the last entry. -/
theorem counted_before_blocks (counted : countEntries m table = .ok count) :
    (∀ id other, Numbered count id → Numbered count other → ∃ block,
      m.wordAt (entryAt table other + 7) = .ok block ∧ entryAt table id < block.toNat ∧
        (id < count ∨ id = other → entryAt table id + entryLength ≤ block.toNat)) ∧
    (LastClear m table count ↔
      ∀ id other, Numbered count id → Numbered count other → ∀ block,
        m.wordAt (entryAt table other + 7) = .ok block →
          entryAt table id + entryLength ≤ block.toNat) ∧
    (∀ abbreviations t s, load m table abbreviations = .ok t → Reached m t s →
      ∀ change : ObjectChange, (∀ id number value, change ≠ .putProperty id number value) →
      ∀ id o p a, t.get? id = some o → p ∈ o.properties → p.address ≤ a → a < p.address + p.length →
        (finalState change.action s).memory.get a ≠ s.memory.get a →
          ¬ LastClear m table count ∧ entryAt table count < a ∧
            a < entryAt table count + linkedLength) := by
  refine ⟨fun id other => block_of_countEntries counted, lastClear_iff counted, ?_⟩
  intro abbreviations t s loaded reached change links id o p a found mem low _ changed
  cases counted.symm.trans (countEntries_of_load loaded)
  obtain ⟨begins, inside, last⟩ := relink_changes_last loaded reached
    (change.relinks_action links s) found mem low changed
  refine ⟨fun clear => ?_, Nat.lt_trans begins inside, last⟩
  obtain ⟨pointer, points, place⟩ := pointer_of_load loaded found
  refine clear id (has_of_get? found) pointer points ⟨place ▸ begins, ?_⟩
  simp only [entryLength, linkedLength] at last ⊢
  omega

/-- The block of the chest begins right after its entry, so its attributes can safely change. -/
theorem counted_before_blocks_chest :
    let s : ObjectStore := ⟨chestMemory, ⟨0, #[chest]⟩⟩
    let s' := finalState (assignAttribute 1 31 true) s
    countEntries chestMemory 0 = .ok 1 ∧ LastClear chestMemory 0 1 ∧
      s'.memory.get 65 = 1 ∧ s'.memory.get 78 = s.memory.get 78 := by
  intro s s'
  have counted : countEntries chestMemory 0 = .ok 1 := by decide +kernel
  have loaded : load chestMemory 0 ⟨0⟩ = .ok s.table := by decide +kernel
  obtain ⟨blocks, -, changes⟩ := counted_before_blocks counted
  have clear : LastClear chestMemory 0 1 := by
    intro id numbered block points inside
    obtain ⟨own, read, -, ends⟩ := blocks 1 id ⟨by decide, by decide⟩ numbered
    cases points.symm.trans read
    exact Nat.not_lt_of_ge (ends (.inr (Nat.le_antisymm numbered.1 numbered.2))) inside.2
  refine ⟨counted, clear, by decide +kernel, ?_⟩
  by_contra changed
  exact (changes ⟨0⟩ _ s loaded .loaded (.assignAttribute 1 31 true) nofun 1 chest ⟨5, 78, 1⟩ 78 rfl
    (by decide) (by decide) (by decide) changed).1 clear

/-- A table of two objects. The block of the first begins in the second byte of the entry of the
second, so that two attribute bytes there are the size byte and the data of its property 1. -/
def overrunMemory : Memory :=
  ⟨(List.replicate 62 (0 : Byte) ++
    [0, 0, 0, 0, 0, 0, 0, 0, 72,
      0, 0, 1, 0, 0, 0, 0, 0, 80,
      0, 0]).toArray⟩

def overrunTable : ObjectTable :=
  ⟨0, #[⟨0, 0, 0, 0, 72, none, [⟨1, 74, 1⟩]⟩, ⟨0x100, 0, 0, 0, 80, none, []⟩]⟩

/-- Two entries are counted, the second of which reaches past the block of the first object. Setting
the last attribute of the second object changes the value of a property of the first. -/
theorem overrun :
    let s : ObjectStore := ⟨overrunMemory, overrunTable⟩
    let s' := finalState (assignAttribute 2 31 true) s
    countEntries overrunMemory 0 = .ok 2 ∧ overrunMemory.wordAt (entryAt 0 1 + 7) = .ok 72 ∧
      (72 : Word).toNat < entryAt 0 2 + entryLength ∧
      load overrunMemory 0 ⟨0⟩ = .ok s.table ∧
      s.table.propertyValue s.memory 1 1 = .ok 0 ∧
      answer (assignAttribute 2 31 true) s = .ok () ∧
      s'.table.propertyValue s'.memory 1 1 = .ok 1 := by
  decide +kernel

end ObjectTable
end ZMachine
