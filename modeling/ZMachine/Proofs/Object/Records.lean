import Mathlib.Data.List.Pairwise
import ZMachine.Proofs.Object.Reached

/-!
# Where properties lie

The properties of an object lie one after another, a size byte and the data of each. They come after
the entry that points to them, and so after the defaults, and the last of them ends before the end
of memory, because a zero byte must follow it. If a number is repeated, the table keeps the last of
its properties; of two properties that it keeps, one still ends before the other begins.

## Main definitions

* `Property.Before`, `Property.Apart` — where two properties lie to each other.
* `Property.Placed` — where the properties of an object lie.

## Main statements

* `Property.readRecords_placed` — properties as they are read.
* `ObjectTable.past_entry_of_load` — the block of an object begins after its entry.
* `ObjectStore.Reached.placed` — the properties in a table that was loaded, whatever was done since.
-/

namespace ZMachine

namespace Property

variable {m : Memory} {address : Nat} {records properties : List Property} {p q : Property}

def Before (p q : Property) : Prop :=
  p.address + p.length < q.address

def Apart (p q : Property) : Prop :=
  p.Before q ∨ q.Before p

instance : Std.Symm Apart := ⟨fun _ _ => Or.symm⟩

/-- A size byte, or the zero byte, is read at the address. -/
theorem lt_size_of_readRecords (h : readRecords m address = .ok records) : address < m.size := by
  rw [readRecords] at h
  split at h
  · assumption
  · cases h

/-- Property records lie in memory, one after another. -/
theorem readRecords_placed (h : readRecords m address = .ok records) :
    (∀ p ∈ records, address < p.address ∧ p.address + p.length < m.size) ∧
      records.Pairwise Before := by
  fun_induction readRecords m address generalizing records with
  | case1 =>
    cases h
    exact ⟨nofun, .nil⟩
  | case2 address inside size more p =>
    rename_i ih
    obtain ⟨rest, read, rfl⟩ := Except.map_eq_ok.mp h
    obtain ⟨within, order⟩ := ih read
    have place : p.address = address + 1 := rfl
    refine ⟨fun q mem => ?_, .cons (fun q mem => ?_) order⟩
    · obtain rfl | mem := List.mem_cons.mp mem
      · have := lt_size_of_readRecords read
        omega
      · have := within q mem
        omega
    · have := (within q mem).1
      rw [Before]
      omega
  | case3 => cases h

/-- Whether a number is repeated or not, only properties that were added are kept. -/
theorem mem_insert (h : q ∈ insert properties p) : q ∈ properties ∨ q = p := by
  unfold insert at h
  split at h
  · obtain ⟨r, mem, rfl⟩ := List.mem_map.mp h
    split
    · exact .inr rfl
    · exact .inl mem
  · exact (List.mem_append.mp h).imp_right List.mem_singleton.mp

theorem mem_foldl_insert (h : q ∈ records.foldl insert properties) :
    q ∈ properties ∨ q ∈ records := by
  induction records generalizing properties with
  | nil => exact .inl h
  | cons p records ih =>
    obtain mem | mem := ih h
    · obtain mem | rfl := mem_insert mem
      · exact .inl mem
      · exact .inr List.mem_cons_self
    · exact .inr (List.mem_cons_of_mem p mem)

/-- Properties past the defaults of the table at `table`, in a memory of `size` bytes. Each size
byte lies past the defaults as well. -/
structure Placed (table size : Nat) (properties : List Property) : Prop where
  past : ∀ p ∈ properties, table + ObjectTable.defaultsLength < p.address
  inside : ∀ p ∈ properties, p.address + p.length < size
  apart : ∀ p ∈ properties, ∀ q ∈ properties, p ≠ q → p.Apart q

end Property

namespace ObjectTable

open Property

variable {m : Memory} {table id : Nat} {abbreviations : AbbreviationTable} {t : ObjectTable}
  {o : Object}

theorem next_entry (address index : Nat) :
    address + entryLength + index * entryLength = address + (index + 1) * entryLength := by
  rw [Nat.succ_mul]
  omega

/-- Each entry that is counted points past its own end. -/
theorem block_of_countFrom {room address count : Nat} {lowest : Option Nat}
    (h : countFrom m room address lowest = .ok count) {index : Nat} (counted : index < count) :
    ∃ block, m.wordAt (address + index * entryLength + 7) = .ok block ∧
      address + (index + 1) * entryLength ≤ block.toNat := by
  induction index generalizing room address lowest count with
  | zero =>
    obtain ⟨count, rfl⟩ := Nat.exists_eq_add_one.mpr counted
    obtain ⟨_, block, -, -, read, past, -⟩ := countFrom_eq_succ h
    exact ⟨block, by simpa using read, by simpa using past⟩
  | succ index ih =>
    obtain ⟨count, rfl⟩ := Nat.exists_eq_add_one.mpr (Nat.zero_lt_of_lt counted)
    obtain ⟨_, _, -, -, -, -, others⟩ := countFrom_eq_succ h
    obtain ⟨block, read, past⟩ := ih others (Nat.lt_of_succ_lt_succ counted)
    rw [next_entry] at read past
    exact ⟨block, read, past⟩

/-- A table has as many objects as entries are counted. -/
theorem countEntries_of_load (loaded : load m table abbreviations = .ok t) :
    countEntries m table = .ok t.size := by
  obtain ⟨count, counted, rest⟩ := Except.bind_eq_ok.mp loaded
  obtain ⟨objects, read, rest⟩ := Except.bind_eq_ok.mp rest
  cases rest
  have length := (Except.mapM_eq_ok read).length_eq
  rw [List.length_range] at length
  rw [counted, length]
  rfl

section
variable (loaded : load m table abbreviations = .ok t) (found : t.get? id = some o)
include loaded found

theorem pointer_of_load :
    ∃ pointer, m.wordAt (entryAt table id + 7) = .ok pointer ∧
      o.propertiesAddress = pointer.toNat := by
  obtain ⟨stop, _, _, entryRead, -⟩ := objectAt_eq_ok.mp (objectAt_of_load loaded found)
  obtain ⟨_, ⟨pointer, points, rfl⟩, holds, -⟩ := (reads_readEntry m _ _ stop).mp
    (Scan.runFrom_eq_ok.mp entryRead)
  exact ⟨pointer, Memory.wordAt_eq_ok.mpr (Memory.holds_append.mp holds).2, points⟩

/-- The properties that an object keeps were read from its block, past the name. -/
theorem records_of_load :
    ∃ start records, o.propertiesAddress < start ∧ readRecords m start = .ok records ∧
      ∀ p ∈ o.properties, p ∈ records := by
  obtain ⟨_, words, records, -, -, -, read, kept⟩ :=
    objectAt_eq_ok.mp (objectAt_of_load loaded found)
  refine ⟨_, records, by omega, read, fun p mem => ?_⟩
  rw [kept] at mem
  exact (mem_foldl_insert mem).resolve_left List.not_mem_nil

/-- The block of an object begins after its entry. -/
theorem past_entry_of_load : entryAt table id + entryLength ≤ o.propertiesAddress := by
  have has := has_of_get? found
  obtain ⟨pointer, points, same⟩ := pointer_of_load loaded found
  obtain ⟨index, rfl⟩ := Nat.exists_eq_add_one.mpr has.1
  obtain ⟨block, read, past⟩ := block_of_countFrom (countEntries_of_load loaded) has.2
  simp only [entryAt, Nat.add_sub_cancel] at points ⊢
  cases points.symm.trans read
  rw [same]
  simp only [entryLength] at past ⊢
  omega

/-- The properties of an object lie past the defaults, in memory and apart from one another. -/
theorem placed_of_load : Placed table m.size o.properties := by
  have past := past_entry_of_load loaded found
  obtain ⟨start, records, begins, read, own⟩ := records_of_load loaded found
  obtain ⟨within, order⟩ := readRecords_placed read
  have apart : records.Pairwise Apart := order.imp Or.inl
  refine ⟨fun p mem => ?_, fun p mem => (within p (own p mem)).2, fun p memP q memQ ne => ?_⟩
  · have := (within p (own p mem)).1
    simp only [entryAt] at past
    omega
  · exact apart.forall (own p memP) (own q memQ) ne

end

end ObjectTable

namespace ObjectStore

/-- Neither changes of objects nor writes past the table move a property. -/
theorem Reached.placed {m : Memory} {address id : Nat} {abbreviations : AbbreviationTable}
    {t : ObjectTable} {s : ObjectStore} {o : Object}
    (loaded : ObjectTable.load m address abbreviations = .ok t) (reached : Reached m t s)
    (found : s.table.get? id = some o) :
    Property.Placed s.table.address s.memory.size o.properties := by
  have same := reached.shape.properties_eq id
  rw [found, Option.map_some] at same
  obtain ⟨before, was, properties⟩ := Option.map_eq_some_iff.mp same.symm
  rw [reached.size_eq, reached.shape.address_eq, ← properties, (ObjectTable.load_eq_ok loaded).1]
  exact ObjectTable.placed_of_load loaded was

end ObjectStore
end ZMachine
