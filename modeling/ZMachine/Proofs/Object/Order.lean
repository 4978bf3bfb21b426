import Mathlib.Data.List.Induction
import Mathlib.Data.List.TakeWhile
import ZMachine.Proofs.Object.Values

/-!
# The order of properties

A program finds the properties of an object by asking for the first one, and then for the one after
each. The table answers from the list that it kept when it was loaded, in which a repeated number
has its first place and its last data. So it names each number once, in the order in which the
numbers first appear in memory.

## Main definitions

* `Property.Stored` — the properties that lie in memory from an address on.
* `ObjectTable.PropertyWalk` — the numbers that a program is given when it asks again and again.
* `ObjectTable.Walked` — what a program is told about the properties that are stored for an object.

## Main statements

* `Property.numbers_foldl_insert`, `Property.find?_foldl_insert` — the numbers and the data that are
  kept.
* `ObjectTable.propertyWalk_of_found` — the walk over the list that was kept.
* `ObjectTable.walked_of_load` — the walk over the properties that are stored for a loaded object.
-/

namespace ZMachine

namespace Property

variable {m : Memory} {address number : Nat} {records properties : List Property} {p : Property}

/-! ## Properties in memory -/

/-- Memory has these properties from an address on: a size byte that is not zero and the data of
each, and a zero byte after the last. -/
inductive Stored (m : Memory) : Nat → List Property → Prop
  | stop {address : Nat} (zero : m.Holds address [0]) : Stored m address []
  | record {address : Nat} {size : Byte} {records : List Property} (held : m.Holds address [size])
      (ne : size ≠ 0)
      (rest : Stored m (address + 1 + (ofSizeByte size (address + 1)).length) records) :
      Stored m address (ofSizeByte size (address + 1) :: records)

/-- What is read from an address on is what memory has there. -/
theorem readRecords_eq_ok : readRecords m address = .ok records ↔ Stored m address records := by
  constructor
  · intro h
    fun_induction readRecords m address generalizing records with
    | case1 address inside size =>
      rename_i zero
      cases h
      exact .stop ⟨inside, zero, trivial⟩
    | case2 address inside size more p =>
      rename_i ih
      obtain ⟨rest, read, rfl⟩ := Except.map_eq_ok.mp h
      exact .record ⟨inside, rfl, trivial⟩ more (ih read)
    | case3 => cases h
  · intro h
    induction h with
    | stop zero => rw [readRecords, if_pos zero.1, if_pos zero.2.1]
    | record held ne _ ih =>
      obtain ⟨inside, rfl, -⟩ := held
      rw [readRecords, if_pos inside, if_neg ne]
      exact Except.map_eq_ok.mpr ⟨_, ih, rfl⟩

namespace Stored

theorem lt_size (h : Stored m address records) : address < m.size := by
  cases h with
  | stop zero => exact zero.1
  | record held _ _ => exact held.1

/-- A property has its size byte just before its data, and all of that lies in memory. -/
theorem of_mem (h : Stored m address records) (mem : p ∈ records) :
    p.address ≠ 0 ∧ ObjectTable.dataLength m p.address = .ok p.length ∧
      p.address + p.length ≤ m.size := by
  induction h with
  | stop => cases mem
  | @record address size records held _ rest ih =>
    obtain rfl | mem := List.mem_cons.mp mem
    · have place : (ofSizeByte size (address + 1)).address = address + 1 := rfl
      have byte : m.byteAt address = .ok size := Memory.byteAt_eq_ok.mpr held
      refine ⟨Nat.succ_ne_zero address, ?_, Nat.le_of_lt rest.lt_size⟩
      rw [ObjectTable.dataLength, place, if_neg (Nat.succ_ne_zero address), Nat.add_sub_cancel,
        byte]
      rfl
    · exact ih mem

end Stored

/-! ## What is kept -/

def numbers (properties : List Property) : List Nat :=
  properties.map (·.id.toNat)

theorem mem_numbers : number ∈ numbers properties ↔ ∃ p ∈ properties, p.id.toNat = number :=
  List.mem_map

/-- A property that repeats a number keeps the place of the first one. -/
theorem numbers_insert (properties : List Property) (p : Property) :
    numbers (insert properties p) =
      if p.id.toNat ∈ numbers properties then numbers properties
      else numbers properties ++ [p.id.toNat] := by
  have repeated : properties.any (·.id = p.id) = true ↔ p.id.toNat ∈ numbers properties := by
    simp only [List.any_eq_true, mem_numbers, decide_eq_true_iff, UInt8.toNat_inj]
  rw [insert]
  split
  · next found =>
    rw [if_pos (repeated.mp found), numbers, List.map_map]
    refine List.map_congr_left fun q _ => ?_
    rw [Function.comp_apply]
    split
    · next same => rw [same]
    · rfl
  · next new =>
    rw [if_neg (mt repeated.mpr new), numbers, List.map_append]
    rfl

/-- Each number has the place where it first appears. -/
theorem numbers_foldl_insert (records : List Property) :
    numbers (records.foldl insert []) = (numbers records).eraseDups := by
  induction records using List.reverseRecOn with
  | nil => rfl
  | append_singleton records p ih =>
    have longer : numbers (records ++ [p]) = numbers records ++ [p.id.toNat] := List.map_append
    rw [List.foldl_append, List.foldl_cons, List.foldl_nil, numbers_insert, ih, longer,
      List.eraseDups_append, List.cons_removeAll, List.nil_removeAll]
    by_cases mem : p.id.toNat ∈ numbers records
    · rw [if_pos (List.mem_eraseDups.mpr mem), if_neg (by simpa using mem)]
      exact (List.append_nil _).symm
    · rw [if_neg (mt List.mem_eraseDups.mp mem), if_pos (by simpa using mem)]
      rfl

/-- No number is kept twice. -/
theorem nodup_foldl_insert (records : List Property) :
    (numbers (records.foldl insert [])).Nodup := by
  induction records using List.reverseRecOn with
  | nil => exact List.nodup_nil
  | append_singleton records p ih =>
    rw [List.foldl_append, List.foldl_cons, List.foldl_nil, numbers_insert]
    split
    · exact ih
    · next new =>
      rw [← List.concat_eq_append]
      exact ih.concat new

/-- A property that repeats a number takes the place of the one before. -/
theorem find?_insert (properties : List Property) (p : Property) (number : Nat) :
    (insert properties p).find? (·.id.toNat = number) =
      if p.id.toNat = number then some p else properties.find? (·.id.toNat = number) := by
  rw [insert]
  split
  · next repeated =>
    -- What takes the place of a property has its number.
    have same : ((fun q : Property => decide (q.id.toNat = number)) ∘
        fun q => if q.id = p.id then p else q) = fun q => decide (q.id.toNat = number) := by
      funext q
      rw [Function.comp_apply]
      split
      · next eq => rw [eq]
      · rfl
    rw [List.find?_map, same]
    cases found : properties.find? (·.id.toNat = number) with
    | none =>
      obtain ⟨q, mem, eq⟩ := List.any_eq_true.mp repeated
      have other : q.id.toNat ≠ number := by simpa using List.find?_eq_none.mp found q mem
      rw [of_decide_eq_true eq] at other
      rw [if_neg other, Option.map_none]
    | some q =>
      have own : q.id.toNat = number := by simpa using List.find?_some found
      subst own
      rw [Option.map_some]
      by_cases eq : q.id = p.id
      · rw [if_pos eq, if_pos (congrArg _ eq.symm)]
      · rw [if_neg eq, if_neg fun same => eq (UInt8.toNat_inj.mp same).symm]
  · next new =>
    rw [List.find?_append, List.find?_singleton]
    by_cases own : p.id.toNat = number
    · have none : properties.find? (·.id.toNat = number) = none := by
        refine List.find?_eq_none.mpr fun q mem => ?_
        have ne : q.id ≠ p.id := by
          simpa using List.any_eq_false.mp (Bool.not_eq_true _ |>.mp new) q mem
        rw [decide_eq_true_iff, ← own, UInt8.toNat_inj]
        exact ne
      rw [none, if_pos own, if_pos (decide_eq_true own), Option.none_or]
    · rw [if_neg own, if_neg (by simpa using own), Option.or_none]

/-- Each number has the data that comes last. -/
theorem find?_foldl_insert (records : List Property) (number : Nat) :
    (records.foldl insert []).find? (·.id.toNat = number) =
      records.findRev? (·.id.toNat = number) := by
  rw [List.findRev?_eq_find?_reverse]
  induction records using List.reverseRecOn with
  | nil => rfl
  | append_singleton records p ih =>
    rw [List.foldl_append, List.foldl_cons, List.foldl_nil, find?_insert, ih, List.reverse_append,
      List.reverse_singleton, List.singleton_append, List.find?_cons]
    by_cases own : p.id.toNat = number <;> simp [own]

end Property

namespace ObjectTable

open Property

variable {m : Memory} {table id number : Nat} {abbreviations : AbbreviationTable} {t : ObjectTable}
  {o : Object} {p : Property}

/-! ## Asking for the next property -/

/-- Asking for the property after `number`, then for the one after that, and so on, gives these
numbers and then 0. -/
inductive PropertyWalk (t : ObjectTable) (id : Nat) : (number : Nat) → List Nat → Prop
  | last {number : Nat} (none : t.propertyAfter id number = .ok 0) : PropertyWalk t id number []
  | next {number following : Nat} {rest : List Nat}
      (after : t.propertyAfter id number = .ok following) (ne : following ≠ 0)
      (walk : PropertyWalk t id following rest) : PropertyWalk t id number (following :: rest)

section
variable (found : t.get? id = some o)
include found

/-- The property after another one, as stored; 0 asks for the first and is the answer after the
last. -/
theorem propertyAfter_eq : t.propertyAfter id number =
    match if number = 0 then some o.properties
      else (o.properties.dropWhile fun p => p.id.toNat ≠ number).tail? with
    | some rest => .ok ((rest.head?.map (·.id.toNat)).getD 0)
    | none => .error (.propertyNotFound id (number % 256)) := by
  rw [propertyAfter, get_eq_ok.mpr found]
  rfl

theorem propertyAfter_of_lacks (lacks : number ∉ numbers o.properties) (ne : number ≠ 0) :
    t.propertyAfter id number = .error (.propertyNotFound id (number % 256)) := by
  have passed : ∀ q ∈ o.properties, decide (q.id.toNat ≠ number) = true := fun q mem =>
    decide_eq_true fun same => lacks (mem_numbers.mpr ⟨q, mem, same⟩)
  rw [propertyAfter_eq found, if_neg ne, List.dropWhile_eq_nil_iff.mpr passed, List.tail?_nil]

theorem dataAddress_eq :
    t.dataAddress id number = .ok (((o.property? number).map (·.address)).getD 0) := by
  rw [dataAddress, get_eq_ok.mpr found]
  rfl

/-! ## The walk -/

variable (distinct : (numbers o.properties).Nodup) (numbered : 0 ∉ numbers o.properties)
include distinct numbered

/-- After a property comes the one that is kept next, because its number is not met before. -/
theorem propertyAfter_of_place {front back : List Property}
    (place : o.properties = front ++ p :: back) :
    t.propertyAfter id p.id.toNat = .ok ((back.head?.map (·.id.toNat)).getD 0) := by
  have split : numbers o.properties = numbers front ++ p.id.toNat :: numbers back := by
    rw [place]
    exact List.map_append
  rw [split] at distinct numbered
  have ne : p.id.toNat ≠ 0 := fun zero => numbered (by simp [zero])
  have passed : ∀ q ∈ front, decide (q.id.toNat ≠ p.id.toNat) = true := fun q mem =>
    decide_eq_true ((List.nodup_append.mp distinct).2.2 _ (mem_numbers.mpr ⟨q, mem, rfl⟩) _
      List.mem_cons_self)
  rw [propertyAfter_eq found, if_neg ne, place, List.dropWhile_append_of_pos passed,
    List.dropWhile_cons_of_neg (by simp), List.tail?_cons]

/-- From any property on, the walk gives the numbers of those after it. -/
theorem propertyWalk_of_place {front back : List Property}
    (place : o.properties = front ++ p :: back) : t.PropertyWalk id p.id.toNat (numbers back) := by
  have after := propertyAfter_of_place found distinct numbered place
  induction back generalizing front p with
  | nil => exact .last after
  | cons q back ih =>
    have onward : o.properties = (front ++ [p]) ++ q :: back := by rw [place, List.append_cons]
    have mem : q.id.toNat ∈ numbers o.properties := mem_numbers.mpr ⟨q, by simp [place], rfl⟩
    exact .next after (fun zero => numbered (zero ▸ mem))
      (ih onward (propertyAfter_of_place found distinct numbered onward))

/-- The walk over the properties of an object meets their numbers in order. -/
theorem propertyWalk_of_found : t.PropertyWalk id 0 (numbers o.properties) := by
  have first : t.propertyAfter id 0 = _ := propertyAfter_eq found
  rw [if_pos rfl] at first
  cases properties : o.properties with
  | nil =>
    rw [properties] at first
    exact .last first
  | cons p back =>
    rw [properties] at first
    refine .next first (fun zero => numbered (mem_numbers.mpr ⟨p, by simp [properties], zero⟩)) ?_
    have place : o.properties = [] ++ p :: back := properties
    exact propertyWalk_of_place found distinct numbered place

end

/-! ## Loaded objects -/

/-- What a program is told about the properties that are stored for an object. The walk names each
number once, in the order in which the numbers first appear. A number that is named has the data
that come last, which lie in memory after a size byte with their length. No other is known. -/
structure Walked (m : Memory) (t : ObjectTable) (id : Nat) (records : List Property) : Prop where
  walk : t.PropertyWalk id 0 (numbers records).eraseDups
  once : (numbers records).eraseDups.Nodup
  known : ∀ number ∈ numbers records, ∃ p, records.findRev? (·.id.toNat = number) = some p ∧
    t.dataAddress id number = .ok p.address ∧ p.address ≠ 0 ∧
    dataLength m p.address = .ok p.length ∧ p.address + p.length ≤ m.size
  unknown : ∀ number, number ≠ 0 → number ∉ numbers records →
    t.dataAddress id number = .ok 0 ∧
    t.propertyAfter id number = .error (.propertyNotFound id (number % 256))

/-- For every table that loads and every object of it, properties are stored in the block of the
object. If none of them has the number 0, the walk over them covers them all. -/
theorem walked_of_load (loaded : load m table abbreviations = .ok t) (found : t.get? id = some o) :
    ∃ nameWords records, m.byteAt o.propertiesAddress = .ok nameWords ∧
      Stored m (o.propertiesAddress + 1 + 2 * nameWords.toNat) records ∧
      (∀ number, o.property? number = records.findRev? (·.id.toNat = number)) ∧
      (0 ∉ numbers records → t.Walked m id records) := by
  obtain ⟨-, nameWords, records, -, readWords, -, readRecords, kept⟩ :=
    objectAt_eq_ok.mp (objectAt_of_load loaded found)
  have stored := readRecords_eq_ok.mp readRecords
  have last (number : Nat) : o.property? number = records.findRev? (·.id.toNat = number) := by
    rw [Object.property?, kept, find?_foldl_insert]
  have order : numbers o.properties = (numbers records).eraseDups := by
    rw [kept, numbers_foldl_insert]
  have distinct : (numbers o.properties).Nodup := by
    rw [kept]
    exact nodup_foldl_insert records
  refine ⟨nameWords, records, readWords, stored, last, fun numbered => ?_⟩
  refine ⟨?_, order ▸ distinct, fun number mem => ?_, fun number ne lacks => ?_⟩
  · rw [← order]
    refine propertyWalk_of_found found distinct fun zero => numbered ?_
    rwa [order, List.mem_eraseDups] at zero
  · obtain ⟨p, carried⟩ : ∃ p, records.findRev? (·.id.toNat = number) = some p := by
      obtain ⟨q, memQ, own⟩ := mem_numbers.mp mem
      rw [List.findRev?_eq_find?_reverse, ← Option.isSome_iff_exists, List.find?_isSome]
      exact ⟨q, List.mem_reverse.mpr memQ, decide_eq_true own⟩
    have memP : p ∈ records := by
      rw [List.findRev?_eq_find?_reverse] at carried
      exact List.mem_reverse.mp (List.mem_of_find?_eq_some carried)
    refine ⟨p, carried, ?_, stored.of_mem memP⟩
    rw [dataAddress_eq found, last, carried]
    rfl
  · have lacks' : number ∉ numbers o.properties := by rwa [order, List.mem_eraseDups]
    refine ⟨?_, propertyAfter_of_lacks found lacks' ne⟩
    have none : o.property? number = none := List.find?_eq_none.mpr fun p mem own =>
      lacks' (mem_numbers.mpr ⟨p, mem, of_decide_eq_true own⟩)
    rw [dataAddress_eq found, none]
    rfl

/-- The chest has four properties in memory, with the numbers 5, 3, 5 and 2. -/
theorem walked_chest :
    let t : ObjectTable := ⟨0, #[ObjectStore.chest]⟩
    load ObjectStore.chestMemory 0 ⟨0⟩ = .ok t ∧ t.PropertyWalk 1 0 [5, 3, 2] ∧
      t.dataAddress 1 5 = .ok 78 ∧ dataLength ObjectStore.chestMemory 78 = .ok 1 ∧
      t.dataAddress 1 9 = .ok 0 ∧ t.propertyAfter 1 9 = .error (.propertyNotFound 1 9) := by
  intro t
  have loaded : load ObjectStore.chestMemory 0 ⟨0⟩ = .ok t := by decide +kernel
  obtain ⟨words, records, readWords, stored, -, walked⟩ :=
    walked_of_load loaded (show t.get? 1 = some ObjectStore.chest from rfl)
  have none : ObjectStore.chestMemory.byteAt ObjectStore.chest.propertiesAddress = .ok 0 := by
    decide +kernel
  cases none.symm.trans readWords
  have read : readRecords ObjectStore.chestMemory 72 =
      .ok [⟨5, 73, 2⟩, ⟨3, 76, 1⟩, ⟨5, 78, 1⟩, ⟨2, 80, 3⟩] := by decide +kernel
  cases read.symm.trans (readRecords_eq_ok.mpr stored)
  obtain ⟨walk, -, known, unknown⟩ := walked (by decide)
  obtain ⟨p, last, place, -, length, -⟩ := known 5 (by decide)
  cases last
  exact ⟨loaded, walk, place, length, unknown 9 (by decide) (by decide)⟩

end ObjectTable
end ZMachine
