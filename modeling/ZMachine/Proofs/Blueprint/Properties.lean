import ZMachine.Proofs.Blueprint.Sections

/-!
# Blocks of an image

The block of an object is its name, after the length of that in words, and then its properties, the
highest number first, up to a zero byte. No size byte is zero, so that all of the properties are
found.

## Main definitions

* `Property.Carries` — a property has this number and these bytes.

## Main statements

* `Blueprint.propertyBlock_eq_ok` — which bytes a block is made of.
* `Blueprint.readRecords_of_holds` — the properties that are written are found.
-/

namespace ZMachine

namespace Property

structure Carries (m : Memory) (d : Nat × List Byte) (p : Property) : Prop where
  id : p.id.toNat = d.1
  length : p.length = d.2.length
  data : m.slice p.address p.length = .ok d.2

/-- The three bits and the five bits of a size byte. -/
theorem toNat_sizeByte {number length : Nat} (few : number < 32) (short : length < 8) :
    let size := UInt8.ofNat (32 * length + number)
    size.toNat = 32 * length + number ∧ (size &&& 31).toNat = number ∧
      (size >>> 5).toNat = length := by
  intro size
  have value : size.toNat = 32 * length + number := by
    rw [UInt8.toNat_ofNat']
    omega
  refine ⟨value, ?_, ?_⟩
  · have low := Nat.and_two_pow_sub_one_eq_mod size.toNat 5
    rw [UInt8.toNat_and]
    exact low.trans (by omega)
  · rw [UInt8.toNat_shiftRight, value, Nat.shiftRight_eq_div_pow]
    change (32 * length + number) / 32 = length
    omega

/-- Properties with numbers of their own are added one after another. -/
theorem foldl_insert {before properties : List Property}
    (apart : (before ++ properties).Pairwise fun p q => p.id ≠ q.id) :
    properties.foldl insert before = before ++ properties := by
  induction properties generalizing before with
  | nil => simp
  | cons p properties ih =>
    have new : before.any (·.id = p.id) = false := by
      rw [List.any_eq_false]
      intro q mem
      simpa using (List.pairwise_append.mp apart).2.2 q mem p List.mem_cons_self
    have added : insert before p = before ++ [p] := by rw [insert, new]; rfl
    rw [List.foldl_cons, added, ih (by simpa using apart), List.append_assoc, List.singleton_append]

end Property

namespace Blueprint

variable {o : ObjectPlan} {bytes : List Byte} {m : Memory} {address : Nat}

/-- A property is written only if its number exists and it has one to eight bytes. -/
theorem propertyBytes_eq_ok {d : Nat × List Byte} (h : propertyBytes d = .ok bytes) :
    0 < d.1 ∧ d.1 < 32 ∧ d.2 ≠ [] ∧ d.2.length ≤ 8 ∧
      bytes = UInt8.ofNat (32 * (d.2.length - 1) + d.1) :: d.2 := by
  obtain ⟨number, data⟩ := d
  rw [propertyBytes] at h
  simp only [ObjectTable.maxProperty] at h
  split at h
  · cases h
  · next numbered =>
    dsimp only [bind, Except.bind, Pure.pure, Except.pure] at h
    split at h
    · cases h
    · next long =>
      cases h
      rw [List.isEmpty_iff, not_or] at long
      dsimp only
      exact ⟨by omega, by omega, long.1, by omega, rfl⟩

/-- A name is written as its number of words and the words; an empty one has none. -/
theorem nameBytes_eq_ok {name : String} (h : nameBytes name = .ok bytes) :
    (name.isEmpty = true ∧ bytes = [0]) ∨
      (name.isEmpty = false ∧ ∃ words, ZString.encode name = .ok words ∧
        bytes = UInt8.ofNat words.length :: Word.toBytes words) := by
  rw [nameBytes] at h
  split at h
  · next empty =>
    cases h
    exact .inl ⟨empty, rfl⟩
  · next nonempty =>
    obtain ⟨text, encoded, h⟩ := Except.bind_eq_ok.mp h
    cases h
    obtain ⟨words, written, rfl⟩ := encodeText_eq_ok.mp encoded
    refine .inr ⟨by simpa using nonempty, words, written, ?_⟩
    rw [Word.length_toBytes, Nat.mul_div_cancel_left _ (by decide)]

/-- The properties of an object in the order in which they are written. -/
theorem pairwise_descending {properties : List (Nat × List Byte)}
    (distinct : (properties.map (·.1)).Nodup) :
    (properties.mergeSort fun d d' => d.1 ≥ d'.1).Pairwise fun d d' => d'.1 < d.1 := by
  have perm := List.mergeSort_perm properties fun d d' => d.1 ≥ d'.1
  have sorted : (properties.mergeSort fun d d' => d.1 ≥ d'.1).Pairwise
      fun d d' => decide (d.1 ≥ d'.1) = true :=
    List.pairwise_mergeSort (by simp; omega) (by simp; omega) properties
  have apart := List.pairwise_map.mp ((perm.map (·.1)).nodup_iff.mpr distinct)
  refine sorted.imp₂ (fun d d' ge ne => ?_) apart
  have := of_decide_eq_true ge
  omega

/-- A block is a name, the properties, and a zero byte. -/
theorem propertyBlock_eq_ok (h : propertyBlock o = .ok bytes) :
    ∃ name records, nameBytes o.name = .ok name ∧
      List.Forall₂ (fun d record => propertyBytes d = .ok record)
        (o.properties.mergeSort fun d d' => d.1 ≥ d'.1) records ∧
      bytes = name ++ (records.flatten ++ [0]) := by
  obtain ⟨name, nameOf, h⟩ := Except.bind_eq_ok.mp h
  obtain ⟨records, recordsOf, h⟩ := Except.bind_eq_ok.mp h
  cases h
  exact ⟨name, records, nameOf, Except.mapM_eq_ok recordsOf, List.append_assoc _ _ _⟩

/-- A property that is written is found before those that follow it. -/
theorem readRecords_of_record {d : Nat × List Byte} {record : List Byte}
    (recordOf : propertyBytes d = .ok record) (holds : m.Holds address record) :
    ∃ p : Property, p.Carries m d ∧ ∀ rest,
      Property.readRecords m (address + record.length) = .ok rest →
        Property.readRecords m address = .ok (p :: rest) := by
  obtain ⟨numbered, few, nonempty, short, rfl⟩ := propertyBytes_eq_ok recordOf
  have some : 0 < d.2.length := List.length_pos_iff.mpr nonempty
  obtain ⟨value, number, length⟩ := Property.toNat_sizeByte few (by omega : d.2.length - 1 < 8)
  obtain ⟨inside, size, data⟩ := Memory.holds_cons.mp holds
  rw [← size] at value number length
  have goes : m.get address ≠ 0 := by
    intro zero
    rw [zero] at value
    change 0 = _ at value
    omega
  have whole : (Property.ofSizeByte (m.get address) (address + 1)).length = d.2.length := by
    rw [Property.ofSizeByte]
    dsimp only
    omega
  refine ⟨_, ⟨number, whole, whole ▸ data.slice nonempty⟩, fun rest found => ?_⟩
  rw [List.length_cons, Nat.add_comm d.2.length, ← Nat.add_assoc] at found
  rw [Property.readRecords, if_pos inside]
  dsimp only
  rw [if_neg goes, whole, found]
  rfl

/-- The properties that are written are found, up to the zero byte. -/
theorem readRecords_of_holds {given : List (Nat × List Byte)} {records : List (List Byte)}
    (written : List.Forall₂ (fun d record => propertyBytes d = .ok record) given records)
    (holds : m.Holds address (records.flatten ++ [0])) :
    ∃ properties, Property.readRecords m address = .ok properties ∧
      List.Forall₂ (Property.Carries m) given properties := by
  induction written generalizing address with
  | nil =>
    obtain ⟨inside, zero, -⟩ := holds
    rw [Property.readRecords, if_pos inside]
    exact ⟨[], by simp only [zero, if_true], .nil⟩
  | cons recordOf _ ih =>
    rw [List.flatten_cons, List.append_assoc] at holds
    obtain ⟨held, rest⟩ := Memory.holds_append.mp holds
    obtain ⟨p, carries, first⟩ := readRecords_of_record recordOf held
    obtain ⟨properties, found, carried⟩ := ih rest
    exact ⟨p :: properties, first properties found, .cons carries carried⟩

/-- Properties with numbers of their own are kept as they are found. -/
theorem foldl_insert_of_carries {given : List (Nat × List Byte)} {properties : List Property}
    (carried : List.Forall₂ (Property.Carries m) given properties)
    (descending : given.Pairwise fun d d' => d'.1 < d.1) :
    properties.foldl Property.insert [] = properties := by
  have numbers : properties.map (·.id.toNat) = given.map (·.1) := by
    clear descending
    induction carried with
    | nil => rfl
    | cons carries _ ih => rw [List.map_cons, List.map_cons, carries.id, ih]
  have apart : (properties.map (·.id.toNat)).Pairwise fun n n' => n' < n := by
    rw [numbers]
    exact List.pairwise_map.mpr descending
  refine Property.foldl_insert ((List.pairwise_map.mp apart).imp fun lt eq => ?_)
  rw [eq] at lt
  exact Nat.lt_irrefl _ lt

end Blueprint
end ZMachine
