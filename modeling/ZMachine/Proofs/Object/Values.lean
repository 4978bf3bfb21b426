import ZMachine.Proofs.Object.Records

/-!
# Values of properties

A property of one or two bytes can be overwritten, and then has the new value. Nothing else that can
be asked about the object changes, because its other properties and all size bytes lie elsewhere,
and so do the defaults.

## Main definitions

* `ObjectStore.Overwritten` — what is left after a property was overwritten.

## Main statements

* `ObjectTable.propertyValue_congr` — a value depends on the data of the property alone, or on the
  default.
* `ObjectStore.overwritten_of_sameBut` — writing to the data of one property leaves all others.
* `ObjectStore.putProperty_laws` — what overwriting a property does, and when it is refused.
-/

namespace ZMachine

namespace ObjectTable

variable {t : ObjectTable} {m m' : Memory} {id number : Nat} {o : Object} {p : Property}

theorem requireProperty_eq_ok {u : Unit} :
    requireProperty number = .ok u ↔ 0 < number ∧ number ≤ maxProperty := by
  unfold requireProperty
  split <;> simp_all

theorem requireProperty_of_valid (valid : 0 < number ∧ number ≤ maxProperty) :
    requireProperty number = .ok () :=
  if_pos valid

/-- A number that is refused is refused before anything is read. -/
theorem requireProperty_bind_congr {α : Type} {f g : Unit → Except Error α}
    (rest : 0 < number ∧ number ≤ maxProperty → f () = g ()) :
    (requireProperty number >>= f) = requireProperty number >>= g := by
  cases required : requireProperty number with
  | ok u => exact rest (requireProperty_eq_ok.mp required)
  | error e => rfl

theorem defaultValue_congr
    (same : 0 < number ∧ number ≤ maxProperty →
      m'.wordAt (t.address + 2 * (number - 1)) = m.wordAt (t.address + 2 * (number - 1))) :
    t.defaultValue m' number = t.defaultValue m number :=
  requireProperty_bind_congr same

def ownValue (m : Memory) (id number : Nat) (p : Property) : Except Error Word :=
  if p.length = 1 then (·.toUInt16) <$> m.byteAt p.address
  else if p.length = 2 then m.wordAt p.address
  else .error (.propertyTooLong id number p.length)

/-- A property has its own value if the object carries it, and else the default. -/
theorem propertyValue_eq (found : t.get? id = some o) :
    t.propertyValue m id number = requireProperty number >>= fun _ =>
      (o.property? number).elim (t.defaultValue m number) (ownValue m id number) := by
  rw [propertyValue, get_eq_ok.mpr found]
  refine requireProperty_bind_congr fun _ => ?_
  cases o.property? number with
  | none => rfl
  | some p =>
    change (if p.length = 1 then _ else _) = ownValue m id number p
    unfold ownValue
    split
    · cases m.byteAt p.address <;> rfl
    · rfl

/-- What a number stands for depends on the data of one property alone, or on one default. -/
theorem propertyValue_congr (found : t.get? id = some o)
    (own : ∀ p, o.property? number = some p → ownValue m' id number p = ownValue m id number p)
    (default : t.defaultValue m' number = t.defaultValue m number) :
    t.propertyValue m' id number = t.propertyValue m id number := by
  rw [propertyValue_eq found, propertyValue_eq found]
  refine requireProperty_bind_congr fun _ => ?_
  cases carried : o.property? number with
  | none => exact default
  | some p => exact own p carried

section
variable (valid : 0 < number ∧ number ≤ maxProperty) (found : t.get? id = some o)
include valid found

theorem propertyValue_of_some (carried : o.property? number = some p) :
    t.propertyValue m id number = ownValue m id number p := by
  rw [propertyValue_eq found, requireProperty_of_valid valid, carried]
  rfl

/-- A property can be written iff the object carries it with one or two bytes. -/
theorem writableProperty_eq : t.writableProperty id number =
    match o.property? number with
    | some p =>
      if p.length = 1 ∨ p.length = 2 then .ok p else .error (.propertyTooLong id number p.length)
    | none => .error (.propertyNotFound id number) := by
  rw [writableProperty, get_eq_ok.mpr found]
  change (requireProperty number >>= _) = _
  rw [requireProperty_of_valid valid]
  rfl

end

end ObjectTable

open ObjectTable Property

namespace ObjectStore

variable {s : ObjectStore} {id number : Nat} {o : Object} {p : Property} {value : Word}

theorem run_setWord {address : Nat} (inside : address + 2 ≤ s.memory.size) :
    (setWord address value).run s = .ok () { s with memory := s.memory.putWord address value } := by
  have ok : s.memory.check address 2 = .ok () := Memory.check_eq_ok.mpr inside
  simp [setWord, ok]

/-- The new value stands in the data of the property, and the rest of memory is as it was. -/
theorem exists_run_putProperty (value : Word)
    (writable : s.table.writableProperty id number = .ok p)
    (short : p.length = 1 ∨ p.length = 2) (inside : p.address + p.length ≤ s.memory.size) :
    ∃ m, (putProperty id number value).run s = .ok () { s with memory := m } ∧
      s.memory.SameBut m p.address p.length ∧
      ownValue m id number p = .ok (if p.length = 2 then value else value % 256) := by
  simp only [putProperty, EStateM.run_bind, EStateM.run_get, EStateM.run_lift, writable]
  obtain one | two := short
  · have written : (s.memory.put p.address value.lowByte).byteAt p.address = .ok value.lowByte := by
      rw [Memory.byteAt_eq_ok, Memory.holds_cons, Memory.size_put,
        Memory.get_put _ _ _ _ (by omega), if_pos rfl]
      exact ⟨by omega, rfl, trivial⟩
    refine ⟨s.memory.put p.address value.lowByte, ?_, one ▸ Memory.sameBut_put .., ?_⟩
    · rw [if_pos one, run_setByte (by omega)]
    · rw [ownValue, if_pos one, written, if_neg (by omega), ← UInt16.toUInt16_toUInt8]
      rfl
  · refine ⟨s.memory.putWord p.address value, ?_, two ▸ Memory.sameBut_putWord .., ?_⟩
    · rw [if_neg (by omega), run_setWord (by omega)]
    · rw [ownValue, if_neg (by omega), if_pos two, if_pos two, Memory.wordAt_putWord (by omega)]

/-- A property has the value that was written, and nothing else about the object has changed. -/
structure Overwritten (s s' : ObjectStore) (id : Nat) (o : Object) (number : Nat) (p : Property)
    (value : Word) : Prop where
  table_eq : s'.table = s.table
  own : s'.table.propertyValue s'.memory id number =
    .ok (if p.length = 2 then value else value % 256)
  others : ∀ other, other ≠ number →
    s'.table.propertyValue s'.memory id other = s.table.propertyValue s.memory id other
  defaults : ∀ any, s'.table.defaultValue s'.memory any = s.table.defaultValue s.memory any
  lengths : ∀ q ∈ o.properties, dataLength s'.memory q.address = dataLength s.memory q.address

theorem mem_of_property? (carried : o.property? number = some p) :
    p ∈ o.properties ∧ p.id.toNat = number :=
  ⟨List.mem_of_find?_eq_some carried, by simpa using List.find?_some carried⟩

section
variable {m : Memory} (placed : Placed s.table.address s.memory.size o.properties)
  (mem : p ∈ o.properties) (same : s.memory.SameBut m p.address p.length)
include placed mem same

/-- The defaults lie before all properties. -/
theorem defaultValue_of_sameBut (any : Nat) :
    s.table.defaultValue m any = s.table.defaultValue s.memory any := by
  have past := placed.past p mem
  refine defaultValue_congr fun numbered => same.wordAt ?_
  simp only [defaultsLength, maxProperty] at past numbered
  omega

/-- Writing a property leaves the values of the others. -/
theorem ownValue_of_sameBut {q : Property} (other : q ∈ o.properties) (ne : p ≠ q) :
    ownValue m id number q = ownValue s.memory id number q := by
  have apart := placed.apart p mem q other ne
  simp only [Apart, Before] at apart
  unfold ownValue
  split
  · rw [same.byteAt (by omega)]
  · split
    · rw [same.wordAt (by omega)]
    · rfl

/-- A size byte lies before its own data, and apart from the data of other properties. -/
theorem dataLength_of_sameBut {q : Property} (other : q ∈ o.properties) :
    dataLength m q.address = dataLength s.memory q.address := by
  have beside : q.address - 1 < p.address ∨ p.address + p.length ≤ q.address - 1 := by
    by_cases eq : p = q
    · have := placed.past q other
      rw [eq]
      omega
    · have apart := placed.apart p mem q other eq
      simp only [Apart, Before] at apart
      omega
  rw [dataLength, dataLength, same.byteAt beside]

end

/-- What changes only the data of a property overwrites that property. -/
theorem overwritten_of_sameBut {m : Memory} (valid : 0 < number ∧ number ≤ maxProperty)
    (found : s.table.get? id = some o) (carried : o.property? number = some p)
    (placed : Placed s.table.address s.memory.size o.properties)
    (same : s.memory.SameBut m p.address p.length)
    (own : ownValue m id number p = .ok (if p.length = 2 then value else value % 256)) :
    Overwritten s { s with memory := m } id o number p value := by
  obtain ⟨mem, numbered⟩ := mem_of_property? carried
  refine ⟨rfl, (propertyValue_of_some valid found carried).trans own, fun other ne => ?_,
    defaultValue_of_sameBut placed mem same, fun q => dataLength_of_sameBut placed mem same⟩
  refine propertyValue_congr found (fun q carried' => ?_)
    (defaultValue_of_sameBut placed mem same other)
  obtain ⟨mem', numbered'⟩ := mem_of_property? carried'
  exact ownValue_of_sameBut placed mem same mem' fun eq => ne (by rw [← numbered', ← eq, numbered])

/-- A property that cannot be written is refused before anything is written. -/
theorem putProperty_of_error {e : Error} (refused : s.table.writableProperty id number = .error e) :
    answer (putProperty id number value) s = .error e ∧
      finalState (putProperty id number value) s = s := by
  have run : (putProperty id number value).run s = .error e s := by
    simp only [putProperty, EStateM.run_bind, EStateM.run_get, EStateM.run_lift, refused]
  exact ⟨answer_of_error run, finalState_of_error run⟩

/-- For every table that loads, whatever has been done since, and every object: a property of one or
two bytes can be overwritten with any value, and nothing else about the object changes. Of a longer
property, or one that the object lacks, nothing is written. -/
theorem putProperty_laws {m : Memory} {address : Nat} {abbreviations : AbbreviationTable}
    {t : ObjectTable} (loaded : load m address abbreviations = .ok t) (reached : Reached m t s)
    (found : s.table.get? id = some o) (valid : 0 < number ∧ number ≤ maxProperty) (value : Word) :
    let s' := finalState (putProperty id number value) s
    (∀ p, o.property? number = some p → p.length = 1 ∨ p.length = 2 →
      answer (putProperty id number value) s = .ok () ∧ Overwritten s s' id o number p value) ∧
    (∀ p, o.property? number = some p → 3 ≤ p.length →
      answer (putProperty id number value) s = .error (.propertyTooLong id number p.length) ∧
        s' = s) ∧
    (o.property? number = none →
      answer (putProperty id number value) s = .error (.propertyNotFound id number) ∧ s' = s) := by
  intro s'
  have placed := reached.placed loaded found
  have writable := writableProperty_eq valid found
  refine ⟨fun p carried short => ?_, fun p carried long => ?_, fun lacks => ?_⟩
  · rw [carried] at writable
    have inside := placed.inside p (mem_of_property? carried).1
    obtain ⟨memory, run, same, own⟩ := exists_run_putProperty value
      (writable.trans (if_pos short)) short (Nat.le_of_lt inside)
    refine ⟨answer_of_ok run, ?_⟩
    rw [show s' = _ from finalState_of_ok run]
    exact overwritten_of_sameBut valid found carried placed same own
  · rw [carried] at writable
    exact putProperty_of_error (writable.trans (if_neg (by omega)))
  · rw [lacks] at writable
    exact putProperty_of_error writable

/-- A table of one object with four properties, of which two have the number 5. The first default is
7. -/
def chestMemory : Memory :=
  ⟨([0, 7] ++ List.replicate 60 (0 : Byte) ++
    [0, 0, 0, 0, 0, 0, 0, 0, 71,
      0, 0x25, 0xAA, 0xBB, 0x03, 0x11, 0x05, 0x22, 0x42, 1, 2, 3, 0]).toArray⟩

def chest : Object :=
  ⟨0, 0, 0, 0, 71, none, [⟨5, 78, 1⟩, ⟨3, 76, 1⟩, ⟨2, 80, 3⟩]⟩

/-- Of the two properties 5 it is the last one that counts, and so only a byte of the value. -/
theorem putProperty_chest :
    let s : ObjectStore := ⟨chestMemory, ⟨0, #[chest]⟩⟩
    let s' := finalState (putProperty 1 5 0x1234) s
    load chestMemory 0 ⟨0⟩ = .ok s.table ∧
      s'.table.propertyValue s'.memory 1 5 = .ok 0x34 ∧
      s'.table.propertyValue s'.memory 1 3 = .ok 0x11 ∧
      s'.table.propertyValue s'.memory 1 1 = .ok 7 ∧
      dataLength s'.memory 78 = .ok 1 ∧
      answer (putProperty 1 2 0x1234) s = .error (.propertyTooLong 1 2 3) ∧
      answer (putProperty 1 9 0x1234) s = .error (.propertyNotFound 1 9) := by
  intro s s'
  have loaded : load chestMemory 0 ⟨0⟩ = .ok s.table := by decide +kernel
  have laws (number : Nat) (valid : 0 < number ∧ number ≤ maxProperty) :=
    putProperty_laws loaded .loaded (show s.table.get? 1 = some chest from rfl) valid 0x1234
  obtain ⟨-, -, own, others, -, lengths⟩ := (laws 5 (by decide)).1 ⟨5, 78, 1⟩ rfl (.inl rfl)
  refine ⟨loaded, own, (others 3 (by decide)).trans ?_, (others 1 (by decide)).trans ?_,
    (lengths ⟨5, 78, 1⟩ (by decide)).trans ?_,
    ((laws 2 (by decide)).2.1 ⟨2, 80, 3⟩ rfl (by decide)).1,
    ((laws 9 (by decide)).2.2 rfl).1⟩ <;> decide +kernel

end ObjectStore
end ZMachine
