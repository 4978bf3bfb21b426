import ZMachine.Proofs.Machine.Effect
import ZMachine.Proofs.Memory
import ZMachine.Proofs.Object.Links

/-!
# Where changes of objects write

The places that a change of objects can write to were fixed when the table was loaded: attributes
and links in the entry of an object, and the data of a short property. No change adds objects or
properties, or moves any, so that after many changes these are still the only places.

## Main definitions

* `ObjectTable.SameShape` — tables with the same objects, up to attributes and links.
* `ObjectTable.InEntry`, `ObjectTable.InShortProperty` — the places that can be written to.
* `ObjectStore.Touches` — what a change can do to a store.
* `ObjectStore.Relinks` — what a change of attributes and links can do to it.
* `ObjectStore.WritesData` — what overwriting a property can do to it.

## Main statements

* `ObjectStore.relinks_remove`, `ObjectStore.relinks_insertInto`,
  `ObjectStore.relinks_assignAttribute` — changes of attributes and links write to entries alone.
* `ObjectStore.writesData_putProperty` — overwriting a property writes to its data alone.
* `ObjectStore.leads_remove`, `ObjectStore.leads_insertInto`, `ObjectStore.leads_assignAttribute`,
  `ObjectStore.leads_putProperty` — each change writes there and nowhere else, whether it succeeds
  or fails.
-/

namespace ZMachine

namespace ObjectTable

variable {t t' t'' : ObjectTable} {id a : Nat} {f : Object → Object}

/-- The objects are the same ones with the same properties, whatever has become of attributes and
links. -/
structure SameShape (t t' : ObjectTable) : Prop where
  address_eq : t'.address = t.address
  properties_eq : ∀ id, (t'.get? id).map Object.properties = (t.get? id).map Object.properties

namespace SameShape

theorem refl (t : ObjectTable) : t.SameShape t :=
  ⟨rfl, fun _ => rfl⟩

theorem symm (h : t.SameShape t') : t'.SameShape t :=
  ⟨h.address_eq.symm, fun id => (h.properties_eq id).symm⟩

theorem trans (h : t.SameShape t') (h' : t'.SameShape t'') : t.SameShape t'' :=
  ⟨h'.address_eq.trans h.address_eq, fun id => (h'.properties_eq id).trans (h.properties_eq id)⟩

/-- A change of one object that leaves its properties alone. -/
theorem modify (same : ∀ o, (f o).properties = o.properties) : t.SameShape (t.modify id f) := by
  refine ⟨address_modify, fun other => ?_⟩
  rw [get?_modify]
  split
  · simp [Function.comp_def, same]
  · rfl

theorem has_iff (h : t.SameShape t') : t'.Has id ↔ t.Has id := by
  rw [← exists_get?_iff_has, ← exists_get?_iff_has, ← Option.isSome_iff_exists,
    ← Option.isSome_iff_exists, ← Option.isSome_map, h.properties_eq, Option.isSome_map]

end SameShape

/-! ## The places -/

def linkedLength : Nat := 7

def InEntry (t : ObjectTable) (a : Nat) : Prop :=
  ∃ id, t.Has id ∧ t.entryAddress id ≤ a ∧ a < t.entryAddress id + linkedLength

def InShortProperty (t : ObjectTable) (a : Nat) : Prop :=
  ∃ id o p, t.get? id = some o ∧ p ∈ o.properties ∧ (p.length = 1 ∨ p.length = 2) ∧
    p.address ≤ a ∧ a < p.address + p.length

/-- Entries lie where they did. -/
theorem SameShape.inEntry_iff (h : t.SameShape t') : t'.InEntry a ↔ t.InEntry a := by
  simp only [InEntry, h.has_iff, entryAddress, h.address_eq]

theorem SameShape.inShortProperty (h : t.SameShape t') (place : t'.InShortProperty a) :
    t.InShortProperty a := by
  obtain ⟨id, o', p, found', mem, short, low, high⟩ := place
  have same := h.properties_eq id
  rw [found', Option.map_some] at same
  obtain ⟨o, found, eq⟩ := Option.map_eq_some_iff.mp same.symm
  exact ⟨id, o, p, found, eq ▸ mem, short, low, high⟩

theorem SameShape.inShortProperty_iff (h : t.SameShape t') :
    t'.InShortProperty a ↔ t.InShortProperty a :=
  ⟨h.inShortProperty, h.symm.inShortProperty⟩

/-- A property that can be written is one of the object, of one or two bytes. -/
theorem writableProperty_eq_ok {number : Nat} {p : Property}
    (h : t.writableProperty id number = .ok p) :
    ∃ o, t.get? id = some o ∧ p ∈ o.properties ∧ (p.length = 1 ∨ p.length = 2) := by
  rw [writableProperty, Except.bind_eq_ok] at h
  obtain ⟨o, found, h⟩ := h
  obtain ⟨_, -, h⟩ := Except.bind_eq_ok.mp h
  refine ⟨o, get_eq_ok.mp found, ?_⟩
  split at h
  · next q isProperty =>
    split at h
    · next short =>
      cases h
      exact ⟨List.mem_of_find?_eq_some isProperty, short⟩
    · cases h
  · cases h

end ObjectTable

open ObjectTable

namespace ObjectStore

variable {s s' s'' : ObjectStore} {id a : Nat} {o : Object} {f : Object → Object}

/-- The store `s'` has come from `s` by writing to places of objects alone. -/
structure Touches (s s' : ObjectStore) : Prop where
  size_eq : s'.memory.size = s.memory.size
  shape : s.table.SameShape s'.table
  changed : ∀ a, s'.memory.get a ≠ s.memory.get a → s.table.InEntry a ∨ s.table.InShortProperty a

namespace Touches

theorem refl (s : ObjectStore) : s.Touches s :=
  ⟨rfl, .refl _, fun _ ne => absurd rfl ne⟩

theorem trans (h : s.Touches s') (h' : s'.Touches s'') : s.Touches s'' := by
  refine ⟨h'.size_eq.trans h.size_eq, h.shape.trans h'.shape, fun a ne => ?_⟩
  by_cases first : s'.memory.get a = s.memory.get a
  · rw [← first] at ne
    exact (h'.changed a ne).imp h.shape.inEntry_iff.mp h.shape.inShortProperty
  · exact h.changed a first

instance : Std.Refl Touches := ⟨refl⟩

instance : IsTrans ObjectStore Touches := ⟨fun _ _ _ => trans⟩

theorem has (h : s.Touches s') (has : s.table.Has id) : s'.table.Has id :=
  h.shape.has_iff.mpr has

end Touches

/-- The store `s'` has come from `s` by changes of attributes and links, which write to entries
alone. -/
structure Relinks (s s' : ObjectStore) : Prop where
  size_eq : s'.memory.size = s.memory.size
  shape : s.table.SameShape s'.table
  changed : ∀ a, s'.memory.get a ≠ s.memory.get a → s.table.InEntry a

namespace Relinks

theorem refl (s : ObjectStore) : s.Relinks s :=
  ⟨rfl, .refl _, fun _ ne => absurd rfl ne⟩

theorem trans (h : s.Relinks s') (h' : s'.Relinks s'') : s.Relinks s'' := by
  refine ⟨h'.size_eq.trans h.size_eq, h.shape.trans h'.shape, fun a ne => ?_⟩
  by_cases first : s'.memory.get a = s.memory.get a
  · rw [← first] at ne
    exact h.shape.inEntry_iff.mp (h'.changed a ne)
  · exact h.changed a first

instance : Std.Refl Relinks := ⟨refl⟩

instance : IsTrans ObjectStore Relinks := ⟨fun _ _ _ => trans⟩

theorem touches (h : s.Relinks s') : s.Touches s' :=
  ⟨h.size_eq, h.shape, fun a ne => .inl (h.changed a ne)⟩

theorem change (same : ∀ o, (f o).properties = o.properties) :
    s.Relinks { s with table := s.table.modify id f } :=
  ⟨rfl, .modify same, fun _ ne => absurd rfl ne⟩

theorem put {address : Nat} (value : Byte) (place : s.table.InEntry address) :
    s.Relinks { s with memory := s.memory.put address value } := by
  refine ⟨Memory.size_put .., .refl _, fun a ne => ?_⟩
  by_cases eq : a = address
  · rwa [eq]
  · exact absurd (Memory.get_put_of_ne value eq) ne

end Relinks

/-- The store `s'` has come from `s` by writing to the data of this property alone. -/
structure WritesData (id number : Nat) (s s' : ObjectStore) : Prop where
  size_eq : s'.memory.size = s.memory.size
  table_eq : s'.table = s.table
  changed : ∀ a, s'.memory.get a ≠ s.memory.get a → ∃ p,
    s.table.writableProperty id number = .ok p ∧ p.address ≤ a ∧ a < p.address + p.length

namespace WritesData

variable {number : Nat} {p : Property}

instance : Std.Refl (WritesData id number) := ⟨fun _ => ⟨rfl, rfl, fun _ ne => absurd rfl ne⟩⟩

theorem of_sameBut {m : Memory} (writable : s.table.writableProperty id number = .ok p)
    (same : s.memory.SameBut m p.address p.length) :
    s.WritesData id number { s with memory := m } := by
  refine ⟨same.size_eq, rfl, fun a ne => ⟨p, writable, ?_⟩⟩
  by_contra apart
  exact ne (same.get_eq a (by omega))

/-- Only a property of one or two bytes that the object has can be overwritten. -/
theorem touches (h : s.WritesData id number s') : s.Touches s' := by
  refine ⟨h.size_eq, h.table_eq ▸ .refl _, fun a ne => ?_⟩
  obtain ⟨p, writable, low, high⟩ := h.changed a ne
  obtain ⟨o, found, mem, short⟩ := writableProperty_eq_ok writable
  exact .inr ⟨id, o, p, found, mem, short, low, high⟩

end WritesData

/-! ## Single writes -/

theorem relinks_setByte {address : Nat} {value : Byte} (place : s.table.InEntry address) :
    s.Relinks (finalState (setByte address value) s) := by
  rw [setByte, finalState_get_bind]
  exact rel_finalState_lift_bind fun _ _ => .put value place

theorem relinks_change (same : ∀ o, (f o).properties = o.properties) :
    Leads Relinks (change id f) :=
  fun _ => .change same

/-- A byte of an entry that was found in the table some writes before. -/
theorem relinks_setEntry {u : ObjectStore} {value : Byte} (offset : Nat) (has : s.table.Has id)
    (since : s.Relinks u) (small : offset < linkedLength) :
    u.Relinks (finalState (setByte (s.table.entryAddress id + offset) value) u) :=
  relinks_setByte (since.shape.inEntry_iff.mpr
    ⟨id, has, Nat.le_add_right _ _, Nat.add_lt_add_left small _⟩)

/-- Such a byte, and what is done after it. -/
theorem relinks_setEntry_bind {u : ObjectStore} {value : Byte} {rest : ObjectM Unit}
    (offset : Nat) (has : s.table.Has id) (since : s.Relinks u) (small : offset < linkedLength)
    (after : ∀ v, s.Relinks v → v.Relinks (finalState rest v)) :
    u.Relinks (finalState
      (setByte (s.table.entryAddress id + offset) value >>= fun _ => rest) u) := by
  have first : u.Relinks (finalState (setByte (s.table.entryAddress id + offset) value) u) :=
    relinks_setEntry offset has since small
  refine rel_finalState_bind first fun _ v run => after v ?_
  rw [finalState_of_ok run] at first
  exact since.trans first

theorem relinks_syncLinks (id : Nat) : Leads Relinks (syncLinks id) := by
  intro s
  rw [syncLinks, finalState_get_bind]
  refine rel_finalState_lift_bind fun object found => ?_
  rw [finalState_get_bind]
  have has := has_of_get found
  exact relinks_setEntry_bind 4 has (.refl s) (by decide) fun _ since =>
    relinks_setEntry_bind 5 has since (by decide) fun _ since =>
      relinks_setEntry 6 has since (by decide)

theorem relinks_syncAttributes (id : Nat) : Leads Relinks (syncAttributes id) := by
  intro s
  rw [syncAttributes, finalState_get_bind]
  refine rel_finalState_lift_bind fun object found => ?_
  rw [finalState_get_bind]
  have has := has_of_get found
  exact relinks_setEntry_bind 0 has (.refl s) (by decide) fun _ since =>
    relinks_setEntry_bind 1 has since (by decide) fun _ since =>
      relinks_setEntry_bind 2 has since (by decide) fun _ since =>
        relinks_setEntry 3 has since (by decide)

/-! ## Changes of attributes and links -/

theorem relinks_assignAttribute (id number : Nat) (value : Bool) :
    Leads Relinks (assignAttribute id number value) :=
  .bind (.lift _) fun _ => .bind .get fun _ => .bind (.lift _) fun _ =>
    .bind (relinks_change fun _ => rfl) fun _ => relinks_syncAttributes id

theorem relinks_unchain (id parent : Nat) (next : Byte) :
    Leads Relinks (unchain id parent next) := by
  refine .bind .get fun s => .bind (.lift _) fun p => ?_
  dsimp only
  split
  · exact .bind (relinks_change fun _ => rfl) fun _ => relinks_syncLinks parent
  · exact .bind (.lift _) fun before =>
      .bind (relinks_change fun _ => rfl) fun _ => relinks_syncLinks before

theorem relinks_remove (id : Nat) : Leads Relinks (remove id) := by
  refine .bind .get fun s => .bind (.lift _) fun object => ?_
  have clear : Leads Relinks (do
      change id fun o => { o with parent := 0, sibling := 0 }
      syncLinks id) :=
    .bind (relinks_change fun _ => rfl) fun _ => relinks_syncLinks id
  split
  · exact .bind (relinks_unchain id _ _) fun _ => clear
  · exact clear

theorem relinks_insertInto (id parent : Nat) : Leads Relinks (insertInto id parent) := by
  have move : Leads Relinks (do
      let _ ← (← get).table.get parent
      let _ ← (← get).table.get id
      remove id
      let oldest := (← (← get).table.get parent).child
      change id fun o => { o with sibling := oldest, parent := UInt8.ofNat parent }
      change parent fun o => { o with child := UInt8.ofNat id }
      syncLinks id
      syncLinks parent : ObjectM Unit) :=
    .bind .get fun _ => .bind (.lift _) fun _ => .bind .get fun _ => .bind (.lift _) fun _ =>
      .bind (relinks_remove id) fun _ => .bind .get fun _ => .bind (.lift _) fun _ =>
        .bind (relinks_change fun _ => rfl) fun _ => .bind (relinks_change fun _ => rfl) fun _ =>
          .bind (relinks_syncLinks id) fun _ => relinks_syncLinks parent
  rw [insertInto]
  split
  · exact .bind (.throw _) fun _ => move
  · exact move

/-! ## Whole changes -/

theorem leads_syncLinks (id : Nat) : Leads Touches (syncLinks id) :=
  (relinks_syncLinks id).mono fun _ _ => Relinks.touches

theorem leads_unchain (id parent : Nat) (next : Byte) : Leads Touches (unchain id parent next) :=
  (relinks_unchain id parent next).mono fun _ _ => Relinks.touches

theorem leads_remove (id : Nat) : Leads Touches (remove id) :=
  (relinks_remove id).mono fun _ _ => Relinks.touches

theorem leads_insertInto (id parent : Nat) : Leads Touches (insertInto id parent) :=
  (relinks_insertInto id parent).mono fun _ _ => Relinks.touches

theorem leads_assignAttribute (id number : Nat) (value : Bool) :
    Leads Touches (assignAttribute id number value) :=
  (relinks_assignAttribute id number value).mono fun _ _ => Relinks.touches

/-- Writing a property writes to its data alone. -/
theorem writesData_putProperty (id number : Nat) (value : Word) :
    Leads (WritesData id number) (putProperty id number value) := by
  intro s
  rw [putProperty, finalState_get_bind]
  refine rel_finalState_lift_bind fun p writable => ?_
  obtain ⟨-, -, -, short⟩ := writableProperty_eq_ok writable
  split
  · next one =>
    rw [setByte, finalState_get_bind]
    exact rel_finalState_lift_bind fun _ _ =>
      .of_sameBut writable (one ▸ Memory.sameBut_put ..)
  · next other =>
    rw [setWord, finalState_get_bind]
    exact rel_finalState_lift_bind fun _ _ =>
      .of_sameBut writable (short.resolve_left other ▸ Memory.sameBut_putWord ..)

theorem leads_putProperty (id number : Nat) (value : Word) :
    Leads Touches (putProperty id number value) :=
  (writesData_putProperty id number value).mono fun _ _ => WritesData.touches

end ObjectStore

open ObjectStore in
/-- Only the overwriting of a property is no change of attributes and links. -/
theorem ObjectChange.relinks_action (change : ObjectChange)
    (links : ∀ id number value, change ≠ .putProperty id number value) :
    Leads Relinks change.action := by
  cases change with
  | remove id => exact relinks_remove id
  | insertInto id parent => exact relinks_insertInto id parent
  | assignAttribute id number value => exact relinks_assignAttribute id number value
  | putProperty id number value => exact absurd rfl (links id number value)

open ObjectStore in
/-- No change of objects writes anywhere else, not even one that fails half-way. -/
theorem ObjectChange.leads_action (change : ObjectChange) : Leads Touches change.action := by
  cases change with
  | remove id => exact leads_remove id
  | insertInto id parent => exact leads_insertInto id parent
  | assignAttribute id number value => exact leads_assignAttribute id number value
  | putProperty id number value => exact leads_putProperty id number value

end ZMachine
