import ZMachine.Object.Store
import ZMachine.Proofs.Memory
import ZMachine.Proofs.Object.Before
import ZMachine.Proofs.Object.Relink

/-!
# What moving an object does to a store

A store fits when the entry of each object lies in memory. Then no write of links can fail, and what
a move does is read off the links that it writes.

## Main definitions

* `ObjectStore.Fits` — the entries of a store's objects lie in its memory.

## Main statements

* `ObjectStore.run_remove` — taking away an object of a consistent table succeeds.
* `ObjectStore.run_insertInto` — so does moving it into another one.
-/

namespace ZMachine

open ObjectTable

namespace ObjectStore

variable {s : ObjectStore} {id parent : Nat} {o : Object} {f : Object → Object}

/-- The entry of every object lies in memory, and a byte can hold the number of any object. -/
structure Fits (s : ObjectStore) : Prop where
  size_le : s.table.size ≤ maxObjects
  entry_le : ∀ id, s.table.Has id → s.table.entryAddress id + entryLength ≤ s.memory.size

/-! ## Single writes -/

theorem run_setByte {address : Nat} {value : Byte} (inside : address < s.memory.size) :
    (setByte address value).run s = .ok () { s with memory := s.memory.put address value } := by
  have ok : s.memory.check address 1 = .ok () := Memory.check_eq_ok.mpr inside
  simp [setByte, ok]

@[simp] theorem run_change :
    (change id f).run s = .ok () { s with table := s.table.modify id f } := rfl

def withLinks (s : ObjectStore) (id : Nat) (o : Object) : ObjectStore :=
  let entry := s.table.entryAddress id
  let parented := s.memory.put (entry + 4) o.parent
  let joined := parented.put (entry + 5) o.sibling
  { s with memory := joined.put (entry + 6) o.child }

@[simp] theorem table_withLinks : (s.withLinks id o).table = s.table := rfl

/-- The links of an object are written to its entry. -/
theorem run_syncLinks (fits : s.Fits) (h : s.table.get? id = some o) :
    (syncLinks id).run s = .ok () (s.withLinks id o) := by
  have inside := fits.entry_le id (has_of_get? h)
  rw [entryLength] at inside
  simp only [syncLinks, EStateM.run_bind, EStateM.run_get, EStateM.run_lift, get_eq_ok.mpr h]
  rw [run_setByte (by omega)]
  dsimp only
  rw [run_setByte (by simpa using by omega)]
  dsimp only
  rw [run_setByte (by simpa using by omega)]
  rfl

/-! ## Fitting is kept -/

theorem Fits.change (fits : s.Fits) : Fits { s with table := s.table.modify id f } where
  size_le := by simpa using fits.size_le
  entry_le x has := by
    simpa [entryAddress] using fits.entry_le x (has_modify.mp has)

theorem Fits.withLinks (fits : s.Fits) : (s.withLinks id o).Fits where
  size_le := fits.size_le
  entry_le x has := by simpa [ObjectStore.withLinks] using fits.entry_le x has

/-- Writing the links of an object to memory does not change the table. -/
theorem exists_run_syncLinks (fits : s.Fits) (has : s.table.Has id) :
    ∃ s', (syncLinks id).run s = .ok () s' ∧ s'.Fits ∧ s'.table = s.table := by
  obtain ⟨o, ho⟩ := has.exists_get?
  exact ⟨_, run_syncLinks fits ho, fits.withLinks, rfl⟩

/-- Changing an object in the table and writing its links to memory. -/
theorem run_change_syncLinks (fits : s.Fits) (has : s.table.Has id) :
    ∃ s', (change id f >>= fun _ => syncLinks id).run s = .ok () s' ∧ s'.Fits ∧
      s'.table = s.table.modify id f := by
  rw [EStateM.run_bind, run_change]
  exact exists_run_syncLinks fits.change (has_modify.mpr has)

/-! ## Moves -/

/-- A child is taken out of its parent's chain. -/
theorem run_unchain {next : Byte} (fits : s.Fits) (consistent : s.table.ChainConsistent)
    (has : s.table.Has (s.table.parentOf id)) (isNext : next.toNat = s.table.siblingOf id) :
    ∃ s', (unchain id (s.table.parentOf id) next).run s = .ok () s' ∧ s'.Fits ∧
      s'.table.address = s.table.address ∧ s'.table.size = s.table.size ∧
      s'.table.parentOf = s.table.parentOf ∧ Bypassed s.table s'.table id := by
  obtain ⟨p, hp⟩ := has.exists_get?
  have mem := (consistent.mem_children has).mpr ⟨has_of_parentOf_ne_zero has.ne_zero, rfl⟩
  have chain := consistent.chain_children has
  simp only [unchain, EStateM.run_bind, EStateM.run_get, EStateM.run_lift, get_eq_ok.mpr hp]
  by_cases isFirst : s.table.childOf (s.table.parentOf id) = id
  · obtain ⟨s', run, fits', table⟩ :=
      run_change_syncLinks (f := fun o => { o with child := next }) fits has
    rw [if_pos (childOf_eq hp ▸ isFirst)]
    refine ⟨s', run, fits', by simp [table], by simp [table], ?_, .first has isFirst ?_ ?_⟩
    · funext x
      rw [table]
      exact linkOf_modify_of_same Object.parent fun _ => rfl
    · intro x
      rw [table, ← isNext]
      exact linkOf_modify Object.child next (fun _ => rfl) has
    · intro x _
      rw [table]
      exact linkOf_modify_of_same Object.sibling fun _ => rfl
  · obtain ⟨front, before, back, place, finds⟩ := chain.exists_finds mem isFirst
    have hasBefore : s.table.Has before := chain.has_of_mem (by simp [place])
    obtain ⟨s', run, fits', table⟩ :=
      run_change_syncLinks (f := fun o => { o with sibling := next }) fits hasBefore
    rw [childOf_eq hp] at isFirst finds
    rw [if_neg isFirst, EStateM.run_bind, EStateM.run_lift, siblingBefore_eq_ok_iff.mpr finds]
    refine ⟨s', run, fits', by simp [table], by simp [table], ?_, .later has place ?_ ?_⟩
    · funext x
      rw [table]
      exact linkOf_modify_of_same Object.parent fun _ => rfl
    · intro x
      rw [table]
      exact linkOf_modify_of_same Object.child fun _ => rfl
    · intro x _
      rw [table, ← isNext]
      exact linkOf_modify Object.sibling next (fun _ => rfl) hasBefore

/-- The last part of taking an object away: its own links are cleared. -/
theorem run_clearLinks {t : ObjectTable} (fits : s.Fits) (has : s.table.Has id)
    (size : s.table.size = t.size) (parents : s.table.parentOf = t.parentOf)
    (bypassed : Bypassed t s.table id) :
    ∃ s', (change id (fun o => { o with parent := 0, sibling := 0 }) >>=
        fun _ => syncLinks id).run s = .ok () s' ∧
      s'.Fits ∧ s'.table.address = s.table.address ∧ Unlinked t s'.table id := by
  obtain ⟨s', run, fits', table⟩ :=
    run_change_syncLinks (f := fun o => { o with parent := 0, sibling := 0 }) fits has
  have child (x : Nat) : s'.table.childOf x = s.table.childOf x := by
    rw [table]
    exact linkOf_modify_of_same Object.child fun _ => rfl
  have sibling (x : Nat) :
      s'.table.siblingOf x = if x = id then 0 else s.table.siblingOf x := by
    rw [table]
    exact linkOf_modify Object.sibling 0 (fun _ => rfl) has
  refine ⟨s', run, fits', by simp [table], by simp [table, size], fun x => ?_, ?_, ?_⟩
  · rw [table, ← parents]
    exact linkOf_modify Object.parent 0 (fun _ => rfl) has
  · rw [sibling, if_pos rfl]
  · exact bypassed.congr child fun x ne => by rw [sibling, if_neg ne]

/-- Taking away an object of a consistent table succeeds, and undoes the links that lead to it. -/
theorem run_remove (fits : s.Fits) (consistent : s.table.ChainConsistent)
    (has : s.table.Has id) :
    ∃ s', (remove id).run s = .ok () s' ∧ s'.Fits ∧ s'.table.address = s.table.address ∧
      Unlinked s.table s'.table id := by
  obtain ⟨o, ho⟩ := has.exists_get?
  simp only [remove, EStateM.run_bind, EStateM.run_get, EStateM.run_lift, get_eq_ok.mpr ho]
  by_cases noParent : o.parent = 0
  · rw [if_neg (by simpa using noParent)]
    refine run_clearLinks fits has rfl rfl (.root ?_ (fun _ => rfl) fun _ _ => rfl)
    rw [parentOf_eq ho, noParent]
    rfl
  · have hasParent : s.table.Has (s.table.parentOf id) := by
      refine (consistent.parent id has).resolve_left fun eq => noParent ?_
      rw [parentOf_eq ho] at eq
      exact UInt8.toNat_inj.mp eq
    obtain ⟨u, run, fitsU, address, size, parents, bypassed⟩ :=
      run_unchain fits consistent hasParent (siblingOf_eq ho).symm
    have hasU : u.table.Has id := ⟨has.1, size ▸ has.2⟩
    rw [if_pos noParent, EStateM.run_bind, ← parentOf_eq ho, run]
    rw [← address]
    exact run_clearLinks fitsU hasU size parents bypassed

/-- The new links of a moved object and of its new parent. -/
theorem linked_modify {t : ObjectTable} (size_le : t.size ≤ maxObjects) (hasId : t.Has id)
    (hasNew : t.Has parent) {p : Object} (hp : t.get? parent = some p) :
    Linked t ((t.modify id fun o =>
        { o with sibling := p.child, parent := UInt8.ofNat parent }).modify parent fun o =>
        { o with child := UInt8.ofNat id }) id parent := by
  have number (x : Nat) (has : t.Has x) : (UInt8.ofNat x).toNat = x := by
    have := has.2
    rw [maxObjects] at size_le
    simp only [UInt8.toNat_ofNat']
    omega
  refine ⟨by simp, fun x => ?_, fun x => ?_, fun x => ?_⟩
  · unfold parentOf
    rw [linkOf_modify_of_same Object.parent,
      linkOf_modify Object.parent (UInt8.ofNat parent) _ hasId, number parent hasNew] <;>
      exact fun _ => rfl
  · unfold siblingOf
    rw [linkOf_modify_of_same Object.sibling, linkOf_modify Object.sibling p.child _ hasId,
      childOf_eq hp] <;>
      exact fun _ => rfl
  · unfold childOf
    rw [linkOf_modify Object.child (UInt8.ofNat id) _ (has_modify.mpr hasNew), number id hasId,
      linkOf_modify_of_same Object.child] <;>
      exact fun _ => rfl

/-- Moving an object of a consistent table into another one succeeds, and makes it the first child
there. -/
theorem run_insertInto (fits : s.Fits) (consistent : s.table.ChainConsistent)
    (hasId : s.table.Has id) (hasNew : s.table.Has parent) (ne : id ≠ parent) :
    ∃ s', (insertInto id parent).run s = .ok () s' ∧ s'.Fits ∧
      s'.table.address = s.table.address ∧ s'.table.ChainConsistent ∧
      Reparented s.table s'.table id parent := by
  obtain ⟨u, run, fitsU, address, unlinked⟩ := run_remove fits consistent hasId
  obtain ⟨consistentU, detached⟩ := unlinked.detached consistent
  have has_iff (x : Nat) : u.table.Has x ↔ s.table.Has x := by simp [Has, detached.size_eq]
  obtain ⟨o, ho⟩ := hasId.exists_get?
  obtain ⟨p, hp⟩ := hasNew.exists_get?
  obtain ⟨q, hq⟩ := ((has_iff parent).mpr hasNew).exists_get?
  simp only [insertInto, if_neg ne, EStateM.run_bind, EStateM.run_get, EStateM.run_lift,
    get_eq_ok.mpr ho, get_eq_ok.mpr hp, run, get_eq_ok.mpr hq, run_change]
  have linked := linked_modify fitsU.size_le ((has_iff id).mpr hasId)
    ((has_iff parent).mpr hasNew) hq
  obtain ⟨v, runV, fitsV, tableV⟩ := exists_run_syncLinks (fitsU.change.change)
    (has_modify.mpr (has_modify.mpr ((has_iff id).mpr hasId)))
  rw [runV]
  dsimp only at tableV ⊢
  rw [← tableV] at linked
  have hasNewV : v.table.Has parent := by simp [tableV, (has_iff parent).mpr hasNew]
  obtain ⟨w, runW, fitsW, tableW⟩ := exists_run_syncLinks fitsV hasNewV
  refine ⟨w, runW, fitsW, by simp [tableW, tableV, address], ?_⟩
  rw [tableW]
  exact detached.reparented linked consistent consistentU hasId hasNew

/-! ## Moves that are refused -/

theorem run_remove_of_not_has (no : ¬ s.table.Has id) :
    (remove id).run s = .error (.invalidOperand (.noObject id s.table.size)) s := by
  simp only [remove, EStateM.run_bind, EStateM.run_get, EStateM.run_lift, get_eq_error no]

/-- An object is not inserted into itself. -/
theorem run_insertInto_self :
    (insertInto id id).run s = .error (.invalidOperand (.ownParent id)) s := by
  simp [insertInto]

/-- A number that is no object's is refused, and named. -/
theorem run_insertInto_of_not_has (ne : id ≠ parent)
    (no : ¬ (s.table.Has id ∧ s.table.Has parent)) :
    ∃ bad, (bad = id ∨ bad = parent) ∧ ¬ s.table.Has bad ∧ (insertInto id parent).run s =
      .error (.invalidOperand (.noObject bad s.table.size)) s := by
  by_cases hasNew : s.table.Has parent
  · have noId : ¬ s.table.Has id := fun has => no ⟨has, hasNew⟩
    obtain ⟨p, hp⟩ := hasNew.exists_get?
    refine ⟨id, .inl rfl, noId, ?_⟩
    simp only [insertInto, if_neg ne, EStateM.run_bind, EStateM.run_get, EStateM.run_lift,
      get_eq_ok.mpr hp, get_eq_error noId]
  · refine ⟨parent, .inr rfl, hasNew, ?_⟩
    simp only [insertInto, if_neg ne, EStateM.run_bind, EStateM.run_get, EStateM.run_lift,
      get_eq_error hasNew]

end ObjectStore
end ZMachine
