import ZMachine.Proofs.Object.Coherence
import ZMachine.Proofs.Object.Reached

/-!
# Changes that fail

A change of objects is made in several steps, in the table and in memory. On corrupt links it may
fail: a parent or a sibling is no object of the table, or the chain of siblings does not lead to the
object. All of this is found out before the first step. From there on nothing can fail, because the
entries of all objects lie in memory.

## Main statements

* `ObjectStore.succeeds_insertInto` — a move succeeds if the object can be taken out of its place.
* `ObjectStore.change_all_or_nothing` — a change that fails has changed nothing.
-/

namespace ZMachine

open ObjectTable

namespace ObjectStore

variable {s : ObjectStore} {id parent : Nat}

theorem succeeds_change_syncLinks {f : Object → Object} (fits : s.Fits) (has : s.table.Has id) :
    Succeeds (change id f >>= fun _ => syncLinks id) s := by
  obtain ⟨s', run, -⟩ := run_change_syncLinks (f := f) fits has
  exact ⟨(), s', run⟩

/-- An attribute is changed in the table and in the entry, or in neither. -/
theorem leavesIntact_assignAttribute (fits : s.Fits) (id number : Nat) (value : Bool) :
    LeavesIntact (assignAttribute id number value) s := by
  refine .lift_bind fun _ _ => .get_bind (.lift_bind fun o found => Succeeds.leavesIntact ?_)
  obtain ⟨o', found'⟩ := (has_modify.mpr (has_of_get found)).exists_get?
  exact ⟨(), _, run_syncAttributes fits.change found'⟩

/-- The only write is the last step. -/
theorem leavesIntact_putProperty (id number : Nat) (value : Word) :
    LeavesIntact (putProperty id number value) s := by
  refine .get_bind (.lift_bind fun p _ => ?_)
  split
  · exact .get_bind (.lift_bind fun _ _ => Succeeds.leavesIntact ⟨(), _, rfl⟩)
  · exact .get_bind (.lift_bind fun _ _ => Succeeds.leavesIntact ⟨(), _, rfl⟩)

theorem leavesIntact_unchain (fits : s.Fits) (id parent : Nat) (next : Byte) :
    LeavesIntact (unchain id parent next) s := by
  refine .get_bind (.lift_bind fun p found => ?_)
  dsimp only
  split
  · exact (succeeds_change_syncLinks fits (has_of_get found)).leavesIntact
  · exact .lift_bind fun before search =>
      (succeeds_change_syncLinks fits (finds_of_siblingBefore search).has).leavesIntact

/-- An object is removed, or nothing has changed. -/
theorem leavesIntact_remove (fits : s.Fits) (id : Nat) : LeavesIntact (remove id) s := by
  refine .get_bind (.lift_bind fun o found => ?_)
  have has := has_of_get found
  dsimp only
  split
  · refine .bind (leavesIntact_unchain fits id _ _) fun _ s' run => ?_
    have touches := (leads_unchain id o.parent.toNat o.sibling).of_ok run
    exact succeeds_change_syncLinks (touches.fits fits) (touches.has has)
  · exact (succeeds_change_syncLinks fits has).leavesIntact

/-- Linking an object to its new parent, once it is out of its old place. -/
theorem succeeds_link (fits : s.Fits) (has : s.table.Has id) (hasParent : s.table.Has parent) :
    Succeeds (do
      let oldest := (← (← get).table.get parent).child
      change id fun o => { o with sibling := oldest, parent := UInt8.ofNat parent }
      change parent fun o => { o with child := UInt8.ofNat id }
      syncLinks id
      syncLinks parent : ObjectM Unit) s := by
  obtain ⟨p, found⟩ := hasParent.exists_get?
  simp only [Succeeds, EStateM.run_bind, EStateM.run_get, EStateM.run_lift, get_eq_ok.mpr found,
    run_change]
  obtain ⟨u, run, fits', table⟩ := exists_run_syncLinks fits.change.change
    (has_modify.mpr (has_modify.mpr has))
  rw [run]
  have hasParent' : u.table.Has parent := by
    rw [table]
    exact has_modify.mpr (has_modify.mpr hasParent)
  obtain ⟨v, run', -⟩ := exists_run_syncLinks fits' hasParent'
  exact ⟨(), v, run'⟩

/-- An object is inserted, or nothing has changed; once it is detached, nothing can fail. -/
theorem leavesIntact_insertInto (fits : s.Fits) (id parent : Nat) :
    LeavesIntact (insertInto id parent) s := by
  rw [insertInto]
  split
  · refine .bind (.throw _) fun _ _ run => ?_
    cases run
  · refine .get_bind (.lift_bind fun p foundParent => .get_bind (.lift_bind fun o found => ?_))
    refine .bind (leavesIntact_remove fits id) fun _ s' run => ?_
    have touches := (leads_remove id).of_ok run
    exact succeeds_link (touches.fits fits) (touches.has (has_of_get found))
      (touches.has (has_of_get foundParent))

/-- The only thing that can keep an object from moving into another one is its old place. -/
theorem succeeds_insertInto (fits : s.Fits) (ne : id ≠ parent) (has : s.table.Has id)
    (hasParent : s.table.Has parent) (removed : Succeeds (remove id) s) :
    Succeeds (insertInto id parent) s := by
  obtain ⟨o, found⟩ := has.exists_get?
  obtain ⟨p, foundParent⟩ := hasParent.exists_get?
  obtain ⟨_, s', run⟩ := removed
  have touches := (leads_remove id).of_ok run
  simp only [insertInto, if_neg ne, Succeeds, EStateM.run_bind, EStateM.run_get, EStateM.run_lift,
    get_eq_ok.mpr found, get_eq_ok.mpr foundParent, run]
  exact succeeds_link (touches.fits fits) (touches.has has) (touches.has hasParent)

/-- Whatever an instruction asks of the objects is done, or nothing has changed. -/
theorem leavesIntact_action (fits : s.Fits) (change : ObjectChange) :
    LeavesIntact change.action s := by
  cases change with
  | remove id => exact leavesIntact_remove fits id
  | insertInto id parent => exact leavesIntact_insertInto fits id parent
  | assignAttribute id number value => exact leavesIntact_assignAttribute fits id number value
  | putProperty id number value => exact leavesIntact_putProperty id number value

/-- For every table that loads, however corrupt its links are, and whatever has been done since: a
change of objects that fails leaves the table and each byte of memory as they were. A move into
another object does not fail any more once it has taken the object out of its old place. -/
theorem change_all_or_nothing {m : Memory} {address : Nat} {abbreviations : AbbreviationTable}
    {t : ObjectTable} (loaded : load m address abbreviations = .ok t) (reached : Reached m t s) :
    (∀ (change : ObjectChange) e, answer change.action s = .error e →
      finalState change.action s = s) ∧
    (∀ id parent, id ≠ parent → s.table.Has id → s.table.Has parent →
      answer (remove id) s = .ok () → answer (insertInto id parent) s = .ok ()) := by
  have fits := reached.fits loaded
  refine ⟨fun change e failed => (leavesIntact_action fits change).finalState_eq failed,
    fun id parent ne has hasParent removed => ?_⟩
  obtain ⟨⟨⟩, inserted⟩ := succeeds_iff.mp
    (succeeds_insertInto fits ne has hasParent (succeeds_iff.mpr ⟨(), removed⟩))
  exact inserted

/-- A corrupt table of three objects. The parent of the first is the second, whose chain of children
leads past the first and out of the table. The parent of the third is no object. -/
def strayMemory : Memory :=
  ⟨(List.replicate 62 (0 : Byte) ++
    [0, 0, 0, 0, 2, 3, 0, 0, 89,
      0, 0, 0, 0, 0, 9, 3, 0, 89,
      0, 0, 0, 0, 7, 9, 0, 0, 89,
      0, 0]).toArray⟩

def strayTable : ObjectTable :=
  ⟨0, #[⟨0, 2, 3, 0, 89, none, []⟩, ⟨0, 0, 9, 3, 89, none, []⟩, ⟨0, 7, 9, 0, 89, none, []⟩]⟩

/-- An attribute is set and a link of the second object is overwritten in memory alone. Neither the
first nor the third object can be moved then, and nothing is changed; the second can. -/
theorem change_strayMemory :
    let s := finalState (ObjectChange.assignAttribute 1 5 true).action ⟨strayMemory, strayTable⟩
    let u : ObjectStore := { s with memory := s.memory.put 77 1 }
    load strayMemory 0 ⟨0⟩ = .ok strayTable ∧ u ≠ ⟨strayMemory, strayTable⟩ ∧
      answer (insertInto 1 3) u = .error (.invalidOperand (.noObject 9 3)) ∧
      finalState (insertInto 1 3) u = u ∧
      answer (remove 3) u = .error (.invalidOperand (.noObject 7 3)) ∧ finalState (remove 3) u = u ∧
      answer (insertInto 2 1) u = .ok () := by
  intro s u
  have loaded : load strayMemory 0 ⟨0⟩ = .ok strayTable := by decide +kernel
  have reached : Reached strayMemory strayTable u :=
    ((Reached.loaded).change (.assignAttribute 1 5 true)).poke 77 1
  obtain ⟨intact, moves⟩ := change_all_or_nothing loaded reached
  have lost : answer (insertInto 1 3) u = .error (.invalidOperand (.noObject 9 3)) := by
    decide +kernel
  have orphan : answer (remove 3) u = .error (.invalidOperand (.noObject 7 3)) := by
    decide +kernel
  exact ⟨loaded, by decide +kernel, lost, intact (.insertInto 1 3) _ lost, orphan,
    intact (.remove 3) _ orphan,
    moves 2 1 (by decide) (by decide +kernel) (by decide +kernel) (by decide +kernel)⟩

end ObjectStore
end ZMachine
