import ZMachine.Host.Script
import ZMachine.Proofs.Engine.Outcome
import ZMachine.Proofs.Engine.Writes

/-!
# Objects in memory along a run

What a program asks about objects is answered from the table that was loaded. Instructions that
change attributes or links also change the entries in memory. As long as nothing else is stored over
the entries, a program that reads their bytes finds the same as one that asks.

## Main definitions

* `Machine.AnswersFromEntries` — questions about objects are answered as their entries would be.
* `Engine.LeavesEntries` — a step stores nothing over entries.

## Main statements

* `Engine.coherent_step` — a step that stores nothing over entries keeps them up to date.
* `Engine.run_coherent` — so does a run.
-/

namespace ZMachine

namespace Machine

/-! ## Questions about objects -/

/-- What a program asks about the links and attributes of an object is answered as if the entry of
the object in memory were read. -/
structure AnswersFromEntries (m : Machine) : Prop where
  parent : ∀ (i : Instruction) (id : Word) (rest : List Word), m.objects.Has id.toNat →
    (getParent i (id :: rest)).run m = EStateM.run (do
      let parent ← readByte (m.objects.entryAddress id.toNat + 4)
      storeResult i parent.toUInt16
      return .advanced) m
  sibling : ∀ (i : Instruction) (id : Word) (rest : List Word), m.objects.Has id.toNat →
    (followLink i (id :: rest) ObjectTable.sibling).run m = EStateM.run (do
      let sibling ← readByte (m.objects.entryAddress id.toNat + 5)
      storeResult i sibling.toUInt16
      branch i (sibling ≠ 0)) m
  child : ∀ (i : Instruction) (id : Word) (rest : List Word), m.objects.Has id.toNat →
    (followLink i (id :: rest) ObjectTable.child).run m = EStateM.run (do
      let child ← readByte (m.objects.entryAddress id.toNat + 6)
      storeResult i child.toUInt16
      branch i (child ≠ 0)) m
  inside : ∀ (i : Instruction) (id expected : Word) (rest : List Word), m.objects.Has id.toNat →
    (branchIfInside i (id :: expected :: rest)).run m = EStateM.run (do
      let parent ← readByte (m.objects.entryAddress id.toNat + 4)
      branch i (parent.toUInt16 = expected)) m
  /-- The attribute 0 is the first bit of the first byte. -/
  attributes : ∀ (i : Instruction) (id number : Word) (rest : List Word), m.objects.Has id.toNat →
    number.toNat < Attributes.count →
    (branchIfAttribute i (id :: number :: rest)).run m = EStateM.run (do
      let byte ← readByte (m.objects.entryAddress id.toNat + number.toNat / 8)
      branch i (byte.toBitVec.getMsbD (number.toNat % 8))) m

theorem run_readByte_bind {α : Type} {m : Machine} {address : Nat} {b : Byte}
    {f : Byte → MachineM α} (held : m.memory.byteAt address = .ok b) :
    (readByte address >>= f).run m = (f b).run m := by
  have read : (readByte address).run m = .ok b m := by
    rw [readByte, EStateM.run_bind, EStateM.run_get]
    dsimp only
    rw [EStateM.run_lift, held]
  rw [EStateM.run_bind, read]

/-- A link of an object is stored and tested as if its byte were read. -/
theorem run_followLink {m : Machine} {i : Instruction} {id : Word} {rest : List Word} {o : Object}
    {field : Object → Byte} {address : Nat} (found : m.objects.get? id.toNat = some o)
    (held : m.memory.byteAt address = .ok (field o)) :
    (followLink i (id :: rest) fun t id => field <$> t.get id).run m = EStateM.run (do
      let linked ← readByte address
      storeResult i linked.toUInt16
      branch i (linked ≠ 0)) m := by
  have known : field <$> m.objects.get id.toNat = .ok (field o) := by
    rw [ObjectTable.get_eq_ok.mpr found]
    rfl
  rw [run_readByte_bind held]
  simp only [followLink, operand, List.getElem?_cons_zero, EStateM.run_bind, EStateM.run_lift,
    EStateM.run_get, known]

/-- While entries are up to date, the program is answered from them. -/
theorem answersFromEntries_of_coherent {m : Machine} (h : m.objectStore.Coherent) :
    m.AnswersFromEntries where
  parent i id rest has := by
    obtain ⟨o, found⟩ := has.exists_get?
    have held : m.memory.byteAt (m.objects.entryAddress id.toNat + 4) = .ok o.parent :=
      h.byteAt found (by decide)
    rw [run_readByte_bind held]
    simp [getParent, operand, ObjectTable.parent, ObjectTable.get_eq_ok.mpr found]
  sibling i id rest has := by
    obtain ⟨o, found⟩ := has.exists_get?
    exact run_followLink found (h.byteAt found (by decide))
  child i id rest has := by
    obtain ⟨o, found⟩ := has.exists_get?
    exact run_followLink found (h.byteAt found (by decide))
  inside i id expected rest has := by
    obtain ⟨o, found⟩ := has.exists_get?
    have held : m.memory.byteAt (m.objects.entryAddress id.toNat + 4) = .ok o.parent :=
      h.byteAt found (by decide)
    rw [run_readByte_bind held]
    simp [branchIfInside, operand, ObjectTable.parent, ObjectTable.get_eq_ok.mpr found]
  attributes i id number rest has small := by
    obtain ⟨o, found⟩ := has.exists_get?
    obtain ⟨b, held, isSet⟩ := h.byteAt_attribute found small
    change m.memory.byteAt (m.objects.entryAddress id.toNat + number.toNat / 8) = .ok b at held
    have known : m.objects.hasAttribute id.toNat number.toNat =
        .ok (o.attributes.has number.toNat) := by
      rw [ObjectTable.hasAttribute, ObjectTable.requireAttribute, if_pos small,
        ObjectTable.get_eq_ok.mpr found]
      rfl
    rw [run_readByte_bind held, ← isSet]
    simp [branchIfAttribute, operand, known]

end Machine

namespace Engine

variable {η : Type} [Host η]

open Machine

/-- An instruction that changes attributes or links does not return. -/
theorem not_returned_of_relinks {e : Engine η} {i : Instruction} {opcode : Opcode} {value : Word}
    (running : e.halted = false)
    (decoded : Instruction.decode e.machine.memory e.machine.pc = .ok i)
    (known : i.opcode? = some opcode) (relinks : opcode.relinks = true) :
    answer step e ≠ .ok (.returned value) := by
  intro returned
  obtain ⟨i', opcode', values, ready, executes⟩ := exists_executes running returned
  obtain rfl := Except.ok.inj (decoded.symm.trans executes.decoded)
  obtain rfl := Option.some.inj (known.symm.trans executes.known)
  have mayEnd := yields_perform opcode i values _ _ executes.performed
  revert relinks mayEnd
  cases opcode <;> simp [Opcode.relinks, Opcode.MayEnd, Opcode.branches]

/-- No byte of attributes or links is changed by what the step stores in an array, in a buffer, in a
global or in a property. -/
def LeavesEntries (e : Engine η) : Prop :=
  ∀ a w, e.machine.objects.InEntry a → e.machine.StepWrites (answer step e) w →
    w.Stores e.machine a → (finalState step e).machine.memory.get a = e.machine.memory.get a

/-- A step, also one that fails, keeps entries up to date. -/
theorem coherent_step {e : Engine η} (coherent : e.machine.objectStore.Coherent)
    (leaves : LeavesEntries e) : (finalState step e).machine.objectStore.Coherent := by
  obtain ⟨-, -, stopped⟩ | ⟨running, out, cycle, answered⟩ := step_cases e
  · rwa [stopped]
  -- A host that fails at the end of the story does not change what was written.
  have same (value : Word) (returned : out = .ok (.returned value)) :
      answer step e = .ok (.returned value) := by
    obtain same | ⟨quit, -⟩ := answered
    · rw [same, returned]
    · exact nomatch quit.symm.trans returned
  by_cases links : ∃ i opcode, Instruction.decode e.machine.memory e.machine.pc = .ok i ∧
      i.opcode? = some opcode ∧ opcode.relinks = true
  · obtain ⟨i, opcode, decoded, known, relinks⟩ := links
    exact cycle.keepsEntries decoded known relinks (fun value returned =>
      not_returned_of_relinks running decoded known relinks (same value returned)) coherent
  · refine (cycle.storesOnly fun w written => ?_).coherent coherent fun a w place written =>
      leaves a w place ?_
    · cases written with
      | result _ wanted =>
        obtain ⟨-, wanted⟩ := wanted
        exact wanted.relinks_eq
      | @instruction i _ _ _ decoded _ writes =>
        obtain ⟨opcode, known, writes⟩ := writes
        rw [writes.relinks_eq, Bool.eq_false_iff]
        exact fun relinks => links ⟨i, opcode, decoded, known, relinks⟩
    · cases written with
      | result returned wanted => exact .result (same _ returned) wanted
      | instruction decoded looked writes => exact .instruction decoded looked writes

/-- Let a story be loaded, and run for any number of steps, of which some may fail. Say that none of
them changes attributes or links in memory by storing in an array, in a buffer for a typed line, in
a global or in a property; in particular, that nothing is stored there in these ways. Then at the
end the attributes, parent, sibling and child of each object are those that its entry in memory
says, and a program that asks for them gets the answers that it would get from reading these
bytes. -/
theorem run_coherent {m : Memory} {random : Random} {e : Engine η}
    (loaded : Machine.load m random = .ok e.machine) (n : Nat)
    (leaves : ∀ k < n, LeavesEntries (e.after k)) :
    (∀ id o, (e.after n).machine.objects.get? id = some o →
      (e.after n).machine.objectStore.EntryAgrees id o) ∧
    (e.after n).machine.AnswersFromEntries := by
  have coherent : (e.after n).machine.objectStore.Coherent := by
    induction n with
    | zero =>
      obtain ⟨h, objects, _, -, readObjects, -, start⟩ := load_iff.mp loaded
      rw [after, start]
      exact ObjectStore.coherent_of_load readObjects
    | succ n ih =>
      exact coherent_step (ih fun k before => leaves k (Nat.lt_succ_of_lt before))
        (leaves n (Nat.lt_succ_self n))
  exact ⟨fun id o found => coherent.entryAgrees found, answersFromEntries_of_coherent coherent⟩

/-- Six steps of a story. The first one moves an object, later ones store in a property and in a
global and the last one fails; none of them writes over an entry. -/
theorem run_coherent_boxStory :
    let e : Engine Script := ofMachine boxMachine (Script.ofLines [])
    Machine.load boxStory (Random.predictable 0) = .ok e.machine ∧
      (∀ k < 6, LeavesEntries (e.after k)) ∧
      answer step (e.after 5) = .error (.writeOutsideDynamicMemory 88) ∧
      (e.after 6).machine.memory.get 77 = 1 ∧ (e.after 6).machine.objects.parentOf 2 = 1 ∧
      (∀ id o, (e.after 6).machine.objects.get? id = some o →
        (e.after 6).machine.objectStore.EntryAgrees id o) ∧
      (e.after 6).machine.AnswersFromEntries := by
  intro e
  have leaves : ∀ k < 6, LeavesEntries (e.after k) := by
    intro k before a w place written stores
    have shape := (tracks_confined.after e k).shape
    obtain ⟨id, ⟨-, few⟩, low, high⟩ := shape.inEntry_iff.mp place
    have two : e.machine.objects.size = 2 := rfl
    have table : e.machine.objects.address = 2 := rfl
    simp only [ObjectTable.entryAddress, ObjectTable.entryAt, ObjectTable.defaultsLength,
      ObjectTable.maxProperty, ObjectTable.entryLength, ObjectTable.linkedLength, table] at low high
    have same : k = 0 ∨ ∀ a < 80, 64 ≤ a →
        (finalState step (e.after k)).machine.memory.get a = (e.after k).machine.memory.get a := by
      interval_cases k
      · exact .inl rfl
      all_goals exact .inr (by decide +kernel)
    rcases same with rfl | same
    · have moves : Instruction.decode (e.after 0).machine.memory (e.after 0).machine.pc =
          .ok ⟨100, .two, 14, .long, [.small 2, .small 1], none, none, none, 3⟩ := by decide +kernel
      have moved : answer step (e.after 0) = .ok .advanced := by decide +kernel
      cases written with
      | result returned _ => cases moved.symm.trans returned
      | instruction decoded _ writes =>
        cases decoded.symm.trans moves
        obtain ⟨opcode, known, writes⟩ := writes
        cases known
        cases writes with
        | result never _ => cases never
        | assigned never _ => cases never
        | insert => exact stores.elim
    · exact same a (by omega) (by omega)
  obtain ⟨agrees, answers⟩ := run_coherent (e := e) load_boxStory 6 leaves
  exact ⟨load_boxStory, leaves, by decide +kernel, by decide +kernel, by decide +kernel, agrees,
    answers⟩

end Engine
end ZMachine
