import Mathlib.Tactic.IntervalCases
import ZMachine.Proofs.Object.Attributes
import ZMachine.Proofs.Object.Footprint
import ZMachine.Proofs.Object.Loaded

/-!
# The table and the entries in memory

Attributes and links are kept twice, in the table and in the entries in memory. A change of objects
first changes the table, and for a while the entries of a few objects are stale. When it is over
they are up to date again, also when it fails, because it only fails before it has changed anything
or between changes.

## Main definitions

* `Object.entryByte` — the bytes of an entry that hold attributes and links.
* `ObjectStore.CoherentBut`, `ObjectStore.Coherent` — entries agree with the table, up to stale
  bytes.

## Main statements

* `ObjectStore.coherent_of_load` — a loaded table agrees with the memory it was loaded from.
* `ObjectStore.leads_remove_coherent`, `ObjectStore.leads_insertInto_coherent`,
  `ObjectStore.leads_assignAttribute_coherent` — changes of attributes and links keep this so.
-/

namespace ZMachine

open ObjectTable

/-- The bytes of attributes and links, in the order of the entry. -/
def Object.entryByte (o : Object) : (offset : Nat) → Byte
  | 4 => o.parent
  | 5 => o.sibling
  | 6 => o.child
  | index => o.attributes.byte index

/-- Different bytes of entries lie in different places. -/
theorem ObjectTable.entryAddress_add_inj {t : ObjectTable} {id other offset k : Nat}
    (has : t.Has id) (has' : t.Has other) (small : offset < linkedLength)
    (small' : k < linkedLength) :
    t.entryAddress id + offset = t.entryAddress other + k ↔ id = other ∧ offset = k := by
  have := has.1
  have := has'.1
  simp only [entryAddress, entryAt, entryLength, linkedLength] at *
  omega

namespace ObjectStore

variable {s s' : ObjectStore} {id : Nat} {o : Object} {f : Object → Object}
  {stale stale' : Nat → Nat → Prop}

/-- The attributes and links in the entries are those in the table, except perhaps for stale
bytes. -/
structure CoherentBut (stale : (id offset : Nat) → Prop) (s : ObjectStore) : Prop where
  fits : s.Fits
  agrees : ∀ id o offset, s.table.get? id = some o → offset < linkedLength → ¬ stale id offset →
    s.memory.get (s.table.entryAddress id + offset) = o.entryByte offset

abbrev Coherent : ObjectStore → Prop :=
  CoherentBut fun _ _ => False

namespace CoherentBut

theorem mono (h : s.CoherentBut stale)
    (imp : ∀ x k, s.table.Has x → k < linkedLength → stale x k → stale' x k) :
    s.CoherentBut stale' :=
  ⟨h.fits, fun x o k found small fresh => h.agrees x o k found small fun was =>
    fresh (imp x k (has_of_get? found) small was)⟩

/-- A change in the table makes those bytes stale that it changes. -/
theorem change (h : s.CoherentBut stale) (id : Nat) (changed : Nat → Prop)
    (same : ∀ o k, k < linkedLength → ¬ changed k → (f o).entryByte k = o.entryByte k) :
    CoherentBut (fun x k => stale x k ∨ x = id ∧ changed k)
      { s with table := s.table.modify id f } := by
  refine ⟨h.fits.change, fun x o k found small fresh => ?_⟩
  rw [not_or, not_and] at fresh
  rw [get?_modify] at found
  simp only [entryAddress, address_modify]
  split at found
  · next eq =>
    obtain ⟨before, was, rfl⟩ := Option.map_eq_some_iff.mp found
    rw [same before k small (fresh.2 eq)]
    exact h.agrees x before k was small fresh.1
  · exact h.agrees x o k found small fresh.1

/-- Writing a byte of an entry brings it up to date. -/
theorem put (h : s.CoherentBut stale) (offset : Nat) (found : s.table.get? id = some o)
    (small : offset < linkedLength) :
    CoherentBut (fun x k => stale x k ∧ ¬ (x = id ∧ k = offset))
      { s with memory :=
        s.memory.put (s.table.entryAddress id + offset) (o.entryByte offset) } := by
  have has := has_of_get? found
  have inside := h.fits.entry_le id has
  refine ⟨⟨h.fits.size_le, fun x hx => by simpa using h.fits.entry_le x hx⟩,
    fun x o' k found' small' fresh => ?_⟩
  have has' := has_of_get? found'
  simp only [entryLength, linkedLength] at inside small
  rw [Memory.get_put _ _ _ _ (by omega)]
  simp only [entryAddress_add_inj has' has small' small]
  split
  · next eq =>
    obtain ⟨rfl, rfl⟩ := eq
    rw [Option.some.inj (found.symm.trans found')]
  · next ne => exact h.agrees x o' k found' small' fun was => fresh ⟨was, ne⟩

/-- Nothing is known of an object that does not exist. -/
theorem of_not_has (h : s.CoherentBut stale) (no : ¬ s.table.Has id) :
    s.CoherentBut fun x k => stale x k ∧ x ≠ id :=
  h.mono fun _ _ has _ was => ⟨was, fun eq => no (eq ▸ has)⟩

/-- Only the table and the bytes of attributes and links matter. -/
theorem congr (h : s.CoherentBut stale)
    (table : s'.table = s.table) (size : s'.memory.size = s.memory.size)
    (same : ∀ a, s.table.InEntry a → s'.memory.get a = s.memory.get a) : s'.CoherentBut stale := by
  obtain ⟨memory, _⟩ := s'
  subst table
  refine ⟨⟨h.fits.size_le, fun id has => ?_⟩, fun id o offset found small fresh => ?_⟩
  · simpa only [size] using h.fits.entry_le id has
  · have has := has_of_get? found
    rw [← h.agrees id o offset found small fresh]
    exact same _ ⟨id, has, Nat.le_add_right _ _, Nat.add_lt_add_left small _⟩

end CoherentBut

/-! ## Bringing entries up to date -/

/-- Writing the links of an object leaves none of its links stale. -/
theorem exists_run_syncLinks_coherent (h : s.CoherentBut stale) (has : s.table.Has id) :
    ∃ s', (syncLinks id).run s = .ok () s' ∧ s'.table = s.table ∧
      s'.CoherentBut fun x k => stale x k ∧ ¬ (x = id ∧ 4 ≤ k) := by
  obtain ⟨o, found⟩ := has.exists_get?
  refine ⟨_, run_syncLinks h.fits found, rfl, ?_⟩
  have parented := h.put 4 found (by decide)
  have joined := parented.put 5 found (by decide)
  refine (joined.put 6 found (by decide)).mono fun x k _ small was => ⟨was.1.1.1, ?_⟩
  simp only [linkedLength] at small
  omega

def withAttributes (s : ObjectStore) (id : Nat) (o : Object) : ObjectStore :=
  let entry := s.table.entryAddress id
  let first := s.memory.put entry (o.attributes.byte 0)
  let second := first.put (entry + 1) (o.attributes.byte 1)
  let third := second.put (entry + 2) (o.attributes.byte 2)
  { s with memory := third.put (entry + 3) (o.attributes.byte 3) }

theorem run_syncAttributes (fits : s.Fits) (found : s.table.get? id = some o) :
    (syncAttributes id).run s = .ok () (s.withAttributes id o) := by
  have inside := fits.entry_le id (has_of_get? found)
  rw [entryLength] at inside
  simp only [syncAttributes, EStateM.run_bind, EStateM.run_get, EStateM.run_lift,
    get_eq_ok.mpr found]
  rw [run_setByte (by omega)]
  dsimp only
  rw [run_setByte (by simpa using by omega)]
  dsimp only
  rw [run_setByte (by simpa using by omega)]
  dsimp only
  rw [run_setByte (by simpa using by omega)]
  rfl

/-- Writing the attributes of an object leaves none of them stale. -/
theorem exists_run_syncAttributes_coherent (h : s.CoherentBut stale) (has : s.table.Has id) :
    ∃ s', (syncAttributes id).run s = .ok () s' ∧
      s'.CoherentBut fun x k => stale x k ∧ ¬ (x = id ∧ k < 4) := by
  obtain ⟨o, found⟩ := has.exists_get?
  refine ⟨_, run_syncAttributes h.fits found, ?_⟩
  have first := h.put 0 found (by decide)
  have second := first.put 1 found (by decide)
  have third := second.put 2 found (by decide)
  refine (third.put 3 found (by decide)).mono fun x k _ small was =>
    ⟨was.1.1.1.1, ?_⟩
  omega

/-! ## Whole changes -/

def KeepsCoherent (s s' : ObjectStore) : Prop :=
  s.Coherent → s'.Coherent

instance : Std.Refl KeepsCoherent := ⟨fun _ h => h⟩

instance : IsTrans ObjectStore KeepsCoherent := ⟨fun _ _ _ h h' => h' ∘ h⟩

/-- Changing an object in the table and then bringing the bytes up to date that this makes stale. An
object that does not exist is not changed. -/
theorem leads_change_sync {sync : ObjectM Unit} (changed : Nat → Prop)
    (same : ∀ o k, k < linkedLength → ¬ changed k → (f o).entryByte k = o.entryByte k)
    (synced : ∀ {s : ObjectStore} {stale}, s.CoherentBut stale → s.table.Has id →
      ∃ s', sync.run s = .ok () s' ∧ s'.CoherentBut fun x k => stale x k ∧ ¬ (x = id ∧ changed k))
    (idle : ∀ s : ObjectStore, ¬ s.table.Has id → finalState sync s = s) :
    Leads KeepsCoherent (change id f >>= fun _ => sync) := by
  intro s coherent
  have stale := coherent.change id changed same
  rw [finalState_bind_of_ok run_change]
  by_cases has : s.table.Has id
  · obtain ⟨s', run, fresh⟩ := synced stale (has_modify.mpr has)
    rw [finalState_of_ok run]
    exact fresh.mono fun x k _ _ was => was.2 (was.1.resolve_left not_false)
  · have no : ¬ (s.table.modify id f).Has id := mt has_modify.mp has
    rw [idle _ no]
    exact (stale.of_not_has no).mono fun x k _ _ was => was.2 (was.1.resolve_left not_false).1

/-- A change of links does not concern the bytes before them. -/
theorem entryByte_eq_of_links (same : ∀ o, (f o).attributes = o.attributes) (o : Object) (k : Nat)
    (small : k < linkedLength) (early : ¬ 4 ≤ k) : (f o).entryByte k = o.entryByte k := by
  unfold Object.entryByte
  split <;> first | omega | rw [same]

theorem leads_change_syncLinks (same : ∀ o, (f o).attributes = o.attributes) :
    Leads KeepsCoherent (change id f >>= fun _ => syncLinks id) := by
  refine leads_change_sync (4 ≤ ·) (entryByte_eq_of_links same) (fun coherent has => ?_)
    fun s no => ?_
  · obtain ⟨s', run, -, coherent'⟩ := exists_run_syncLinks_coherent coherent has
    exact ⟨s', run, coherent'⟩
  · rw [syncLinks, finalState_get_bind, get_eq_error no]
    rfl

/-- An attribute that is changed is written to its entry. -/
theorem leads_assignAttribute_coherent (id number : Nat) (value : Bool) :
    Leads KeepsCoherent (assignAttribute id number value) := by
  refine .bind (.lift _) fun _ => .bind .get fun _ => .bind (.lift _) fun _ => ?_
  refine leads_change_sync (· < 4) (fun o k small late => ?_) exists_run_syncAttributes_coherent
    fun s no => ?_
  · simp only [linkedLength] at small
    interval_cases k <;> rfl
  · rw [syncAttributes, finalState_get_bind, get_eq_error no]
    rfl

theorem leads_unchain_coherent (id parent : Nat) (next : Byte) :
    Leads KeepsCoherent (unchain id parent next) := by
  refine .bind .get fun s => .bind (.lift _) fun p => ?_
  dsimp only
  split
  · exact leads_change_syncLinks fun _ => rfl
  · exact .bind (.lift _) fun before => leads_change_syncLinks fun _ => rfl

/-- Removing an object writes every link that it changes to its entry. -/
theorem leads_remove_coherent (id : Nat) : Leads KeepsCoherent (remove id) := by
  refine .bind .get fun s => .bind (.lift _) fun object => ?_
  have clear : Leads KeepsCoherent (do
      change id fun o => { o with parent := 0, sibling := 0 }
      syncLinks id) :=
    leads_change_syncLinks fun _ => rfl
  split
  · exact .bind (leads_unchain_coherent id _ _) fun _ => clear
  · exact clear

/-- Two objects are changed before the entry of either is brought up to date. -/
theorem coherent_link {g : Object → Object} {parent : Nat} (coherent : s.Coherent)
    (has : s.table.Has id) (hasParent : s.table.Has parent)
    (same : ∀ o, (f o).attributes = o.attributes) (same' : ∀ o, (g o).attributes = o.attributes) :
    (finalState (do change id f; change parent g; syncLinks id; syncLinks parent) s).Coherent := by
  have first := coherent.change id (4 ≤ ·) (entryByte_eq_of_links same)
  have second := first.change parent (4 ≤ ·) (entryByte_eq_of_links same')
  obtain ⟨s', run, table, third⟩ := exists_run_syncLinks_coherent second
    (has_modify.mpr (has_modify.mpr has))
  have hasParent' : s'.table.Has parent := by
    rw [table]
    exact has_modify.mpr (has_modify.mpr hasParent)
  obtain ⟨s'', run', -, fourth⟩ := exists_run_syncLinks_coherent third hasParent'
  rw [finalState_bind_of_ok run_change, finalState_bind_of_ok run_change, finalState_bind_of_ok run,
    finalState_of_ok run']
  refine fourth.mono fun x k _ _ was => ?_
  tauto

theorem leads_insertInto_coherent (id parent : Nat) :
    Leads KeepsCoherent (insertInto id parent) := by
  have move : Leads KeepsCoherent (do
      let _ ← (← get).table.get parent
      let _ ← (← get).table.get id
      remove id
      let oldest := (← (← get).table.get parent).child
      change id fun o => { o with sibling := oldest, parent := UInt8.ofNat parent }
      change parent fun o => { o with child := UInt8.ofNat id }
      syncLinks id
      syncLinks parent : ObjectM Unit) := by
    intro s
    rw [finalState_get_bind]
    refine rel_finalState_lift_bind fun p foundParent => ?_
    rw [finalState_get_bind]
    refine rel_finalState_lift_bind fun o found => ?_
    refine rel_finalState_bind (leads_remove_coherent id s) fun _ s' run => ?_
    have touches := (leads_remove id).of_ok run
    rw [finalState_get_bind]
    refine rel_finalState_lift_bind fun _ _ coherent => ?_
    exact coherent_link coherent
      (touches.shape.has_iff.mpr (has_of_get found))
      (touches.shape.has_iff.mpr (has_of_get foundParent))
      (fun _ => rfl) fun _ => rfl
  rw [insertInto]
  split
  · exact .bind (.throw _) fun _ => move
  · exact move

end ObjectStore

/-! ## Reading entries -/

/-- An object as its entry in memory says: four bytes of attributes, the first bit of the first byte
for the attribute 0, and a byte for each link. -/
structure ObjectStore.EntryAgrees (s : ObjectStore) (id : Nat) (o : Object) : Prop where
  attributes : s.memory.longAt (s.table.entryAddress id) = .ok (UInt32.ofBitVec o.attributes)
  parent : s.memory.byteAt (s.table.entryAddress id + 4) = .ok o.parent
  sibling : s.memory.byteAt (s.table.entryAddress id + 5) = .ok o.sibling
  child : s.memory.byteAt (s.table.entryAddress id + 6) = .ok o.child

namespace ObjectStore

variable {s : ObjectStore} {id : Nat} {o : Object}

/-- While entries are up to date, a byte of an entry is that of the object. -/
theorem Coherent.byteAt {offset : Nat} (h : s.Coherent) (found : s.table.get? id = some o)
    (small : offset < linkedLength) :
    s.memory.byteAt (s.table.entryAddress id + offset) = .ok (o.entryByte offset) := by
  have inside := h.fits.entry_le id (has_of_get? found)
  simp only [entryLength, linkedLength] at inside small
  rw [Memory.byteAt_eq_ok, Memory.holds_cons]
  exact ⟨by omega, h.agrees id o offset found small not_false, trivial⟩

/-- While entries are up to date, an object is as its entry says. -/
theorem Coherent.entryAgrees (h : s.Coherent) (found : s.table.get? id = some o) :
    s.EntryAgrees id o := by
  have byteAt (offset : Nat) (small : offset < linkedLength) :=
    Memory.byteAt_eq_ok.mp (h.byteAt found small)
  refine ⟨?_, h.byteAt found (by decide), h.byteAt found (by decide), h.byteAt found (by decide)⟩
  rw [Memory.longAt_eq_ok, Attributes.longBytes_eq]
  obtain ⟨⟨inside, first, -⟩, ⟨inside', second, -⟩, ⟨inside'', third, -⟩, fourth⟩ :=
    And.intro (byteAt 0 (by decide)) <| And.intro (byteAt 1 (by decide)) <|
      And.intro (byteAt 2 (by decide)) (byteAt 3 (by decide))
  exact ⟨inside, first, inside', second, inside'', third, fourth⟩

theorem Coherent.byteAt_attribute {number : Nat} (h : s.Coherent)
    (found : s.table.get? id = some o) (small : number < Attributes.count) :
    ∃ b, s.memory.byteAt (s.table.entryAddress id + number / 8) = .ok b ∧
      o.attributes.has number = b.toBitVec.getMsbD (number % 8) := by
  refine ⟨o.attributes.byte (number / 8), ?_, o.attributes.has_eq_getMsbD small⟩
  rw [Attributes.count] at small
  have early : number / 8 < 4 := by omega
  rw [h.byteAt found (by simp only [linkedLength]; omega)]
  generalize number / 8 = index at early
  interval_cases index <;> rfl

/-- The entries of a loaded table were read from memory. -/
theorem coherent_of_load {m : Memory} {table : Nat} {abbreviations : AbbreviationTable}
    {t : ObjectTable} (h : load m table abbreviations = .ok t) : Coherent ⟨m, t⟩ := by
  refine ⟨fits_of_load h, fun id o offset found small _ => ?_⟩
  obtain ⟨address, -⟩ := load_eq_ok h
  obtain ⟨stop, _, _, entryRead, -⟩ := objectAt_eq_ok.mp (objectAt_of_load h found)
  obtain ⟨_, ⟨pointer, -, rfl⟩, holds, -⟩ := (reads_readEntry m _ _ stop).mp
    (Scan.runFrom_eq_ok.mp entryRead)
  rw [Attributes.longBytes_eq, ← address] at holds
  rw [linkedLength] at small
  refine (Memory.holds_iff.mp holds offset _ ?_).2
  interval_cases offset <;> rfl

end ObjectStore
end ZMachine
