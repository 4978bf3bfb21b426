import ZMachine.Proofs.Object.Footprint
import ZMachine.Proofs.Object.Loaded

/-!
# Stores that come about

From a loaded store, others come about by changes of objects, of which any may fail, and by bytes
that a program writes to memory past the table. Links may be as corrupt as they like: what the table
was loaded with besides attributes and links is there for good.

## Main definitions

* `ObjectStore.Reached` — the stores that come about from a loaded one.

## Main statements

* `ObjectStore.Reached.shape`, `ObjectStore.Reached.size_eq` — objects, properties and the size of
  memory are those of the loaded store.
* `ObjectStore.Reached.fits` — the entries of all objects lie in memory.
-/

namespace ZMachine

open ObjectTable

theorem ObjectTable.SameShape.size_eq {t t' : ObjectTable} (h : t.SameShape t') :
    t'.size = t.size := by
  have out (u : ObjectTable) : ¬ u.Has (u.size + 1) := fun has => Nat.not_succ_le_self _ has.2
  have below : ¬ t'.size < t.size := fun lt =>
    out t' (h.has_iff.mpr ⟨Nat.succ_pos _, lt⟩)
  have above : ¬ t.size < t'.size := fun lt =>
    out t (h.has_iff.mp ⟨Nat.succ_pos _, lt⟩)
  omega

namespace ObjectStore

/-- Where entries lie depends on nothing that a change of objects can change. -/
theorem Fits.of_shape {s s' : ObjectStore} (fits : s.Fits) (shape : s.table.SameShape s'.table)
    (size_eq : s'.memory.size = s.memory.size) : s'.Fits := by
  refine ⟨shape.size_eq ▸ fits.size_le, fun id has => ?_⟩
  rw [size_eq, entryAddress, shape.address_eq]
  exact fits.entry_le id (shape.has_iff.mp has)

/-- What only writes to places of objects keeps their entries in memory. -/
theorem Touches.fits {s s' : ObjectStore} (touches : s.Touches s') (fits : s.Fits) : s'.Fits :=
  fits.of_shape touches.shape touches.size_eq

/-- Objects were changed, with or without success, and bytes were written past the table. -/
inductive Reached (m : Memory) (t : ObjectTable) : ObjectStore → Prop
  | loaded : Reached m t ⟨m, t⟩
  | change {s : ObjectStore} (before : Reached m t s) (change : ObjectChange) :
      Reached m t (finalState change.action s)
  | poke {s : ObjectStore} (before : Reached m t s) (address : Nat) (value : Byte) :
      Reached m t { s with memory := s.memory.put address value }

namespace Reached

variable {m : Memory} {address : Nat} {abbreviations : AbbreviationTable} {t : ObjectTable}
  {s : ObjectStore}

theorem shape (h : Reached m t s) : t.SameShape s.table := by
  induction h with
  | loaded => exact .refl t
  | change _ change ih => exact ih.trans (change.leads_action _).shape
  | poke _ _ _ ih => exact ih

theorem size_eq (h : Reached m t s) : s.memory.size = m.size := by
  induction h with
  | loaded => rfl
  | change _ change ih => exact (change.leads_action _).size_eq.trans ih
  | poke _ _ _ ih => exact (Memory.size_put ..).trans ih

theorem fits (loaded : load m address abbreviations = .ok t) (h : Reached m t s) : s.Fits :=
  (fits_of_load loaded).of_shape h.shape h.size_eq

end Reached
end ObjectStore
end ZMachine
