import ZMachine.Blueprint
import ZMachine.Proofs.Memory

/-!
# Writing patches

An image is what its patches leave in it. The last patch that covers a place counts there, and a
place that none covers keeps what it had.

## Main definitions

* `Patch.written` — the byte that patches leave in a place.
* `Patch.Wrote`, `Patch.Within` — patches leave these bytes, or lie between two addresses.

## Main statements

* `Patch.getD_foldl_apply` — the bytes of an image after patches.
-/

namespace ZMachine.Blueprint.Patch

variable {p : Patch} {ps qs : List Patch} {i address low high : Nat} {bytes : List Byte}

def byte? (p : Patch) (i : Nat) : Option Byte :=
  if p.address ≤ i then p.bytes[i - p.address]? else none

theorem byte?_cons (address : Nat) (b : Byte) (rest : List Byte) :
    byte? ⟨address, b :: rest⟩ i = if i = address then some b else byte? ⟨address + 1, rest⟩ i := by
  unfold byte?
  dsimp only
  by_cases before : i < address
  · rw [if_neg (by omega), if_neg (by omega), if_neg (by omega)]
  · by_cases eq : i = address
    · rw [if_pos (by omega), if_pos eq, eq, Nat.sub_self, List.getElem?_cons_zero]
    · rw [if_pos (by omega), if_neg eq, if_pos (by omega),
        show i - address = i - (address + 1) + 1 by omega, List.getElem?_cons_succ]

theorem byte?_eq_none (outside : i < p.address ∨ p.stop ≤ i) : p.byte? i = none := by
  unfold byte?
  split
  · rw [List.getElem?_eq_none_iff]
    rw [stop] at outside
    omega
  · rfl

/-! ## One patch -/

/-- Writing bytes one after another into an array that has room for them. -/
theorem foldl_setIfInBounds (bytes : List Byte) (address : Nat) (a : Array Byte)
    (room : address + bytes.length ≤ a.size) :
    let a' := (bytes.zipIdx address).foldl (fun a (b, i) => a.setIfInBounds i b) a
    a'.size = a.size ∧ a'.getD i 0 = (byte? ⟨address, bytes⟩ i).getD (a.getD i 0) := by
  induction bytes generalizing address a with
  | nil => simp [byte?]
  | cons b rest ih =>
    rw [List.length_cons] at room
    obtain ⟨size, held⟩ := ih (address + 1) (a.setIfInBounds address b)
      (by rw [Array.size_setIfInBounds]; omega)
    rw [List.zipIdx_cons, List.foldl_cons]
    refine ⟨by rw [size, Array.size_setIfInBounds], held.trans ?_⟩
    rw [byte?_cons]
    split
    · next eq =>
      subst eq
      rw [byte?_eq_none (.inl (Nat.lt_succ_self i)), Option.getD_none,
        Array.getD_eq_getD_getElem?, Array.getElem?_setIfInBounds_self_of_lt (by omega)]
      rfl
    · next ne =>
      rw [Array.getD_eq_getD_getElem?, Array.getElem?_setIfInBounds_ne (Ne.symm ne),
        ← Array.getD_eq_getD_getElem?]

theorem getD_append_replicate (image : Array Byte) (count : Nat) :
    (image ++ Array.replicate count 0).getD i 0 = image.getD i 0 := by
  simp only [Array.getD_eq_getD_getElem?, Array.getElem?_append, Array.getElem?_replicate]
  split
  · rfl
  · next outside =>
    rw [Array.getElem?_eq_none (Nat.not_lt.mp outside)]
    split <;> rfl

theorem size_apply (image : Array Byte) (p : Patch) :
    (apply image p).size = max image.size p.stop := by
  have room : p.address + p.bytes.length ≤
      (image ++ Array.replicate (p.stop - image.size) 0).size := by
    rw [Array.size_append, Array.size_replicate, stop]
    omega
  rw [apply, (foldl_setIfInBounds (i := 0) p.bytes p.address _ room).1, Array.size_append,
    Array.size_replicate]
  omega

/-- A patch changes the bytes that it covers, and no others. -/
theorem getD_apply (image : Array Byte) (p : Patch) :
    (apply image p).getD i 0 = (p.byte? i).getD (image.getD i 0) := by
  have room : p.address + p.bytes.length ≤
      (image ++ Array.replicate (p.stop - image.size) 0).size := by
    rw [Array.size_append, Array.size_replicate, stop]
    omega
  rw [apply, (foldl_setIfInBounds p.bytes p.address _ room).2, getD_append_replicate]

/-! ## Patches one after another -/

/-- The byte that patches leave in a place, if one of them covers it. -/
def written : List Patch → (i : Nat) → Option Byte
  | [], _ => none
  | p :: ps, i => (written ps i).or (p.byte? i)

theorem written_append : written (ps ++ qs) i = (written qs i).or (written ps i) := by
  induction ps with
  | nil => simp [written]
  | cons p ps ih => rw [List.cons_append, written, written, ih, Option.or_assoc]

/-- A byte is what the patches wrote to it, or what it was before. -/
theorem getD_foldl_apply (image : Array Byte) :
    (ps.foldl apply image).getD i 0 = (written ps i).getD (image.getD i 0) := by
  induction ps generalizing image with
  | nil => rfl
  | cons p ps ih =>
    rw [List.foldl_cons, ih, getD_apply, written]
    cases written ps i <;> rfl

/-- Patches that end inside an image do not make it larger. -/
theorem size_foldl_apply {image : Array Byte} (inside : ∀ p ∈ ps, p.stop ≤ image.size) :
    (ps.foldl apply image).size = image.size := by
  induction ps generalizing image with
  | nil => rfl
  | cons p ps ih =>
    obtain ⟨first, rest⟩ := List.forall_mem_cons.mp inside
    have same : (apply image p).size = image.size := by
      rw [size_apply]
      exact Nat.max_eq_left first
    rw [List.foldl_cons, ih (by rwa [same]), same]

theorem le_size_foldl_apply (image : Array Byte) : image.size ≤ (ps.foldl apply image).size := by
  induction ps generalizing image with
  | nil => exact Nat.le_refl _
  | cons p ps ih =>
    have first : image.size ≤ (apply image p).size := by
      rw [size_apply]
      exact Nat.le_max_left _ _
    exact Nat.le_trans first (ih _)

/-! ## Regions -/

def Within (low high : Nat) (ps : List Patch) : Prop :=
  ∀ p ∈ ps, low ≤ p.address ∧ p.stop ≤ high

theorem written_eq_none (outside : ∀ p ∈ ps, i < p.address ∨ p.stop ≤ i) : written ps i = none := by
  induction ps with
  | nil => rfl
  | cons p ps ih =>
    rw [written, ih fun q mem => outside q (List.mem_cons_of_mem p mem), Option.none_or]
    exact byte?_eq_none (outside p List.mem_cons_self)

theorem Within.written_eq_none (h : Within low high ps) (outside : i < low ∨ high ≤ i) :
    written ps i = none := by
  refine Patch.written_eq_none fun p mem => ?_
  obtain ⟨after, before⟩ := h p mem
  omega

def Wrote (ps : List Patch) (address : Nat) (bytes : List Byte) : Prop :=
  ∀ k b, bytes[k]? = some b → written ps (address + k) = some b

namespace Wrote

theorem self (ps : List Patch) (p : Patch) (free : ∀ i, p.address ≤ i → i < p.stop →
    written ps i = none) : Wrote (p :: ps) p.address p.bytes := by
  intro k b found
  have inside := (List.getElem?_eq_some_iff.mp found).1
  rw [written, free _ (Nat.le_add_right _ _) (by rw [stop]; omega), Option.none_or, byte?,
    if_pos (Nat.le_add_right _ _), Nat.add_sub_cancel_left, found]

/-- Patches that come before do not matter. -/
theorem append (h : Wrote qs address bytes) (ps : List Patch) : Wrote (ps ++ qs) address bytes := by
  intro k b found
  rw [written_append, h k b found, Option.some_or]

theorem cons (h : Wrote ps address bytes) (p : Patch) : Wrote (p :: ps) address bytes :=
  h.append [p]

/-- Only the places of the bytes matter. -/
theorem congr (h : Wrote ps address bytes)
    (same : ∀ i, address ≤ i → i < address + bytes.length → written qs i = written ps i) :
    Wrote qs address bytes := by
  intro k b found
  have inside := (List.getElem?_eq_some_iff.mp found).1
  rw [same _ (Nat.le_add_right _ _) (by omega), h k b found]

/-- Memory that is what the patches leave holds the bytes. -/
theorem holds {m : Memory} (h : Wrote ps address bytes)
    (left : ∀ i, m.get i = (written ps i).getD 0) (inside : address + bytes.length ≤ m.size) :
    m.Holds address bytes := by
  refine Memory.holds_iff.mpr fun k b found => ?_
  have := (List.getElem?_eq_some_iff.mp found).1
  exact ⟨by omega, by rw [left, h k b found, Option.getD_some]⟩

end Wrote

end ZMachine.Blueprint.Patch
