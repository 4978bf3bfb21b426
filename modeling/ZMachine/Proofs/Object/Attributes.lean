import Mathlib.Data.List.Basic
import Mathlib.Data.Nat.Bitwise
import ZMachine.Object.Attributes
import ZMachine.Proofs.Word

/-!
# Attributes as bytes and as a set

Four bytes hold the attributes of an object, and an attribute is one bit of one of them. Attributes
made from a list are those of the list.

## Main statements

* `Attributes.longBytes_eq`, `Attributes.has_eq_getMsbD` — attributes as bytes.
* `Attributes.has_ofList` — attributes as a set.
-/

namespace ZMachine.Attributes

theorem toNat_byte (a : Attributes) (index : Nat) :
    (a.byte index).toNat = a.toNat / 2 ^ (8 * (3 - index)) % 256 := by
  simp [byte, Nat.shiftRight_eq_div_pow]

/-- The four bytes of attributes, one after another, are the attributes as one number. -/
theorem longBytes_eq (a : Attributes) :
    Word.longBytes (UInt32.ofBitVec a) = [a.byte 0, a.byte 1, a.byte 2, a.byte 3] := by
  have bound := a.isLt
  simp only [Word.longBytes, Word.toBytes_cons, Word.toBytes_nil, List.cons.injEq, and_true,
    ← UInt8.toNat_inj, Word.toNat_highByte, Word.toNat_lowByte, toNat_byte]
  rw [Word.toNat_highWord, UInt32.toNat_toUInt16]
  simp only [UInt32.toNat_ofBitVec, Nat.reduceSub, Nat.reduceMul, Nat.reducePow, true_and]
  omega

/-- An attribute is a bit of one of the four bytes. -/
theorem has_eq_getMsbD (a : Attributes) {number : Nat} (small : number < count) :
    a.has number = (a.byte (number / 8)).toBitVec.getMsbD (number % 8) := by
  rw [count] at small
  have place : 8 * (3 - number / 8) + (8 - 1 - number % 8) = 32 - 1 - number := by omega
  have inside : number % 8 < 8 := Nat.mod_lt _ (by decide)
  have bit : 8 - 1 - number % 8 < 8 := by omega
  simp only [has, byte, BitVec.getMsbD_eq_getLsbD, BitVec.getLsbD_extractLsb', place, small, inside,
    bit, decide_true, Bool.true_and]

/-! ## Sets of attributes -/

/-- Setting an attribute sets this one and no other. -/
theorem has_assign {a : Attributes} {number other : Nat} (small : number < count)
    (small' : other < count) :
    (a.assign number true).has other = (decide (other = number) || a.has other) := by
  rw [count] at small small'
  have assigned : a.assign number true = a ||| BitVec.twoPow 32 (31 - number) := rfl
  have place : 31 - number = 32 - 1 - other ↔ other = number := by omega
  rw [has, has, assigned, BitVec.getMsbD_or, Bool.or_comm]
  congr 1
  rw [BitVec.getMsbD_eq_getLsbD, BitVec.getLsbD_twoPow, decide_eq_true small', Bool.true_and,
    decide_eq_true (by omega : 31 - number < 32), Bool.true_and]
  exact decide_eq_decide.mpr place

theorem has_foldl_assign {numbers : List Nat} {a : Attributes} {other : Nat}
    (small : ∀ number ∈ numbers, number < count) (small' : other < count) :
    (numbers.foldl (fun a number => a.assign number true) a).has other =
      (decide (other ∈ numbers) || a.has other) := by
  induction numbers generalizing a with
  | nil => simp
  | cons number numbers ih =>
    rw [List.foldl_cons, ih fun n mem => small n (List.mem_cons_of_mem number mem),
      has_assign (small number List.mem_cons_self) small']
    simp only [List.mem_cons, Bool.decide_or, Bool.or_assoc, Bool.or_left_comm]

/-- Of attributes that exist, those of a list are set. -/
theorem has_ofList {numbers : List Nat} {other : Nat} (small : ∀ number ∈ numbers, number < count)
    (small' : other < count) : (ofList numbers).has other = true ↔ other ∈ numbers := by
  rw [ofList, has_foldl_assign small small']
  simp [has]

end ZMachine.Attributes
