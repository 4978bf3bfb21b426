import Mathlib.Tactic.Common
import ZMachine.Word

/-!
# Words and their bytes

A word is made of its two bytes and falls apart into them, as numbers and as machine words.

## Main statements

* `Word.ofBytes_highByte_lowByte`, `Word.highByte_ofBytes`, `Word.lowByte_ofBytes` — splitting and
  joining are inverse.
-/

namespace ZMachine.Word

/-- The first byte of a word is the high one. -/
theorem toNat_ofBytes (high low : Byte) :
    (ofBytes high low).toNat = 256 * high.toNat + low.toNat := by
  have bound : high.toNat * 256 < 65536 := by have := high.toNat_lt; omega
  rw [ofBytes, UInt16.toNat_or, UInt16.toNat_shiftLeft, UInt8.toNat_toUInt16, UInt8.toNat_toUInt16,
    show (8 : UInt16).toNat % 16 = 8 from rfl, Nat.shiftLeft_eq, Nat.mod_eq_of_lt bound,
    ← Nat.shiftLeft_eq _ 8, ← Nat.shiftLeft_add_eq_or_of_lt low.toNat_lt, Nat.shiftLeft_eq]
  omega

theorem toNat_highByte (w : Word) : (highByte w).toNat = w.toNat / 256 := by
  have := w.toNat_lt
  simp [highByte, Nat.shiftRight_eq_div_pow]
  omega

theorem toNat_lowByte (w : Word) : (lowByte w).toNat = w.toNat % 256 := by
  simp [lowByte]

@[simp] theorem ofBytes_highByte_lowByte (w : Word) : ofBytes (highByte w) (lowByte w) = w := by
  apply UInt16.toNat_inj.mp
  rw [toNat_ofBytes, toNat_highByte, toNat_lowByte, Nat.div_add_mod]

@[simp] theorem highByte_ofBytes (high low : Byte) : highByte (ofBytes high low) = high := by
  apply UInt8.toNat_inj.mp
  rw [toNat_highByte, toNat_ofBytes]
  have := low.toNat_lt
  omega

@[simp] theorem lowByte_ofBytes (high low : Byte) : lowByte (ofBytes high low) = low := by
  apply UInt8.toNat_inj.mp
  rw [toNat_lowByte, toNat_ofBytes]
  have := low.toNat_lt
  omega

/-! ## Two words as one number -/

def longBytes (v : UInt32) : List Byte :=
  toBytes [(v >>> 16).toUInt16, v.toUInt16]

/-- The first word of a number of four bytes is the high one. -/
theorem toNat_join (high low : Word) :
    (join high low).toNat = 65536 * high.toNat + low.toNat := by
  have bound : high.toNat * 65536 < 4294967296 := by have := high.toNat_lt; omega
  rw [join, UInt32.toNat_or, UInt32.toNat_shiftLeft, UInt16.toNat_toUInt32, UInt16.toNat_toUInt32,
    show (16 : UInt32).toNat % 32 = 16 from rfl, Nat.shiftLeft_eq, Nat.mod_eq_of_lt bound,
    ← Nat.shiftLeft_eq _ 16, ← Nat.shiftLeft_add_eq_or_of_lt low.toNat_lt, Nat.shiftLeft_eq]
  omega

theorem toNat_highWord (v : UInt32) : (v >>> 16).toUInt16.toNat = v.toNat / 65536 := by
  have := v.toNat_lt
  simp [Nat.shiftRight_eq_div_pow]
  omega

@[simp] theorem join_words (v : UInt32) : join (v >>> 16).toUInt16 v.toUInt16 = v := by
  apply UInt32.toNat_inj.mp
  rw [toNat_join, toNat_highWord, UInt32.toNat_toUInt16, Nat.div_add_mod]

@[simp] theorem highWord_join (high low : Word) : (join high low >>> 16).toUInt16 = high := by
  apply UInt16.toNat_inj.mp
  rw [toNat_highWord, toNat_join]
  have := low.toNat_lt
  omega

@[simp] theorem lowWord_join (high low : Word) : (join high low).toUInt16 = low := by
  apply UInt16.toNat_inj.mp
  rw [UInt32.toNat_toUInt16, toNat_join]
  have := low.toNat_lt
  omega

/-! ## Several words -/

@[simp] theorem toBytes_nil : toBytes [] = [] := rfl

@[simp] theorem toBytes_cons (w : Word) (ws : List Word) :
    toBytes (w :: ws) = highByte w :: lowByte w :: toBytes ws := rfl

@[simp] theorem length_toBytes (ws : List Word) : (toBytes ws).length = 2 * ws.length := by
  induction ws with
  | nil => rfl
  | cons w ws ih =>
    simp only [toBytes_cons, List.length_cons, ih]
    omega

end ZMachine.Word
