import Mathlib.Data.Nat.Bitwise
import ZMachine.Proofs.Memory
import ZMachine.Text.Packing

/-!
# Packed text in memory

A text is words of which only the last one is marked. What is read at an address is the z-characters
of the text that memory holds there, and packing z-characters gives a text that unpacks to them.

## Main definitions

* `IsText` — words of which the last one, and no other, is marked.
* `padding` — the 5s that fill up the last word of a text.

## Main statements

* `Memory.zcharsAt_eq_ok`, `Memory.textLength_eq_ok` — reading and measuring succeed on texts only.
* `packZChars_spec` — packing makes a text, and unpacking gives back the z-characters with their
  padding.
-/

namespace ZMachine

/-! ## One word -/

theorem isLast_iff (w : Word) : isLast w = true ↔ 0x8000 ≤ w.toNat := by
  have bound := w.toNat_lt
  have key : (w &&& 0x8000).toNat = (w.toNat.testBit 15).toNat * 2 ^ 15 := by
    rw [UInt16.toNat_and]
    exact Nat.and_two_pow _ 15
  rw [isLast, decide_eq_true_iff, ne_eq, ← UInt16.toNat_inj, key,
    Nat.testBit_eq_decide_div_mod_eq]
  by_cases h : w.toNat / 2 ^ 15 % 2 = 1 <;> simp <;> omega

/-- Three z-characters take five bits each. -/
theorem toNat_packWord {a b c : ZChar} (ha : a < 32) (hb : b < 32) (hc : c < 32) :
    (packWord a b c).toNat = 1024 * a.toNat + 32 * b.toNat + c.toNat := by
  simp only [UInt8.lt_iff_toNat_lt, UInt8.reduceToNat] at ha hb hc
  have high : 1024 * a.toNat + 32 * b.toNat = 1024 * a.toNat ||| 32 * b.toNat := by
    refine Nat.two_pow_add_eq_or_of_lt (i := 10) ?_ a.toNat
    omega
  have low : 1024 * a.toNat + 32 * b.toNat + c.toNat =
      1024 * a.toNat + 32 * b.toNat ||| c.toNat := by
    have := Nat.two_pow_add_eq_or_of_lt (i := 5) hc (32 * a.toNat + b.toNat)
    rwa [show 2 ^ 5 * (32 * a.toNat + b.toNat) = 1024 * a.toNat + 32 * b.toNat by omega] at this
  have shifted (z : ZChar) (n : Word) (small : z.toNat < 32) (fits : n.toNat ≤ 10) :
      (z.toUInt16 <<< n).toNat = 2 ^ n.toNat * z.toNat := by
    have bound : 2 ^ n.toNat ≤ 2 ^ 10 := Nat.pow_le_pow_right (by decide) fits
    have : z.toNat * 2 ^ n.toNat < 2 ^ 16 := by
      calc z.toNat * 2 ^ n.toNat ≤ 31 * 2 ^ 10 := Nat.mul_le_mul (by omega) bound
        _ < 2 ^ 16 := by decide
    rw [UInt16.toNat_shiftLeft, UInt8.toNat_toUInt16, Nat.mod_eq_of_lt (by omega : n.toNat < 16),
      Nat.shiftLeft_eq, Nat.mod_eq_of_lt this, Nat.mul_comm]
  rw [low, high, packWord, UInt16.toNat_or, UInt16.toNat_or, shifted a 10 ha (by decide),
    shifted b 5 hb (by decide), UInt8.toNat_toUInt16]
  rfl

theorem toNat_markLast {w : Word} (h : w.toNat < 0x8000) :
    (markLast w).toNat = 0x8000 + w.toNat := by
  rw [markLast, UInt16.toNat_or, Nat.or_comm]
  exact (Nat.two_pow_add_eq_or_of_lt (i := 15) h 1).symm

/-- The mark does not count when a word is unpacked. -/
theorem unpackWord_eq {w : Word} {a b c : ZChar} (hb : b < 32) (hc : c < 32)
    (h : w.toNat % 0x8000 = 1024 * a.toNat + 32 * b.toNat + c.toNat) :
    unpackWord w = [a, b, c] := by
  simp only [UInt8.lt_iff_toNat_lt, UInt8.reduceToNat] at hb hc
  have field (x : Word) : (x &&& 31).toUInt8.toNat = x.toNat % 32 := by
    rw [UInt16.toNat_toUInt8, UInt16.toNat_and]
    have := Nat.and_two_pow_sub_one_eq_mod x.toNat 5
    change x.toNat &&& 31 = x.toNat % 32 at this
    rw [show (31 : UInt16).toNat = 31 from rfl, this]
    omega
  have first : (w >>> 10).toNat = w.toNat / 1024 := by
    rw [UInt16.toNat_shiftRight, Nat.shiftRight_eq_div_pow]
    rfl
  have second : (w >>> 5).toNat = w.toNat / 32 := by
    rw [UInt16.toNat_shiftRight, Nat.shiftRight_eq_div_pow]
    rfl
  simp only [unpackWord, ← UInt8.toNat_inj, List.cons.injEq, field, first, second]
  exact ⟨by omega, by omega, by omega, trivial⟩

/-- A word without the mark and a last word, made of the same three z-characters. -/
theorem unpackWord_packWord {a b c : ZChar} (ha : a < 32) (hb : b < 32) (hc : c < 32) :
    isLast (packWord a b c) = false ∧ unpackWord (packWord a b c) = [a, b, c] ∧
      isLast (markLast (packWord a b c)) = true ∧
      unpackWord (markLast (packWord a b c)) = [a, b, c] := by
  have packed := toNat_packWord ha hb hc
  have bound : (packWord a b c).toNat < 0x8000 := by
    simp only [UInt8.lt_iff_toNat_lt, UInt8.reduceToNat] at ha hb hc
    omega
  have marked := toNat_markLast bound
  refine ⟨?_, unpackWord_eq hb hc ?_, ?_, unpackWord_eq hb hc ?_⟩
  · rw [← Bool.not_eq_true, isLast_iff]
    omega
  · omega
  · rw [isLast_iff]
    omega
  · omega

/-! ## Texts -/

/-- Words of which the last one is marked, and no other. -/
inductive IsText : List Word → Prop
  | last {w : Word} (marked : isLast w = true) : IsText [w]
  | more {w : Word} {ws : List Word} (unmarked : isLast w = false) (rest : IsText ws) :
      IsText (w :: ws)

namespace Memory

variable {m : Memory} {address : Nat}

theorem holds_word {w : Word} {bytes : List Byte} :
    m.Holds address (Word.highByte w :: Word.lowByte w :: bytes) ↔
      address + 2 ≤ m.size ∧ Word.ofBytes (m.get address) (m.get (address + 1)) = w ∧
        m.Holds (address + 2) bytes := by
  simp only [holds_cons, Nat.add_assoc, Nat.reduceAdd]
  constructor
  · rintro ⟨-, high, inside, low, rest⟩
    exact ⟨inside, by rw [high, low, Word.ofBytes_highByte_lowByte], rest⟩
  · rintro ⟨inside, rfl, rest⟩
    exact ⟨by omega, (Word.highByte_ofBytes _ _).symm, by omega, (Word.lowByte_ofBytes _ _).symm,
      rest⟩

theorem zcharsAt_of_holds {ws : List Word} (h : IsText ws)
    (holds : m.Holds address (Word.toBytes ws)) :
    m.zcharsAt address = .ok (ws.flatMap unpackWord) := by
  induction h generalizing address with
  | @last w marked =>
    obtain ⟨inside, word, -⟩ := holds_word.mp holds
    rw [zcharsAt, if_pos inside, word, if_pos marked]
    simp
  | @more w ws unmarked _ ih =>
    obtain ⟨inside, word, rest⟩ := holds_word.mp holds
    rw [zcharsAt, if_pos inside, word, if_neg (by simp [unmarked]), ih rest]
    rfl

theorem textLength_of_holds {ws : List Word} (h : IsText ws)
    (holds : m.Holds address (Word.toBytes ws)) :
    m.textLength address = .ok (2 * ws.length) := by
  induction h generalizing address with
  | @last w marked =>
    obtain ⟨inside, word, -⟩ := holds_word.mp holds
    rw [textLength, if_pos inside, word, if_pos marked]
    rfl
  | @more w ws unmarked _ ih =>
    obtain ⟨inside, word, rest⟩ := holds_word.mp holds
    rw [textLength, if_pos inside, word, if_neg (by simp [unmarked]), ih rest, List.length_cons,
      Nat.mul_add_one, Nat.add_comm]
    rfl

/-- Measuring succeeds only where memory holds a text. -/
theorem exists_text_of_textLength {n : Nat} (h : m.textLength address = .ok n) :
    ∃ ws, IsText ws ∧ m.Holds address (Word.toBytes ws) := by
  fun_induction textLength m address generalizing n with
  | case1 address inside marked =>
    exact ⟨[_], .last marked, holds_word.mpr ⟨inside, rfl, trivial⟩⟩
  | case2 address inside unmarked ih =>
    obtain ⟨_, length, -⟩ := Except.map_eq_ok.mp h
    obtain ⟨ws, text, holds⟩ := ih length
    exact ⟨_ :: ws, .more (by simpa using unmarked) text, holds_word.mpr ⟨inside, rfl, holds⟩⟩
  | case3 address outside => cases h

/-- Reading succeeds only where memory holds a text. -/
theorem exists_text_of_zcharsAt {zs : List ZChar} (h : m.zcharsAt address = .ok zs) :
    ∃ ws, IsText ws ∧ m.Holds address (Word.toBytes ws) := by
  fun_induction zcharsAt m address generalizing zs with
  | case1 address inside w =>
    rename_i marked
    exact ⟨[_], .last marked, holds_word.mpr ⟨inside, rfl, trivial⟩⟩
  | case2 address inside w unmarked =>
    rename_i ih
    obtain ⟨_, rest, -⟩ := Except.map_eq_ok.mp h
    obtain ⟨ws, text, holds⟩ := ih rest
    exact ⟨_ :: ws, .more (by simpa using unmarked) text, holds_word.mpr ⟨inside, rfl, holds⟩⟩
  | case3 address outside => cases h

/-- Z-characters are read iff memory holds the words of a text. -/
theorem zcharsAt_eq_ok {zs : List ZChar} :
    m.zcharsAt address = .ok zs ↔
      ∃ ws, IsText ws ∧ m.Holds address (Word.toBytes ws) ∧ zs = ws.flatMap unpackWord := by
  constructor
  · intro h
    obtain ⟨ws, text, holds⟩ := exists_text_of_zcharsAt h
    rw [zcharsAt_of_holds text holds] at h
    exact ⟨ws, text, holds, (Except.ok.inj h).symm⟩
  · rintro ⟨ws, text, holds, rfl⟩
    exact zcharsAt_of_holds text holds

/-- The length of a text is that of its words. -/
theorem textLength_eq_ok {n : Nat} :
    m.textLength address = .ok n ↔
      ∃ ws, IsText ws ∧ m.Holds address (Word.toBytes ws) ∧ n = (Word.toBytes ws).length := by
  simp only [Word.length_toBytes]
  constructor
  · intro h
    obtain ⟨ws, text, holds⟩ := exists_text_of_textLength h
    rw [textLength_of_holds text holds] at h
    exact ⟨ws, text, holds, (Except.ok.inj h).symm⟩
  · rintro ⟨ws, text, holds, rfl⟩
    exact textLength_of_holds text holds

end Memory

/-! ## Packing -/

/-- The fewest 5s that make a number of z-characters a positive multiple of three. -/
def padding (count : Nat) : List ZChar :=
  List.replicate (if count = 0 then 3 else (3 - count % 3) % 3) padZChar

theorem padding_add_three {count : Nat} (ne : count ≠ 0) : padding (count + 3) = padding count := by
  simp [padding, ne]

theorem packZChars_ne_nil (zs : List ZChar) : packZChars zs ≠ [] := by
  fun_cases packZChars zs <;> exact List.cons_ne_nil _ _

/-- Packing makes a text, which unpacks to the z-characters and their padding. -/
theorem packZChars_spec {zs : List ZChar} (small : ∀ z ∈ zs, z < 32) :
    IsText (packZChars zs) ∧
      (packZChars zs).flatMap unpackWord = zs ++ padding zs.length := by
  have pad : padZChar < 32 := by decide
  fun_induction packZChars zs with
  | case1 =>
    obtain ⟨-, -, marked, unpacked⟩ := unpackWord_packWord pad pad pad
    exact ⟨.last marked, (List.append_nil _).trans unpacked⟩
  | case2 a =>
    obtain ⟨-, -, marked, unpacked⟩ := unpackWord_packWord (small a (by simp)) pad pad
    exact ⟨.last marked, (List.append_nil _).trans unpacked⟩
  | case3 a b =>
    obtain ⟨-, -, marked, unpacked⟩ :=
      unpackWord_packWord (small a (by simp)) (small b (by simp)) pad
    exact ⟨.last marked, (List.append_nil _).trans unpacked⟩
  | case4 a b c =>
    obtain ⟨-, -, marked, unpacked⟩ :=
      unpackWord_packWord (small a (by simp)) (small b (by simp)) (small c (by simp))
    exact ⟨.last marked, by simpa [padding] using unpacked⟩
  | case5 a b c d rest ih =>
    obtain ⟨unmarked, unpacked, -, -⟩ :=
      unpackWord_packWord (small a (by simp)) (small b (by simp)) (small c (by simp))
    obtain ⟨text, back⟩ := ih fun z mem => small z (by simp [List.mem_cons.mp mem])
    refine ⟨.more unmarked text, ?_⟩
    have longer : padding (a :: b :: c :: d :: rest).length = padding (d :: rest).length :=
      padding_add_three (Nat.succ_ne_zero rest.length)
    rw [List.flatMap_cons, unpacked, back, longer]
    rfl

end ZMachine
