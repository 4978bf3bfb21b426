import Mathlib.Order.Bounds.Defs
import ZMachine.Proofs.Text.Packing

/-!
# Texts and their z-characters

A word is what its three z-characters and the mark make it. So the z-characters of a text tell its
words, and packing them again gives these words: the z-characters that a text is packed from and
those that are read from it differ at most by padding.

## Main statements

* `exists_unpackWord` — every word is packed from three z-characters.
* `packZChars_unpack` — packing undoes unpacking.
* `Memory.zcharsAt_eq_ok_iff_holds` — the words of a text are all that its z-characters depend on.
* `Memory.textLength_eq_map_zcharsAt` — a text is as long as its z-characters say.
* `packing_inverse` — packing and reading, in both orders.
-/

namespace ZMachine

/-! ## One word -/

@[simp] theorem length_unpackWord (w : Word) : (unpackWord w).length = 3 := rfl

/-- A word falls into three z-characters, and is packed from them again. -/
theorem exists_unpackWord (w : Word) :
    ∃ a b c : ZChar, a < 32 ∧ b < 32 ∧ c < 32 ∧ unpackWord w = [a, b, c] ∧
      (if isLast w then markLast (packWord a b c) else packWord a b c) = w := by
  have bound := w.toNat_lt
  have field (n : Nat) : (UInt8.ofNat (n % 32)).toNat = n % 32 ∧ UInt8.ofNat (n % 32) < 32 := by
    have value : (UInt8.ofNat (n % 32)).toNat = n % 32 := by
      rw [UInt8.toNat_ofNat']
      omega
    refine ⟨value, UInt8.lt_iff_toNat_lt.mpr ?_⟩
    rw [value]
    exact Nat.mod_lt n (by decide)
  obtain ⟨first, ha⟩ := field (w.toNat / 1024)
  obtain ⟨second, hb⟩ := field (w.toNat / 32)
  obtain ⟨third, hc⟩ := field w.toNat
  have packed := toNat_packWord ha hb hc
  refine ⟨_, _, _, ha, hb, hc, unpackWord_eq hb hc (by omega), UInt16.toNat_inj.mp ?_⟩
  split
  · next marked =>
    rw [isLast_iff] at marked
    rw [toNat_markLast (by omega)]
    omega
  · next unmarked =>
    rw [isLast_iff] at unmarked
    omega

theorem lt_of_mem_unpackWord {w : Word} {z : ZChar} (mem : z ∈ unpackWord w) : z < 32 := by
  obtain ⟨a, b, c, ha, hb, hc, unpacked, -⟩ := exists_unpackWord w
  rw [unpacked] at mem
  simp only [List.mem_cons, List.not_mem_nil, or_false] at mem
  rcases mem with rfl | rfl | rfl <;> assumption

/-! ## Texts -/

theorem length_flatMap_unpackWord (ws : List Word) :
    (ws.flatMap unpackWord).length = 3 * ws.length := by
  induction ws with
  | nil => rfl
  | cons w ws ih =>
    simp only [List.flatMap_cons, List.length_append, length_unpackWord, ih, List.length_cons]
    omega

/-- A marked word after unmarked ones ends a text. -/
theorem isText_append_last {front : List Word} {last : Word}
    (unmarked : ∀ w ∈ front, isLast w = false) (marked : isLast last = true) :
    IsText (front ++ [last]) := by
  induction front with
  | nil => exact .last marked
  | cons w front ih =>
    exact .more (unmarked w List.mem_cons_self)
      (ih fun w mem => unmarked w (List.mem_cons_of_mem _ mem))

/-- Three z-characters that others follow fill a word without the mark. -/
theorem packZChars_cons {zs : List ZChar} (a b c : ZChar) (ne : zs ≠ []) :
    packZChars (a :: b :: c :: zs) = packWord a b c :: packZChars zs := by
  cases zs with
  | nil => exact absurd rfl ne
  | cons d rest => rfl

/-- Packing undoes unpacking. -/
theorem packZChars_unpack {ws : List Word} (h : IsText ws) :
    packZChars (ws.flatMap unpackWord) = ws := by
  induction h with
  | @last w marked =>
    obtain ⟨a, b, c, -, -, -, unpacked, whole⟩ := exists_unpackWord w
    rw [if_pos marked] at whole
    simp [unpacked, packZChars, whole]
  | @more w ws unmarked rest ih =>
    obtain ⟨a, b, c, -, -, -, unpacked, whole⟩ := exists_unpackWord w
    rw [unmarked, if_neg Bool.false_ne_true] at whole
    have ne : ws.flatMap unpackWord ≠ [] := by
      cases rest <;> simp [unpackWord]
    calc packZChars ((w :: ws).flatMap unpackWord)
        = packZChars (a :: b :: c :: ws.flatMap unpackWord) := by
          rw [List.flatMap_cons, unpacked]
          rfl
      _ = packWord a b c :: packZChars (ws.flatMap unpackWord) := packZChars_cons a b c ne
      _ = w :: ws := by rw [whole, ih]

/-! ## Reading and measuring -/

namespace Memory

variable {m : Memory} {address : Nat}

/-- The z-characters of a text are read exactly where its words are. -/
theorem zcharsAt_eq_ok_iff_holds {ws : List Word} (h : IsText ws) :
    m.zcharsAt address = .ok (ws.flatMap unpackWord) ↔ m.Holds address (Word.toBytes ws) := by
  constructor
  · intro found
    obtain ⟨ws', isText, holds, same⟩ := zcharsAt_eq_ok.mp found
    have eq : ws = ws' := by
      rw [← packZChars_unpack h, same, packZChars_unpack isText]
    rwa [eq]
  · exact zcharsAt_of_holds h

/-- Two bytes for three z-characters. If a text cannot be measured, it cannot be read, and for the
same reason. -/
theorem textLength_eq_map_zcharsAt (m : Memory) (address : Nat) :
    m.textLength address = (fun zs => 2 * (zs.length / 3)) <$> m.zcharsAt address := by
  fun_induction textLength m address with
  | case1 address inside marked =>
    rw [zcharsAt, if_pos inside, if_pos marked]
    simp
  | case2 address inside unmarked ih =>
    rw [zcharsAt, if_pos inside, if_neg unmarked, ih]
    cases m.zcharsAt (address + 2) with
    | error fault => rfl
    | ok zs =>
      simp only [Except.map_ok, Except.ok.injEq, List.length_append, length_unpackWord]
      omega
  | case3 address outside => rw [zcharsAt, if_neg outside]; rfl

/-- The length of a text fails where reading it does. -/
theorem textLength_eq_error {fault : Error} :
    m.textLength address = .error fault ↔ m.zcharsAt address = .error fault := by
  rw [textLength_eq_map_zcharsAt]
  cases m.zcharsAt address <;> simp

theorem textLength_eq_ok_iff {n : Nat} :
    m.textLength address = .ok n ↔ ∃ zs, m.zcharsAt address = .ok zs ∧ 2 * zs.length = 3 * n := by
  rw [textLength_eq_map_zcharsAt, Except.map_eq_ok]
  refine exists_congr fun zs => and_congr_right fun found => ?_
  obtain ⟨ws, -, -, rfl⟩ := zcharsAt_eq_ok.mp found
  rw [length_flatMap_unpackWord]
  omega

end Memory

/-! ## Both orders -/

/-- The padding is as short as it can be. -/
theorem padding_isLeast (count : Nat) :
    IsLeast {k | 0 < count + k ∧ 3 ∣ count + k} (padding count).length := by
  rw [padding, List.length_replicate]
  constructor
  · show 0 < _ ∧ 3 ∣ _
    split <;> omega
  · rintro k ⟨positive, whole⟩
    split <;> omega

/-- Packing and reading are inverse.

* The words packed from z-characters are read, from any place of any memory that holds them there,
  as these z-characters and the fewest 5s that make their number a positive multiple of three.
* The z-characters read from words of which only the last one is marked are packed to these words.
  -/
theorem packing_inverse :
    (∀ zs : List ZChar, (∀ z ∈ zs, z ≤ 31) →
      ∃ n, IsLeast {k | 0 < zs.length + k ∧ 3 ∣ zs.length + k} n ∧
        ∀ (m : Memory) (address : Nat), m.Holds address (Word.toBytes (packZChars zs)) →
          m.zcharsAt address = .ok (zs ++ List.replicate n 5)) ∧
    ∀ (front : List Word) (last : Word), (∀ w ∈ front, w < 0x8000) → 0x8000 ≤ last →
      ∀ (m : Memory) (address : Nat), m.Holds address (Word.toBytes (front ++ [last])) →
        ∃ zs, m.zcharsAt address = .ok zs ∧ packZChars zs = front ++ [last] := by
  constructor
  · intro zs small
    obtain ⟨isText, unpacked⟩ := packZChars_spec fun z mem =>
      UInt8.lt_iff_toNat_lt.mpr (Nat.lt_succ_of_le (UInt8.le_iff_toNat_le.mp (small z mem)))
    refine ⟨_, padding_isLeast zs.length, fun m address holds => ?_⟩
    rw [Memory.zcharsAt_of_holds isText holds, unpacked, padding, List.length_replicate]
    rfl
  · intro front last low high m address holds
    have unmarked : ∀ w ∈ front, isLast w = false := by
      intro w mem
      have small := UInt16.lt_iff_toNat_lt.mp (low w mem)
      rw [← Bool.not_eq_true, isLast_iff]
      exact Nat.not_le_of_lt small
    have marked : isLast last = true := (isLast_iff last).mpr (UInt16.le_iff_toNat_le.mp high)
    have isText := isText_append_last unmarked marked
    exact ⟨_, Memory.zcharsAt_of_holds isText holds, packZChars_unpack isText⟩

/-- Four z-characters, of which the escape and the shift would mean something else elsewhere, and
the two words that they are packed to, at an odd address. -/
theorem packing_inverse_escape :
    let m : Memory := ⟨#[0xFF, 0x14, 0xC3, 0xEC, 0xA5, 0x14]⟩
    m.Holds 1 (Word.toBytes (packZChars [5, 6, 3, 27])) ∧
      (∃ n, IsLeast {k | 0 < 4 + k ∧ 3 ∣ 4 + k} n ∧
        m.zcharsAt 1 = .ok ([5, 6, 3, 27] ++ List.replicate n 5)) ∧
      ∃ zs, m.zcharsAt 1 = .ok zs ∧ packZChars zs = [0x14C3] ++ [0xECA5] := by
  intro m
  have packed : packZChars [5, 6, 3, 27] = [0x14C3] ++ [0xECA5] := by decide
  have holds : m.Holds 1 (Word.toBytes ([0x14C3] ++ [0xECA5])) := by
    simp only [List.cons_append, List.nil_append, Word.toBytes_cons, Word.toBytes_nil,
      Memory.holds_cons, Memory.holds_nil]
    decide
  obtain ⟨read, repack⟩ := packing_inverse
  obtain ⟨n, least, back⟩ := read [5, 6, 3, 27] (by simp)
  exact ⟨packed ▸ holds, ⟨n, least, back m 1 (packed ▸ holds)⟩,
    repack [0x14C3] 0xECA5 (by simp) (by decide) m 1 holds⟩

end ZMachine
