import Mathlib.Data.List.ReduceOption
import ZMachine.Instruction.Decode
import ZMachine.Proofs.Scan
import ZMachine.Proofs.Text.Packing

/-!
# The layout of instructions

An instruction is an opening of one or two bytes, its operands, and what its opcode asks for
besides. The layout is written down here from the fields of the instruction to the bytes, and the
parts of the decoder are shown to read its parts.

## Main definitions

* `Instruction.Opening` — the bytes that give form, class, number and kinds of operands.
* `Branch.Encoding` — the one or two bytes of branch data.
* `Instruction.LaidOut` — the bytes of a whole instruction.

## Main statements

* `OperandKind.ofTypeByte?_eq_some` — a type byte lists kinds, and then empty places only.
* `Instruction.opening_iff` — what the decoder takes from the first bytes.
* `Branch.reads_scan`, `OperandKind.reads_scanAll`, `Instruction.reads_scanText` — the other parts.
-/

namespace ZMachine

/-! ## Layouts of parts -/

namespace Layout

variable {α : Type}

def optional (present : Bool) (L : Layout α) : Layout (Option α)
  | start, some a, bytes => present = true ∧ L start a bytes
  | _, none, bytes => present = false ∧ bytes = []

/-- Bytes that do not depend on where they lie. -/
theorem optional_anywhere {present : Bool} {K : α → List Byte → Prop} {start start' : Nat}
    {value : Option α} {bytes : List Byte} (h : optional present (fun _ => K) start value bytes) :
    optional present (fun _ => K) start' value bytes := by
  cases value <;> exact h

/-- The address of a text, which takes the words of the text. -/
def text : Layout Nat :=
  fun start address bytes => address = start ∧ ∃ ws, IsText ws ∧ bytes = Word.toBytes ws

end Layout

namespace OperandKind

/-- The two bits for a kind, or for a place left empty. -/
def bits : Option OperandKind → Nat
  | some .large => 0
  | some .small => 1
  | some .var => 2
  | none => 3

def ofBit : Bool → OperandKind
  | false => .small
  | true => .var

def typeByte (kinds : List OperandKind) : Byte :=
  UInt8.ofNat (64 * bits kinds[0]? + 16 * bits kinds[1]? + 4 * bits kinds[2]? + bits kinds[3]?)

end OperandKind

def Operand.toBytes : Operand → List Byte
  | .large value => [Word.highByte value, Word.lowByte value]
  | .small value => [value]
  | .var number => [number]

/-- Six bits hold an offset below 64; fourteen hold a signed one. -/
inductive Branch.Encoding : Branch → List Byte → Prop
  | short (onTrue : Bool) {offset : Nat} (fits : offset < 64) :
      Encoding ⟨onTrue, offset⟩ [UInt8.ofNat (128 * onTrue.toNat + 64 + offset)]
  | long (onTrue : Bool) {offset : Int} (low : -0x2000 ≤ offset) (high : offset < 0x2000) :
      Encoding ⟨onTrue, offset⟩
        [UInt8.ofNat (128 * onTrue.toNat + (offset % 0x4000).toNat / 256),
          UInt8.ofNat ((offset % 0x4000).toNat % 256)]

namespace Instruction

open OperandKind

/-- The first bytes of an instruction, whose first bits tell its form. -/
inductive Opening :
    InstructionForm → OpcodeClass → Nat → List OperandKind → List Byte → Prop
  | long {number : Nat} (fits : number < 32) (first second : Bool) :
      Opening .long .two number [ofBit first, ofBit second]
        [UInt8.ofNat (64 * first.toNat + 32 * second.toNat + number)]
  | zero {number : Nat} (fits : number < 16) :
      Opening .short .zero number [] [UInt8.ofNat (0x80 + 16 * bits none + number)]
  | one {number : Nat} (fits : number < 16) (kind : OperandKind) :
      Opening .short .one number [kind] [UInt8.ofNat (0x80 + 16 * bits (some kind) + number)]
  | two {number : Nat} (fits : number < 32) {kinds : List OperandKind} (few : kinds.length ≤ 4) :
      Opening .variadic .two number kinds [UInt8.ofNat (0xC0 + number), typeByte kinds]
  | several {number : Nat} (fits : number < 32) {kinds : List OperandKind}
      (few : kinds.length ≤ 4) :
      Opening .variadic .several number kinds [UInt8.ofNat (0xE0 + number), typeByte kinds]

/-- The bytes of an instruction, part after part. The opcode tells which parts there are. -/
def LaidOut (i : Instruction) (bytes : List Byte) : Prop :=
  ∃ (opcode : Opcode) (opening store branch text : List Byte),
    i.opcode? = some opcode ∧
    Opening i.form i.opcodeClass i.number (i.operands.map Operand.kind) opening ∧
    Layout.byte.optional opcode.stores i.address i.store store ∧
    Layout.optional opcode.branches (fun _ => Branch.Encoding) i.address i.branch branch ∧
    Layout.text.optional opcode.hasText
      (i.address + (opening ++ i.operands.flatMap Operand.toBytes ++ store ++ branch).length)
      i.text text ∧
    bytes = opening ++ i.operands.flatMap Operand.toBytes ++ store ++ branch ++ text ∧
    i.size = bytes.length

end Instruction

/-! ## Bits of a byte -/

/-- What holds of all numbers below 256 holds of all bytes. -/
theorem Byte.forall_of_lt {P : Byte → Prop} (h : ∀ n < 256, P (UInt8.ofNat n)) : ∀ b, P b :=
  fun b => by simpa using h b.toNat b.toNat_lt

theorem Byte.eq_ofNat_iff {b : Byte} {n : Nat} : b = UInt8.ofNat n ↔ b.toNat = n % 256 := by
  rw [← UInt8.toNat_inj, UInt8.toNat_ofNat']

theorem Byte.exists_value {n : Nat} (small : n < 256) :
    ∃ b : Byte, b = UInt8.ofNat n ∧ b.toNat = n :=
  ⟨_, rfl, by rw [UInt8.toNat_ofNat', Nat.mod_eq_of_lt small]⟩

/-! ## Branch data -/

namespace Branch

/-- Every offset that fits in fourteen bits with a sign is what these bits stand for. -/
theorem longOffset_mod {offset : Int} (low : -0x2000 ≤ offset) (high : offset < 0x2000) :
    longOffset (offset % 0x4000).toNat = offset := by
  unfold longOffset
  split <;> omega

/-- Fourteen bits stand for an offset with a sign, which gives them back. -/
theorem longOffset_bounds {value : Nat} (h : value < 0x4000) :
    -0x2000 ≤ longOffset value ∧ longOffset value < 0x2000 ∧
      (longOffset value % 0x4000).toNat = value := by
  unfold longOffset
  split <;> omega

/-- The first byte of branch data is made of two bits and a number of six. -/
theorem firstByte_eq_iff {b : Byte} {onTrue short : Bool} {low : Nat} (fits : low < 64) :
    b = UInt8.ofNat (128 * onTrue.toNat + 64 * short.toNat + low) ↔
      onTrue = decide (b &&& 0x80 ≠ 0) ∧ short = decide (b &&& 0x40 ≠ 0) ∧
        low = (b &&& 0x3F).toNat := by
  have fields : ∀ b : Byte, decide (b &&& 0x80 ≠ 0) = decide (128 ≤ b.toNat) ∧
      decide (b &&& 0x40 ≠ 0) = decide (64 ≤ b.toNat % 128) ∧
      (b &&& 0x3F).toNat = b.toNat % 64 := Byte.forall_of_lt (by decide +kernel)
  obtain ⟨first, second, rest⟩ := fields b
  have bound := b.toNat_lt
  rw [first, second, rest, Byte.eq_ofNat_iff]
  cases onTrue <;> cases short <;> simp <;> omega

/-- Branch data in both lengths, by the fields of its first byte. -/
theorem encoding_iff {b : Branch} {bytes : List Byte} :
    b.Encoding bytes ↔ ∃ first, b.onTrue = decide (first &&& 0x80 ≠ 0) ∧
      if first &&& 0x40 ≠ 0 then b.offset = (first &&& 0x3F).toNat ∧ bytes = [first]
      else ∃ low, b.offset = longOffset (256 * (first &&& 0x3F).toNat + low.toNat) ∧
        bytes = [first, low] := by
  constructor
  · intro h
    cases h with
    | @short onTrue offset fits =>
      obtain ⟨outcome, marked, six⟩ := (@firstByte_eq_iff _ onTrue true _ fits).mp rfl
      refine ⟨_, outcome, ?_⟩
      rw [if_pos (of_decide_eq_true marked.symm), ← six]
      exact ⟨rfl, rfl⟩
    | @long onTrue offset low high =>
      have fits : (offset % 0x4000).toNat / 256 < 64 := by omega
      obtain ⟨outcome, unmarked, six⟩ := (@firstByte_eq_iff _ onTrue false _ fits).mp rfl
      refine ⟨_, outcome, ?_⟩
      rw [if_neg (of_decide_eq_false unmarked.symm), ← six]
      refine ⟨_, ?_, rfl⟩
      rw [UInt8.toNat_ofNat', Nat.mod_mod, Nat.div_add_mod, longOffset_mod low high]
  · rintro ⟨first, outcome, rest⟩
    obtain ⟨onTrue, offset⟩ := b
    have six : (first &&& 0x3F).toNat < 64 := by
      have : ∀ b : Byte, (b &&& 0x3F).toNat < 64 := Byte.forall_of_lt (by decide +kernel)
      exact this first
    split at rest
    · next marked =>
      obtain ⟨rfl, rfl⟩ := rest
      have whole := (@firstByte_eq_iff first onTrue true _ six).mpr
        ⟨outcome, (decide_eq_true marked).symm, rfl⟩
      convert Encoding.short onTrue six using 2
      exact whole
    · next unmarked =>
      obtain ⟨low, rfl, rfl⟩ := rest
      have whole := (@firstByte_eq_iff first onTrue false _ six).mpr
        ⟨outcome, (decide_eq_false unmarked).symm, rfl⟩
      have := low.toNat_lt
      obtain ⟨least, most, back⟩ := longOffset_bounds
        (show 256 * (first &&& 0x3F).toNat + low.toNat < 0x4000 by omega)
      convert Encoding.long onTrue least most using 3
      · rw [back]
        refine whole.trans (congrArg UInt8.ofNat ?_)
        rw [Bool.toNat_false]
        omega
      · rw [back, Byte.eq_ofNat_iff]
        omega

/-- Branch data is read wherever memory holds it. -/
theorem reads_scan : scan.Reads fun _ => Encoding := by
  have parts : scan.Reads (Layout.byte.andThen fun first =>
      if first &&& 0x40 ≠ 0 then
        Layout.nothing ⟨decide (first &&& 0x80 ≠ 0), ((first &&& 0x3F).toNat : Int)⟩
      else Layout.byte.andThen fun low =>
        Layout.nothing ⟨decide (first &&& 0x80 ≠ 0),
          longOffset (256 * (first &&& 0x3F).toNat + low.toNat)⟩) := by
    refine .bind .byte fun first => ?_
    dsimp only
    split
    · exact .pure _
    · exact .bind .byte fun low => .pure _
  refine parts.congr fun start b bytes => ?_
  rw [encoding_iff]
  constructor
  · rintro ⟨first, _, back, rfl, rest, rfl⟩
    refine ⟨first, ?_⟩
    by_cases short : first &&& 0x40 ≠ 0
    · rw [if_pos short] at rest ⊢
      obtain ⟨rfl, rfl⟩ := rest
      exact ⟨rfl, rfl, rfl⟩
    · rw [if_neg short] at rest ⊢
      obtain ⟨low, _, _, rfl, ⟨rfl, rfl⟩, rfl⟩ := rest
      exact ⟨rfl, low, rfl, rfl⟩
  · obtain ⟨onTrue, offset⟩ := b
    rintro ⟨first, rfl, rest⟩
    by_cases short : first &&& 0x40 ≠ 0
    · rw [if_pos short] at rest
      obtain ⟨rfl, rfl⟩ := rest
      refine ⟨first, [first], [], rfl, ?_, rfl⟩
      beta_reduce
      rw [if_pos short]
      exact ⟨rfl, rfl⟩
    · rw [if_neg short] at rest
      obtain ⟨low, rfl, rfl⟩ := rest
      refine ⟨first, [first], [low], rfl, ?_, rfl⟩
      beta_reduce
      rw [if_neg short]
      exact ⟨low, [low], [], rfl, ⟨rfl, rfl⟩, rfl⟩

end Branch

/-! ## Operands -/

namespace OperandKind

theorem ofBits?_eq_iff {b : Byte} {place : Option OperandKind} :
    ofBits? b = place ↔ b.toNat % 4 = bits place := by
  have low : ∀ b : Byte, (b &&& 3).toNat = b.toNat % 4 := Byte.forall_of_lt (by decide +kernel)
  rw [ofBits?, low b]
  have bound := Nat.mod_lt b.toNat (show 0 < 4 by decide)
  constructor
  · rintro rfl
    split <;> simp_all [bits]
    omega
  · intro h
    rw [h]
    cases place with
    | none => rfl
    | some kind => cases kind <;> rfl

theorem bits_le (place : Option OperandKind) : bits place ≤ 3 := by
  cases place with
  | none => decide
  | some kind => cases kind <;> decide

theorem bits_some_lt (kind : OperandKind) : bits (some kind) < 3 := by
  cases kind <;> decide

/-- A place of a type byte is found by its two bits. -/
theorem places_eq_iff {b : Byte} {p₀ p₁ p₂ p₃ : Option OperandKind} :
    (ofBits? (b >>> 6) = p₀ ∧ ofBits? (b >>> 4) = p₁ ∧ ofBits? (b >>> 2) = p₂ ∧ ofBits? b = p₃) ↔
      b = UInt8.ofNat (64 * bits p₀ + 16 * bits p₁ + 4 * bits p₂ + bits p₃) := by
  have shifted : ∀ b : Byte, (b >>> 6).toNat % 4 = b.toNat / 64 ∧
      (b >>> 4).toNat % 4 = b.toNat / 16 % 4 ∧ (b >>> 2).toNat % 4 = b.toNat / 4 % 4 :=
    Byte.forall_of_lt (by decide +kernel)
  obtain ⟨first, second, third⟩ := shifted b
  have := bits_le p₀
  have := bits_le p₁
  have := bits_le p₂
  have := bits_le p₃
  have := b.toNat_lt
  simp only [ofBits?_eq_iff, first, second, third, Byte.eq_ofNat_iff]
  omega

/-- A type byte lists kinds and then empty places only. -/
theorem ofTypeByte?_eq_some {b : Byte} {kinds : List OperandKind} :
    ofTypeByte? b = some kinds ↔ kinds.length ≤ 4 ∧ b = typeByte kinds := by
  rw [typeByte, ← places_eq_iff, ofTypeByte?]
  constructor
  · intro h
    generalize ofBits? (b >>> 6) = p₀, ofBits? (b >>> 4) = p₁, ofBits? (b >>> 2) = p₂,
      ofBits? b = p₃ at h ⊢
    cases p₀ <;> cases p₁ <;> cases p₂ <;> cases p₃ <;>
      simp [List.dropWhile, List.takeWhile, List.reduceOption_cons_of_some] at h <;>
      subst h <;> simp
  · rintro ⟨few, first, second, third, fourth⟩
    rw [first, second, third, fourth]
    rcases kinds with _ | ⟨a, _ | ⟨b, _ | ⟨c, _ | ⟨d, _ | ⟨x, rest⟩⟩⟩⟩⟩
    · rfl
    · rfl
    · rfl
    · rfl
    · rfl
    · simp only [List.length_cons] at few
      omega

theorem reads_scan (kind : OperandKind) :
    kind.scan.Reads fun _ operand bytes => operand.kind = kind ∧ bytes = operand.toBytes := by
  cases kind with
  | large =>
    refine (Scan.Reads.word.map Operand.large).congr fun start operand bytes => ?_
    cases operand <;>
      simp [Layout.andThen, Layout.word, Layout.nothing, Operand.kind, Operand.toBytes]
  | small =>
    refine (Scan.Reads.byte.map Operand.small).congr fun start operand bytes => ?_
    cases operand <;>
      simp [Layout.andThen, Layout.byte, Layout.nothing, Operand.kind, Operand.toBytes]
  | var =>
    refine (Scan.Reads.byte.map Operand.var).congr fun start operand bytes => ?_
    cases operand <;>
      simp [Layout.andThen, Layout.byte, Layout.nothing, Operand.kind, Operand.toBytes]

/-- Operands are read as they are laid out, one after another. -/
theorem reads_scanAll (kinds : List OperandKind) :
    (scanAll kinds).Reads fun _ operands bytes =>
      operands.map Operand.kind = kinds ∧ bytes = operands.flatMap Operand.toBytes := by
  induction kinds with
  | nil =>
    refine (Scan.Reads.pure []).congr fun start operands bytes => ?_
    cases operands <;> simp [Layout.nothing]
  | cons kind kinds ih =>
    refine ((reads_scan kind).bind fun first => ih.map (first :: ·)).congr
      fun start operands bytes => ?_
    constructor
    · rintro ⟨first, _, _, ⟨rfl, rfl⟩, ⟨rest, _, _, ⟨rfl, rfl⟩, ⟨rfl, rfl⟩, rfl⟩, rfl⟩
      simp
    · rintro ⟨same, rfl⟩
      obtain ⟨first, rest, rfl, rfl, rfl⟩ := List.map_eq_cons_iff.mp same
      exact ⟨first, _, _, ⟨rfl, rfl⟩, ⟨rest, _, [], ⟨rfl, rfl⟩, ⟨rfl, rfl⟩, rfl⟩, by simp⟩

end OperandKind

/-! ## The opening -/

namespace Instruction

open OperandKind

/-- The first byte in numbers. -/
theorem readFirstByte_eq (b : Byte) :
    readFirstByte b =
      if b.toNat < 0x80 then (.long, .two, b.toNat % 32)
      else if b.toNat < 0xC0 then
        (.short, if b.toNat / 16 % 4 = 3 then .zero else .one, b.toNat % 16)
      else (.variadic, if b.toNat / 32 % 2 = 0 then .two else .several, b.toNat % 32) := by
  revert b
  exact Byte.forall_of_lt (by decide +kernel)

/-- The kinds of operands, told by the first byte already or by a byte of their own. -/
def kindLayout (first : Byte) : InstructionForm → Layout (List OperandKind)
  | .long, _, kinds, bytes =>
    kinds = [ofBit (decide (64 ≤ first.toNat % 128)), ofBit (decide (32 ≤ first.toNat % 64))] ∧
      bytes = []
  | .short, _, kinds, bytes => kinds = (ofBits? (first >>> 4)).toList ∧ bytes = []
  | .variadic, _, kinds, bytes => kinds.length ≤ 4 ∧ bytes = [typeByte kinds]

/-- The kinds of operands are read as they are laid out. -/
theorem reads_scanKinds (address : Nat) (first : Byte) (form : InstructionForm) :
    (scanKinds address first form).Reads (kindLayout first form) := by
  cases form with
  | long =>
    have bit : ∀ b : Byte, (b &&& 0x40 = 0 ↔ ¬64 ≤ b.toNat % 128) ∧
        (b &&& 0x20 = 0 ↔ ¬32 ≤ b.toNat % 64) := Byte.forall_of_lt (by decide +kernel)
    have kind (n k : Nat) : (if ¬n ≤ k then .small else .var) = ofBit (decide (n ≤ k)) := by
      by_cases h : n ≤ k <;> simp [h, ofBit]
    refine (Scan.Reads.pure _).congr fun start kinds bytes => ?_
    simp only [Layout.nothing, kindLayout, (bit first).1, (bit first).2, kind]
  | short => exact .pure _
  | variadic =>
    have parts : (scanKinds address first .variadic).Reads (Layout.byte.andThen fun b =>
        (ofTypeByte? b).elim (fun _ _ _ => False) Layout.nothing) := by
      refine .bind .byte fun b => ?_
      cases ofTypeByte? b with
      | some kinds => exact .pure kinds
      | none => exact .throw _
    refine parts.congr fun start kinds bytes => ?_
    constructor
    · rintro ⟨b, _, back, rfl, listed, rfl⟩
      cases eq : ofTypeByte? b with
      | none =>
        simp only [eq, Option.elim_none] at listed
      | some found =>
        simp only [eq, Option.elim_some] at listed
        obtain ⟨rfl, rfl⟩ := listed
        obtain ⟨few, rfl⟩ := ofTypeByte?_eq_some.mp eq
        exact ⟨few, rfl⟩
    · rintro ⟨few, rfl⟩
      refine ⟨_, [typeByte kinds], [], rfl, ?_, rfl⟩
      beta_reduce
      rw [ofTypeByte?_eq_some.mpr ⟨few, rfl⟩]
      exact ⟨rfl, rfl⟩

/-- The kind of the only operand of a short form. -/
theorem ofBits?_shift_iff {b : Byte} {place : Option OperandKind} :
    ofBits? (b >>> 4) = place ↔ b.toNat / 16 % 4 = bits place := by
  have shifted : ∀ b : Byte, (b >>> 4).toNat % 4 = b.toNat / 16 % 4 :=
    Byte.forall_of_lt (by decide +kernel)
  rw [ofBits?_eq_iff, shifted b]

variable {form : InstructionForm} {opcodeClass : OpcodeClass} {number : Nat}
  {kinds : List OperandKind}

/-- The fields of an opening. The value of its first byte is below 256, so that they are found by
division. -/
theorem Opening.exists_fields (start : Nat) {bytes : List Byte}
    (h : Opening form opcodeClass number kinds bytes) :
    ∃ first rest, readFirstByte first = (form, opcodeClass, number) ∧
      kindLayout first form start kinds rest ∧ bytes = first :: rest := by
  cases h with
  | @long number fits first second =>
    have := first.toNat_le
    have := second.toNat_le
    obtain ⟨b, eq, value⟩ := Byte.exists_value
      (show 64 * first.toNat + 32 * second.toNat + number < 256 by omega)
    have high : 64 ≤ b.toNat % 128 ↔ first = true := by
      rw [← Bool.toNat_eq_one]
      omega
    have low : 32 ≤ b.toNat % 64 ↔ second = true := by
      rw [← Bool.toNat_eq_one]
      omega
    refine ⟨b, [], ?_, ⟨?_, rfl⟩, by rw [eq]⟩
    · rw [readFirstByte_eq, if_pos (by omega), show b.toNat % 32 = number by omega]
    · simp [high, low]
  | @zero number fits =>
    obtain ⟨b, eq, value⟩ := Byte.exists_value
      (show 0x80 + 16 * bits none + number < 256 by rw [bits]; omega)
    rw [bits] at value
    have empty : ofBits? (b >>> 4) = none := by
      rw [ofBits?_shift_iff, bits]
      omega
    refine ⟨b, [], ?_, ⟨by rw [empty]; rfl, rfl⟩, by rw [eq]⟩
    rw [readFirstByte_eq, if_neg (by omega), if_pos (by omega), if_pos (by omega),
      show b.toNat % 16 = number by omega]
  | @one number fits kind =>
    have := bits_some_lt kind
    obtain ⟨b, eq, value⟩ := Byte.exists_value
      (show 0x80 + 16 * bits (some kind) + number < 256 by omega)
    have named : ofBits? (b >>> 4) = some kind := by
      rw [ofBits?_shift_iff]
      omega
    refine ⟨b, [], ?_, ⟨by rw [named]; rfl, rfl⟩, by rw [eq]⟩
    rw [readFirstByte_eq, if_neg (by omega), if_pos (by omega), if_neg (by omega),
      show b.toNat % 16 = number by omega]
  | @two number fits kinds few =>
    obtain ⟨b, eq, value⟩ := Byte.exists_value (show 0xC0 + number < 256 by omega)
    refine ⟨b, _, ?_, ⟨few, rfl⟩, by rw [eq]⟩
    rw [readFirstByte_eq, if_neg (by omega), if_neg (by omega), if_pos (by omega),
      show b.toNat % 32 = number by omega]
  | @several number fits kinds few =>
    obtain ⟨b, eq, value⟩ := Byte.exists_value (show 0xE0 + number < 256 by omega)
    refine ⟨b, _, ?_, ⟨few, rfl⟩, by rw [eq]⟩
    rw [readFirstByte_eq, if_neg (by omega), if_neg (by omega), if_neg (by omega),
      show b.toNat % 32 = number by omega]

/-- A first byte and the bytes for the kinds make an opening. -/
theorem opening_of_fields {start : Nat} {first : Byte} {rest : List Byte}
    (fields : readFirstByte first = (form, opcodeClass, number))
    (listed : kindLayout first form start kinds rest) :
    Opening form opcodeClass number kinds (first :: rest) := by
  have bound := first.toNat_lt
  rw [readFirstByte_eq] at fields
  split at fields
  · cases fields
    obtain ⟨rfl, rfl⟩ := listed
    have whole : first = UInt8.ofNat (64 * (decide (64 ≤ first.toNat % 128)).toNat +
        32 * (decide (32 ≤ first.toNat % 64)).toNat + first.toNat % 32) := by
      rw [Byte.eq_ofNat_iff]
      by_cases high : 64 ≤ first.toNat % 128 <;> by_cases low : 32 ≤ first.toNat % 64 <;>
        simp [high, low] <;> omega
    convert Opening.long (Nat.mod_lt first.toNat (by decide)) _ _ using 2
  · split at fields
    · obtain ⟨rfl, fields⟩ := Prod.mk.inj fields
      have fits : first.toNat % 16 < 16 := Nat.mod_lt _ (by decide)
      have kind_bits := (@ofBits?_shift_iff first _).mp rfl
      obtain ⟨rfl, rfl⟩ := listed
      cases eq : ofBits? (first >>> 4) with
      | none =>
        rw [eq, bits] at kind_bits
        rw [if_pos kind_bits] at fields
        cases fields
        rw [Option.toList_none]
        convert Opening.zero fits using 2
        rw [Byte.eq_ofNat_iff, bits]
        omega
      | some kind =>
        rw [eq] at kind_bits
        have := bits_some_lt kind
        rw [if_neg (by omega)] at fields
        cases fields
        rw [Option.toList_some]
        convert Opening.one fits kind using 2
        rw [Byte.eq_ofNat_iff]
        omega
    · obtain ⟨rfl, fields⟩ := Prod.mk.inj fields
      have fits : first.toNat % 32 < 32 := Nat.mod_lt _ (by decide)
      obtain ⟨few, rfl⟩ := listed
      split at fields
      · cases fields
        convert Opening.two fits few using 2
        rw [Byte.eq_ofNat_iff]
        omega
      · cases fields
        convert Opening.several fits few using 2
        rw [Byte.eq_ofNat_iff]
        omega

/-- The first bytes of an instruction are a first byte and, where it calls for one, a byte of
kinds. -/
theorem opening_iff (start : Nat) {bytes : List Byte} :
    Opening form opcodeClass number kinds bytes ↔ ∃ first rest,
      readFirstByte first = (form, opcodeClass, number) ∧
        kindLayout first form start kinds rest ∧ bytes = first :: rest :=
  ⟨Opening.exists_fields start,
    fun ⟨_, _, fields, listed, eq⟩ => eq ▸ opening_of_fields fields listed⟩

/-! ## What the opcode asks for -/

/-- What is read only when it is present is laid out so. -/
theorem reads_scanIf {α : Type} {L : Layout α} {x : Scan α} (h : x.Reads L) (present : Bool) :
    (scanIf present x).Reads (L.optional present) := by
  cases present with
  | true =>
    refine (h.map some).congr fun start value bytes => ?_
    cases value <;> simp [Layout.andThen, Layout.nothing, Layout.optional]
  | false =>
    refine (Scan.Reads.pure none).congr fun start value bytes => ?_
    cases value <;> simp [Layout.nothing, Layout.optional]

theorem scanText_apply (m : Memory) (start : Nat) :
    scanText m start =
      match m.textLength start with
      | .ok length => .ok start (start + length)
      | .error e => .error e start := by
  have measured : (monadLift (m.textLength start) : Scan Nat) m start =
      match m.textLength start with
      | .ok length => .ok length start
      | .error e => .error e start := by
    cases m.textLength start <;> rfl
  change ((monadLift (m.textLength start) : Scan Nat) >>= fun length => do
    set (start + length)
    return start) m start = _
  rw [Scan.bind_apply, measured]
  cases m.textLength start <;> rfl

theorem reads_scanText : scanText.Reads Layout.text := by
  intro m start address stop
  rw [scanText_apply]
  constructor
  · intro h
    cases eq : m.textLength start with
    | error e => simp [eq] at h
    | ok length =>
      obtain ⟨ws, isText, holds, rfl⟩ := Memory.textLength_eq_ok.mp eq
      simp only [eq] at h
      cases h
      exact ⟨_, ⟨rfl, ws, isText, rfl⟩, holds, rfl⟩
  · rintro ⟨_, ⟨rfl, ws, isText, rfl⟩, holds, rfl⟩
    rw [Memory.textLength_eq_ok.mpr ⟨ws, isText, holds, rfl⟩]

end Instruction
end ZMachine
