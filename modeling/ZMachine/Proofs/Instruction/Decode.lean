import Mathlib.Tactic.IntervalCases
import ZMachine.Proofs.Instruction.Layout

/-!
# Decoding reads the layout

The decoder accepts the layouts of instructions and nothing else, and gives back the fields that
were laid out.

## Main statements

* `Instruction.decode_eq_ok` — an instruction is decoded exactly where its layout lies.
* `Instruction.decode_laidOut` — decoding, its size, and the bytes that it depends on.
-/

namespace ZMachine
namespace Instruction

open OperandKind

/-- The layout of what comes after the kinds of operands, given the fields before it. -/
def restLayout (address : Nat) (fields : InstructionForm × OpcodeClass × Nat)
    (kinds : List OperandKind) : Layout Instruction :=
  fun start i bytes => ∃ (opcode : Opcode) (store branch text : List Byte),
    i.opcode? = some opcode ∧ (i.form, i.opcodeClass, i.number) = fields ∧
    i.operands.map Operand.kind = kinds ∧
    Layout.byte.optional opcode.stores start i.store store ∧
    Layout.optional opcode.branches (fun _ => Branch.Encoding) start i.branch branch ∧
    Layout.text.optional opcode.hasText
      (start + (i.operands.flatMap Operand.toBytes ++ store ++ branch).length) i.text text ∧
    bytes = i.operands.flatMap Operand.toBytes ++ store ++ branch ++ text ∧
    i.address = address ∧ i.size = start + bytes.length - address

/-- The rest of an instruction is read as it is laid out: operands, then what the opcode calls
for. -/
theorem reads_rest (address : Nat) (form : InstructionForm) (opcodeClass : OpcodeClass)
    (number : Nat) (kinds : List OperandKind) :
    Scan.Reads (do
      let operands ← OperandKind.scanAll kinds
      match Opcode.ofNumber? opcodeClass number with
      | none => throw (.unimplementedOpcode opcodeClass number address)
      | some opcode =>
        let store ← scanIf opcode.stores Scan.byte
        let branch ← scanIf opcode.branches Branch.scan
        let text ← scanIf opcode.hasText scanText
        let stop ← Scan.position
        return {
          address, opcodeClass, number, form, operands, store, branch, text
          size := stop - address })
      (restLayout address (form, opcodeClass, number) kinds) := by
  cases eq : Opcode.ofNumber? opcodeClass number with
  | none =>
    refine ((reads_scanAll kinds).bind fun _ => .throw _).congr fun start i bytes => ?_
    constructor
    · rintro ⟨_, _, _, _, no, _⟩
      exact no.elim
    · rintro ⟨_, _, _, _, found, fields, _⟩
      cases fields
      exact nomatch eq.symm.trans found
  | some opcode =>
    refine ((reads_scanAll kinds).bind fun operands =>
      (reads_scanIf .byte opcode.stores).bind fun store =>
      (reads_scanIf Branch.reads_scan opcode.branches).bind fun branch =>
      (reads_scanIf reads_scanText opcode.hasText).bind fun text =>
      Scan.Reads.position.map fun stop => Instruction.mk address opcodeClass number form operands
        store branch text (stop - address)).congr fun start i bytes => ?_
    constructor
    · rintro ⟨operands, _, _, ⟨rfl, rfl⟩, ⟨store, storeBytes, _, hstore, ⟨branch, branchBytes, _,
        hbranch, ⟨text, textBytes, _, htext, ⟨stop, _, _, ⟨rfl, rfl⟩, ⟨rfl, rfl⟩, rfl⟩, rfl⟩, rfl⟩,
        rfl⟩, rfl⟩
      refine ⟨opcode, storeBytes, branchBytes, textBytes, eq, rfl, rfl,
        Layout.optional_anywhere hstore, Layout.optional_anywhere hbranch, ?_, ?_, rfl, ?_⟩
      · simpa only [List.length_append, Nat.add_assoc] using htext
      · simp only [List.append_assoc, List.append_nil]
      · simp only [List.length_append, List.length_nil, Nat.add_assoc, Nat.add_zero]
    · rintro ⟨_, storeBytes, branchBytes, textBytes, found, fields, rfl, hstore, hbranch, htext,
        rfl, rfl, size⟩
      obtain ⟨address, opcodeClass, number, form, operands, store, branch, text, size⟩ := i
      cases fields
      obtain rfl := Option.some.inj (eq.symm.trans found)
      refine ⟨operands, _, _, ⟨rfl, rfl⟩, ⟨store, storeBytes, _, Layout.optional_anywhere hstore,
        ⟨branch, branchBytes, _, Layout.optional_anywhere hbranch, ⟨text, textBytes, _, ?_,
        ⟨_, [], [], ⟨rfl, rfl⟩, ⟨?_, rfl⟩, rfl⟩, rfl⟩, rfl⟩, rfl⟩, ?_⟩
      · simpa only [List.length_append, Nat.add_assoc] using htext
      · rw [Instruction.mk.injEq]
        simp only [List.length_append, Nat.add_assoc] at size ⊢
        simp only [size, and_self]
      · simp only [List.append_assoc, List.append_nil]

/-- An instruction is read as it is laid out, whatever its first byte is. -/
theorem reads_scan (address : Nat) :
    (scan address).Reads (Layout.byte.andThen fun first =>
      (kindLayout first (readFirstByte first).1).andThen
        (restLayout address (readFirstByte first))) :=
  .bind .byte fun first => .bind (reads_scanKinds address first _) fun kinds =>
    reads_rest address _ _ _ kinds

/-- The opening and the rest make up the layout. -/
theorem laidOut_iff {start : Nat} {i : Instruction} {bytes : List Byte} :
    (Layout.byte.andThen fun first => (kindLayout first (readFirstByte first).1).andThen
      (restLayout start (readFirstByte first))) start i bytes ↔
    i.address = start ∧ i.LaidOut bytes := by
  constructor
  · rintro ⟨first, _, _, rfl, ⟨_, rest, _, kinds, ⟨opcode, store, branch, text, implemented,
      fields, rfl, hstore, hbranch, htext, rfl, rfl, size⟩, rfl⟩, rfl⟩
    rw [← fields] at kinds
    refine ⟨rfl, opcode, first :: rest, store, branch, text, implemented,
      (opening_iff _).mpr ⟨first, rest, fields.symm, kinds, rfl⟩, Layout.optional_anywhere hstore,
      Layout.optional_anywhere hbranch, ?_, ?_, ?_⟩
    · convert htext using 1
      simp only [List.length_append, List.length_cons, List.length_nil]
      omega
    · simp only [List.append_assoc, List.cons_append, List.nil_append]
    · rw [size]
      simp only [List.length_append, List.length_cons, List.length_nil]
      omega
  · rintro ⟨rfl, opcode, opening, store, branch, text, implemented, hopening, hstore, hbranch,
      htext, rfl, size⟩
    obtain ⟨first, rest, fields, kinds, rfl⟩ := (opening_iff (i.address + 1)).mp hopening
    refine ⟨first, [first], _, rfl, ⟨_, rest, _, ?_, ⟨opcode, store, branch, text, implemented,
      fields.symm, rfl, Layout.optional_anywhere hstore, Layout.optional_anywhere hbranch, ?_, rfl,
      rfl, ?_⟩, rfl⟩, ?_⟩
    · rwa [fields]
    · convert htext using 1
      simp only [List.length_append, List.length_cons, List.length_nil]
      omega
    · rw [size]
      simp only [List.length_append, List.length_cons, List.length_nil]
      omega
    · simp only [List.append_assoc, List.cons_append, List.nil_append]

/-- An instruction is decoded exactly where its layout lies. -/
theorem decode_eq_ok {m : Memory} {address : Nat} {i : Instruction} :
    decode m address = .ok i ↔
      i.address = address ∧ ∃ bytes, i.LaidOut bytes ∧ m.Holds address bytes := by
  have scanned (stop : Nat) := reads_scan address m address i stop
  simp only [laidOut_iff] at scanned
  rw [decode, Except.map_eq_ok]
  constructor
  · rintro ⟨⟨_, stop⟩, run, rfl⟩
    obtain ⟨bytes, ⟨same, laidOut⟩, holds, -⟩ := (scanned stop).mp (Scan.runFrom_eq_ok.mp run)
    exact ⟨same, bytes, laidOut, holds⟩
  · rintro ⟨same, bytes, laidOut, holds⟩
    exact ⟨(i, _), Scan.runFrom_eq_ok.mpr
      ((scanned _).mpr ⟨bytes, ⟨same, laidOut⟩, holds, rfl⟩), rfl⟩

theorem LaidOut.ne_nil {i : Instruction} {bytes : List Byte} (h : i.LaidOut bytes) :
    bytes ≠ [] := by
  obtain ⟨_, _, _, _, _, _, opening, _, _, _, rfl, _⟩ := h
  obtain ⟨first, rest, -, -, rfl⟩ := (opening_iff 0).mp opening
  exact List.cons_ne_nil _ _

/-- The size of an instruction is the number of its bytes. -/
theorem LaidOut.size_eq {i : Instruction} {bytes : List Byte} (h : i.LaidOut bytes) :
    i.size = bytes.length := by
  obtain ⟨_, _, _, _, _, _, _, _, _, _, _, size⟩ := h
  exact size

section
variable {m : Memory} {address : Nat} {i : Instruction}

/-- Only instructions of opcodes that there are can be decoded. -/
theorem exists_opcode_of_decode (decoded : decode m address = .ok i) :
    ∃ opcode, i.opcode? = some opcode := by
  obtain ⟨-, bytes, ⟨opcode, _, _, _, _, known, _⟩, -⟩ := decode_eq_ok.mp decoded
  exact ⟨opcode, known⟩

/-- The program can go on after an instruction without leaving memory. -/
theorem next_le_of_decode (decoded : decode m address = .ok i) : i.next ≤ m.size := by
  obtain ⟨rfl, bytes, laidOut, holds⟩ := decode_eq_ok.mp decoded
  rw [next, laidOut.size_eq]
  exact holds.end_le laidOut.ne_nil

/-- The offset of a branch has at most fourteen bits. -/
theorem offset_bounds_of_decode {b : Branch} (decoded : decode m address = .ok i)
    (data : i.branch = some b) : -0x2000 ≤ b.offset ∧ b.offset < 0x2000 := by
  obtain ⟨-, bytes, ⟨_, _, _, _, _, _, _, _, laidOut, _⟩, -⟩ := decode_eq_ok.mp decoded
  rw [data] at laidOut
  obtain ⟨-, encoding⟩ := laidOut
  cases encoding with
  | short onTrue fits => constructor <;> dsimp only <;> omega
  | long onTrue low high => exact ⟨low, high⟩

end

/-- An instruction is decoded exactly where its layout lies. It takes at least one byte, all of its
bytes lie in memory, and no other byte matters. -/
theorem decode_laidOut (m : Memory) (address : Nat) (i : Instruction) :
    (decode m address = .ok i ↔
      i.address = address ∧ ∃ bytes, i.LaidOut bytes ∧ m.Holds address bytes) ∧
    (decode m address = .ok i → 1 ≤ i.size ∧ address + i.size ≤ m.size ∧
      ∀ m' : Memory,
        (∀ a, address ≤ a → a < address + i.size → a < m'.size ∧ m'.get a = m.get a) →
          decode m' address = .ok i) := by
  refine ⟨decode_eq_ok, fun h => ?_⟩
  obtain ⟨same, bytes, laidOut, holds⟩ := decode_eq_ok.mp h
  have size : i.size = bytes.length := by
    obtain ⟨_, _, _, _, _, _, _, _, _, _, _, size⟩ := laidOut
    exact size
  have nonempty := laidOut.ne_nil
  refine ⟨?_, ?_, fun m' agree => ?_⟩
  · rw [size]
    exact List.length_pos_iff.mpr nonempty
  · rw [size]
    exact holds.end_le nonempty
  · rw [size] at agree
    exact decode_eq_ok.mpr ⟨same, bytes, laidOut, holds.congr agree⟩

/-- An operand, a variable for the result and a branch backwards, in two memories that agree only
there. -/
theorem decode_laidOut_child :
    let i : Instruction := ⟨1, .one, 2, .short, [.var 5], some 16, some ⟨true, -3⟩, none, 5⟩
    let m : Memory := ⟨#[0x00, 0xA2, 0x05, 0x10, 0xBF, 0xFD]⟩
    let m' : Memory := ⟨#[0x7F, 0xA2, 0x05, 0x10, 0xBF, 0xFD, 0xC1]⟩
    decode m 1 = .ok i ∧ 1 ≤ i.size ∧ 1 + i.size ≤ m.size ∧ decode m' 1 = .ok i := by
  intro i m m'
  have decoded : decode m 1 = .ok i := by decide +kernel
  obtain ⟨nonempty, inside, elsewhere⟩ := (decode_laidOut m 1 i).2 decoded
  refine ⟨decoded, nonempty, inside, elsewhere m' ?_⟩
  intro a low high
  have : a < 6 := high
  interval_cases a <;> decide

end Instruction
end ZMachine
