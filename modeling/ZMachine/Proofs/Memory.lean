import ZMachine.Memory
import ZMachine.Proofs.Action
import ZMachine.Proofs.Word

/-!
# Bytes held by memory

A text, an instruction or a table entry is a list of bytes, and it is read where memory holds these
bytes one after another.

## Main definitions

* `Memory.Holds` — memory holds a list of bytes from an address on.
* `Memory.putAll` — writes a list of bytes.
* `Memory.SameBut` — two memories differ at most in some bytes.

## Main statements

* `Memory.byteAt_eq_ok`, `Memory.wordAt_eq_ok` — a read succeeds iff memory holds what it gives.
* `Memory.holds_append`, `Memory.holds_iff` — to hold a list is to hold its parts side by side, or
  each byte in its place.
* `Memory.holds_putAll` — bytes that were written are held.
-/

namespace ZMachine

namespace Memory

def Holds (m : Memory) (address : Nat) : List Byte → Prop
  | [] => True
  | b :: rest => address < m.size ∧ m.get address = b ∧ m.Holds (address + 1) rest

@[simp] theorem holds_nil (m : Memory) (address : Nat) : m.Holds address [] := trivial

theorem holds_cons {m : Memory} {address : Nat} {b : Byte} {rest : List Byte} :
    m.Holds address (b :: rest) ↔
      address < m.size ∧ m.get address = b ∧ m.Holds (address + 1) rest := Iff.rfl

/-- Bytes in two parts lie in memory iff each part lies in its place. -/
theorem holds_append {m : Memory} {address : Nat} {front back : List Byte} :
    m.Holds address (front ++ back) ↔
      m.Holds address front ∧ m.Holds (address + front.length) back := by
  induction front generalizing address with
  | nil => simp
  | cons b front ih =>
    rw [List.cons_append, holds_cons, holds_cons, ih, List.length_cons,
      show address + 1 + front.length = address + (front.length + 1) by omega]
    tauto

/-- To hold bytes is to hold each of them in its place. -/
theorem holds_iff {m : Memory} {address : Nat} {bytes : List Byte} :
    m.Holds address bytes ↔
      ∀ k b, bytes[k]? = some b → address + k < m.size ∧ m.get (address + k) = b := by
  induction bytes generalizing address with
  | nil => simp
  | cons first rest ih =>
    rw [holds_cons, ih]
    constructor
    · rintro ⟨inside, held, after⟩ k b at_k
      cases k with
      | zero =>
        cases at_k
        exact ⟨inside, held⟩
      | succ k => simpa only [Nat.add_assoc, Nat.add_comm 1] using after k b at_k
    · intro each
      refine ⟨(each 0 first rfl).1, (each 0 first rfl).2, fun k b at_k => ?_⟩
      simpa only [Nat.add_assoc, Nat.add_comm 1] using each (k + 1) b at_k

/-- Bytes that are held end inside memory. -/
theorem Holds.end_le {m : Memory} {address : Nat} {bytes : List Byte}
    (h : m.Holds address bytes) (ne : bytes ≠ []) : address + bytes.length ≤ m.size := by
  induction bytes generalizing address with
  | nil => exact absurd rfl ne
  | cons b rest ih =>
    obtain ⟨inside, -, after⟩ := h
    rcases rest.eq_nil_or_concat with rfl | ⟨_, _, rfl⟩
    · exact inside
    · have := ih after (by simp)
      simp only [List.length_cons, List.concat_eq_append, List.length_append] at this ⊢
      omega

/-- To hold bytes, only the places that they take matter. -/
theorem Holds.congr {m m' : Memory} {address : Nat} {bytes : List Byte}
    (h : m.Holds address bytes)
    (same : ∀ a, address ≤ a → a < address + bytes.length →
      a < m'.size ∧ m'.get a = m.get a) : m'.Holds address bytes := by
  induction bytes generalizing address with
  | nil => trivial
  | cons b rest ih =>
    obtain ⟨-, rfl, after⟩ := h
    obtain ⟨inside, eq⟩ := same address (Nat.le_refl _) (by simp)
    refine ⟨inside, eq, ih after fun a low high => same a (by omega) ?_⟩
    simp only [List.length_cons]
    omega

/-- Entries of the same length lie one after another. -/
theorem Holds.of_flatMap {α : Type} {m : Memory} {address width index : Nat} {f : α → List Byte}
    {entries : List α} {a : α} (h : m.Holds address (entries.flatMap f))
    (each : ∀ a, (f a).length = width) (found : entries[index]? = some a) :
    m.Holds (address + index * width) (f a) := by
  induction entries generalizing address index with
  | nil => cases found
  | cons first rest ih =>
    rw [List.flatMap_cons, holds_append] at h
    cases index with
    | zero =>
      cases found
      simpa using h.1
    | succ index =>
      have := ih h.2 found
      rwa [each, Nat.add_assoc, Nat.add_comm width, ← Nat.add_one_mul] at this

/-! ## Reading -/

theorem check_eq_ok {m : Memory} {address width : Nat} {u : Unit} :
    m.check address width = .ok u ↔ address + width ≤ m.size := by
  unfold check
  split <;> simp_all

theorem byteAt_eq_ok {m : Memory} {address : Nat} {b : Byte} :
    m.byteAt address = .ok b ↔ m.Holds address [b] := by
  rw [byteAt, Except.bind_eq_ok]
  simp only [check_eq_ok, holds_cons, holds_nil, and_true]
  exact ⟨fun ⟨_, inside, h⟩ => ⟨inside, Except.ok.inj h⟩,
    fun ⟨inside, h⟩ => ⟨(), inside, congrArg _ h⟩⟩

/-- A word is read iff memory holds its two bytes. -/
theorem wordAt_eq_ok {m : Memory} {address : Nat} {w : Word} :
    m.wordAt address = .ok w ↔ m.Holds address [Word.highByte w, Word.lowByte w] := by
  rw [wordAt, Except.bind_eq_ok]
  simp only [check_eq_ok, holds_cons, holds_nil, and_true]
  constructor
  · rintro ⟨_, inside, h⟩
    cases h
    exact ⟨by omega, (Word.highByte_ofBytes _ _).symm, by omega, (Word.lowByte_ofBytes _ _).symm⟩
  · rintro ⟨-, high, inside, low⟩
    refine ⟨(), by omega, congrArg Except.ok ?_⟩
    rw [high, low, Word.ofBytes_highByte_lowByte]

theorem wordAt_of_le {m : Memory} {address : Nat} (inside : address + 2 ≤ m.size) :
    m.wordAt address = .ok (Word.ofBytes (m.get address) (m.get (address + 1))) := by
  rw [wordAt, check, if_pos inside]
  rfl

theorem longAt_eq_ok {m : Memory} {address : Nat} {v : UInt32} :
    m.longAt address = .ok v ↔ m.Holds address (Word.longBytes v) := by
  rw [longAt, Except.bind_eq_ok]
  simp only [check_eq_ok, Word.longBytes, Word.toBytes_cons, Word.toBytes_nil, holds_cons,
    holds_nil, and_true, Nat.add_assoc, Nat.reduceAdd]
  constructor
  · rintro ⟨_, inside, h⟩
    cases h
    rw [Word.highWord_join, Word.lowWord_join, Word.highByte_ofBytes, Word.highByte_ofBytes,
      Word.lowByte_ofBytes, Word.lowByte_ofBytes]
    exact ⟨by omega, rfl, by omega, rfl, by omega, rfl, by omega, rfl⟩
  · rintro ⟨-, first, -, second, -, third, inside, fourth⟩
    refine ⟨(), by omega, congrArg Except.ok ?_⟩
    rw [first, second, third, fourth, Word.ofBytes_highByte_lowByte, Word.ofBytes_highByte_lowByte,
      Word.join_words]

/-- A slice as long as the bytes that memory holds is these bytes. -/
theorem Holds.slice {m : Memory} {address : Nat} {bytes : List Byte} (h : m.Holds address bytes)
    (ne : bytes ≠ []) : m.slice address bytes.length = .ok bytes := by
  refine Except.bind_eq_ok.mpr ⟨(), check_eq_ok.mpr (h.end_le ne), congrArg Except.ok ?_⟩
  refine List.ext_getElem (by simp) fun k _ inside => ?_
  simpa using (holds_iff.mp h k _ (List.getElem?_eq_getElem inside)).2

/-! ## Writing -/

theorem get_put_of_ne {m : Memory} {address other : Nat} (value : Byte) (ne : other ≠ address) :
    (m.put address value).get other = m.get other := by
  simp only [put, get, Array.getD_eq_getD_getElem?, Array.getElem?_setIfInBounds, if_neg ne.symm]

/-- A word that was written is read back. -/
theorem wordAt_putWord {m : Memory} {address : Nat} {w : Word} (inside : address + 2 ≤ m.size) :
    (m.putWord address w).wordAt address = .ok w := by
  rw [wordAt_eq_ok, holds_cons, holds_cons, size_putWord, putWord,
    get_put _ _ _ _ (by rw [size_put]; omega), get_put _ _ _ _ (by omega),
    get_put _ _ _ _ (by rw [size_put]; omega)]
  simp only [Nat.ne_add_one, if_false, if_true, holds_nil, and_true, true_and]
  omega

structure SameBut (m m' : Memory) (address length : Nat) : Prop where
  size_eq : m'.size = m.size
  get_eq : ∀ a, a < address ∨ address + length ≤ a → m'.get a = m.get a

theorem sameBut_put (m : Memory) (address : Nat) (value : Byte) :
    m.SameBut (m.put address value) address 1 :=
  ⟨size_put .., fun _ apart => get_put_of_ne value (by omega)⟩

theorem sameBut_putWord (m : Memory) (address : Nat) (value : Word) :
    m.SameBut (m.putWord address value) address 2 := by
  refine ⟨size_putWord .., fun a apart => ?_⟩
  rw [putWord, get_put_of_ne _ (by omega), get_put_of_ne _ (by omega)]

/-- A byte elsewhere stays as it is. -/
theorem SameBut.byteAt {m m' : Memory} {address length other : Nat}
    (h : m.SameBut m' address length)
    (apart : other < address ∨ address + length ≤ other) : m'.byteAt other = m.byteAt other := by
  rw [Memory.byteAt, Memory.byteAt, check, check, h.size_eq, h.get_eq other apart]

/-- A word elsewhere stays as it is. -/
theorem SameBut.wordAt {m m' : Memory} {address length other : Nat}
    (h : m.SameBut m' address length)
    (apart : other + 2 ≤ address ∨ address + length ≤ other) :
    m'.wordAt other = m.wordAt other := by
  rw [Memory.wordAt, Memory.wordAt, check, check, h.size_eq, h.get_eq other (by omega),
    h.get_eq (other + 1) (by omega)]

/-! ## Writing bytes one after another -/

def putAll (m : Memory) (address : Nat) : List Byte → Memory
  | [] => m
  | b :: rest => (m.put address b).putAll (address + 1) rest

variable {m : Memory} {address : Nat} {bytes : List Byte}

@[simp] theorem size_putAll (m : Memory) (address : Nat) (bytes : List Byte) :
    (m.putAll address bytes).size = m.size := by
  induction bytes generalizing m address with
  | nil => rfl
  | cons b rest ih => rw [putAll, ih, size_put]

theorem putAll_append (m : Memory) (address : Nat) (front back : List Byte) :
    m.putAll address (front ++ back) =
      (m.putAll address front).putAll (address + front.length) back := by
  induction front generalizing m address with
  | nil => rfl
  | cons b front ih =>
    rw [List.cons_append, putAll, putAll, ih, List.length_cons, Nat.add_assoc, Nat.add_comm 1]

theorem get_putAll_of_apart {other : Nat}
    (apart : other < address ∨ address + bytes.length ≤ other) :
    (m.putAll address bytes).get other = m.get other := by
  induction bytes generalizing m address with
  | nil => rfl
  | cons b rest ih =>
    rw [List.length_cons] at apart
    rw [putAll, ih (by omega), get_put_of_ne _ (by omega)]

/-- Bytes that were written are held. -/
theorem holds_putAll (inside : address + bytes.length ≤ m.size) :
    (m.putAll address bytes).Holds address bytes := by
  induction bytes generalizing m address with
  | nil => trivial
  | cons b rest ih =>
    rw [List.length_cons] at inside
    refine ⟨by rw [size_putAll]; omega, ?_, ih (by rw [size_put]; omega)⟩
    rw [putAll, get_putAll_of_apart (by omega), get_put _ _ _ _ (by omega), if_pos rfl]

/-- Bytes that are held elsewhere are held still. -/
theorem Holds.putAll {other : Nat} {held : List Byte} (h : m.Holds other held)
    (apart : other + held.length ≤ address ∨ address + bytes.length ≤ other) :
    (m.putAll address bytes).Holds other held := by
  refine holds_iff.mpr fun k b found => ?_
  obtain ⟨inside, own⟩ := holds_iff.mp h k b found
  obtain ⟨short, -⟩ := List.getElem?_eq_some_iff.mp found
  exact ⟨by rwa [size_putAll], by rw [get_putAll_of_apart (by omega), own]⟩

end Memory
end ZMachine
