import ZMachine.Proofs.Engine.Step

/-!
# What a step writes

A step looks up operands, which writes nothing, does what its instruction does, and may leave a
routine. So what it writes is known from its opcode and the values of the operands. The rest of
memory is the same after it, also if it fails, and so is the table of objects unless the instruction
is one that changes attributes or links.

## Main definitions

* `Machine.StepWrites` — what a step can write.

## Main statements

* `Machine.Cycle.storesOnly` — the step of an instruction that leaves attributes and links alone.
* `Machine.Cycle.memory_eq` — the step of an instruction that writes nothing.
* `Machine.Cycle.keepsEntries` — the step of an instruction that changes attributes or links.
-/

namespace ZMachine.Machine

/-- What a step of `m` with this outcome can write: what its instruction writes, and the result of
the routine that it leaves. -/
inductive StepWrites (m : Machine) (out : Except Error Outcome) : Write → Prop
  | instruction {i : Instruction} {values : List Word} {ready : Machine} {w : Write}
      (decoded : Instruction.decode m.memory m.pc = .ok i)
      (looked : (resolveAll i.operands).run { m with pc := i.next } = .ok values ready)
      (writes : i.Writes values w) : StepWrites m out w
  | result {value : Word} {w : Write} (returned : out = .ok (.returned value))
      (wanted : m.ResultOf w) : StepWrites m out w

variable {m m' : Machine} {out : Except Error Outcome}

/-- Looking up operands writes nothing. -/
theorem storesOnly_of_sameButValues {W : Write → Prop} {next : Nat}
    (same : SameButValues { m with pc := next } m') : StoresOnly W m m' := by
  have moved : StoresOnly W m { m with pc := next } := .of_memory_eq rfl rfl rfl
  exact moved.trans (.of_sameButValues same)

/-- The step of an instruction that does not change attributes or links, also a step that fails: the
table of objects is as it was, and so is memory but for the bytes of what the step can write. -/
theorem Cycle.storesOnly (h : Cycle m out m')
    (links : ∀ w, m.StepWrites out w → w.relinks = false) : StoresOnly (m.StepWrites out) m m' := by
  cases h with
  | refused => exact .refl _
  | @unresolved i _ _ _ run =>
    exact storesOnly_of_sameButValues ((leads_resolveAll i.operands).of_error run)
  | @called i _ _ _ _ _ run calls =>
    obtain ⟨_, _, _, -, -, -, rfl⟩ := calls
    exact (storesOnly_of_sameButValues ((leads_resolveAll i.operands).of_ok run)).trans
      (.of_memory_eq rfl rfl rfl)
  | @ended i values ready mid _ _ decoded run effects ends =>
    have resolved := (leads_resolveAll i.operands).of_ok run
    have written : StoresOnly (m.StepWrites out) ready mid :=
      (effects.storesOnly fun w may => links w (.instruction decoded run may)).mono
        fun w => .instruction decoded run
    have left : StoresOnly (m.StepWrites out) mid m' := by
      refine ends.storesOnly.mono fun w ⟨⟨value, returned⟩, wanted⟩ => .result returned ?_
      obtain ⟨-, f, sameCall, stack⟩ := effects.stack
      obtain ⟨g, sameCall', rfl⟩ := resolved
      exact (wanted.of_setCurrent sameCall stack).of_setCurrent sameCall' rfl
    exact (storesOnly_of_sameButValues resolved).trans (written.trans left)

/-- An instruction that writes nothing and does not return leaves all bytes and objects as they
are. -/
theorem Cycle.memory_eq (h : Cycle m out m') {i : Instruction} {opcode : Opcode}
    (decoded : Instruction.decode m.memory m.pc = .ok i) (known : i.opcode? = some opcode)
    (leaves : opcode.leavesMemory = true) (stays : ∀ value, out ≠ .ok (.returned value)) :
    m'.objects = m.objects ∧ ∀ a, m'.memory.get a = m.memory.get a := by
  have none (w : Write) : ¬ m.StepWrites out w := by
    rintro (⟨decoded', -, opcode', known', writes⟩ | ⟨returned, -⟩)
    · obtain rfl := Except.ok.inj (decoded.symm.trans decoded')
      obtain rfl := Option.some.inj (known.symm.trans known')
      exact nomatch leaves.symm.trans writes.leavesMemory_eq
    · exact stays _ returned
  have stores := h.storesOnly fun w written => absurd written (none w)
  refine ⟨stores.objects_eq, fun a => ?_⟩
  by_contra ne
  obtain ⟨w, written, -⟩ := stores.changed a ne
  exact none w written

/-- The step of an instruction that changes attributes or links and does not return writes nothing
else, and keeps entries up to date, also when it fails. -/
theorem Cycle.keepsEntries (h : Cycle m out m') {i : Instruction} {opcode : Opcode}
    (decoded : Instruction.decode m.memory m.pc = .ok i) (known : i.opcode? = some opcode)
    (relinks : opcode.relinks = true) (stays : ∀ value, out ≠ .ok (.returned value)) :
    m.KeepsEntries m' := by
  cases h with
  | refused => exact id
  | @unresolved i _ _ _ run =>
    obtain ⟨f, -, rfl⟩ := (leads_resolveAll i.operands).of_error run
    exact id
  | called decoded' isCall =>
    obtain rfl := Except.ok.inj (decoded.symm.trans decoded')
    obtain rfl := Option.some.inj (known.symm.trans isCall)
    cases relinks
  | @ended i' values ready mid _ _ decoded' run effects ends =>
    obtain rfl := Except.ok.inj (decoded.symm.trans decoded')
    obtain ⟨f, -, rfl⟩ := (leads_resolveAll i.operands).of_ok run
    intro coherent
    have changed : mid.objectStore.Coherent := by
      refine effects.keepsEntries (fun w ⟨opcode', known', writes⟩ => ?_) coherent
      obtain rfl := Option.some.inj (known.symm.trans known')
      rw [writes.relinks_eq, relinks]
    exact ends.storesOnly.coherent changed
      fun a w _ ⟨⟨value, returned⟩, _⟩ _ => absurd returned (stays value)

end ZMachine.Machine
