import Microx.Executor.Invariant

/-!
# Microx.Executor.Guard

Memory is only written where it was read with a hint to write.

`WriteMemory` writes the cells that `ReadMemory` filled: between the two, an
instruction may change what a cell holds, but not where it is.  So a permission
that a successful read with a write hint grants for an address and a size, and
that the callbacks in between keep, holds when that address and size are
written.
-/

namespace Microx

open Hoare

variable {σ α : Type}

/-! ## carrying out moves no cell -/

/-- Since `w₀`, no callback was made and no cell moved. -/
def Unmoved (w₀ w : World σ) : Prop :=
  w.env = w₀.env ∧ w.trace = w₀.trace ∧ w.globals.places = w₀.globals.places

section

variable (ex : Executor σ) (w₀ : World σ)

/-- Running an instruction moves no cell. -/
theorem unseen_places : Executor.Unseen Globals.places where
  setReg := Globals.places_setReg
  setAlias _ _ := rfl
  setMemOp _ _ := Globals.places_setCell rfl
  storeNative s g := Globals.places_setData 0 s.cell g

theorem runNative_unmoved (inst : Inst) :
    Triple (Unmoved w₀) (ex.runNative inst) (fun _ => Unmoved w₀) fun _ => Unmoved w₀ := by
  refine runNative_unseen ex unseen_places (Unmoved w₀) (fun w w' henv htrace hplaces hw => ?_) inst
  exact ⟨henv.trans hw.1, htrace.trans hw.2.1, hplaces.trans hw.2.2⟩

theorem carryOut_unmoved (inst : Inst) (nextPC : Word) :
    Triple (Unmoved w₀) (ex.carryOut inst nextPC) (fun _ => Unmoved w₀) fun _ => Unmoved w₀ := by
  refine triple_getGlobals fun w hw => ?_
  cases he : ex.emulate inst nextPC w.globals with
  | emulated pc g =>
      refine Triple.bind (Q := fun _ => Unmoved w₀) (Triple.modify ?_) fun _ => ?_
      · rintro v rfl
        exact ⟨hw.1, hw.2.1, (ex.places_of_emulated he).trans hw.2.2⟩
      · exact Triple.pure fun _ h => h
  | unsupported status => exact Triple.throw fun v hv => hv ▸ hw
  | notEmulated pc =>
      refine Triple.bind ((runNative_unmoved ex w₀ inst).pre fun v hv => hv ▸ hw) fun _ => ?_
      exact Triple.pure fun _ h => h

end

/-! ## guarded writes -/

/-- What XED promises about the operands of an instruction: an address that is only generated
is not written, and a memory operand is at most 64 bytes long. -/
structure Inst.PlainMemory (inst : Inst) : Prop where
  agen : ∀ op ∈ inst.operands, op.name = .agen → op.written = false
  length : ∀ i, (inst.memOperand i).length ≤ 64

/-- `kWriteOnly` or `kReadWrite`. -/
def MemRequestHint.isWrite : MemRequestHint → Bool
  | .writeOnly | .readWrite => true
  | _ => false

/-- An observation `I` that a write keeps when its permission `Ok` was granted by a read. -/
structure Guarded (ex : Executor σ) (I : Observation σ) (Ok : Word → Nat → Observation σ) :
    Prop where
  reads : ReadInvariant ex I
  ok_computeAddress : ∀ {a n s t} seg base index scale disp size hint, Ok a n s t → I s t →
    Ok a n (ex.computeAddress seg base index scale disp size hint s).2
      (t ++ [.computeAddress seg base index scale disp size hint])
  ok_readMem : ∀ {a n s t} addr size hint data, Ok a n s t → I s t →
    Ok a n (ex.readMem addr size hint data s).2.2
      (t ++ [.readMem addr size hint (ex.readMem addr size hint data s).1])
  grant : ∀ {s t} addr len hint data, I s t → len ≤ 64 → hint.isWrite = true →
    (ex.readMem addr (8 * len) hint data s).1 = true →
      Ok addr (8 * len) (ex.readMem addr (8 * len) hint data s).2.2
        (t ++ [.readMem addr (8 * len) hint true])
  writeMem : ∀ {s t} addr size data, I s t → Ok addr size s t →
    I (ex.writeMem addr size data s).2
      (t ++ [.writeMem addr size (Bits.low size data) (ex.writeMem addr size data s).1])
  ok_writeMem : ∀ {a n s t} addr size data, Ok a n s t → I s t → Ok addr size s t →
    Ok a n (ex.writeMem addr size data s).2
      (t ++ [.writeMem addr size (Bits.low size data) (ex.writeMem addr size data s).1])
  writeReg : ∀ {s t} name size data, I s t →
    I (ex.writeReg name size data s).2
      (t ++ [.writeReg name size (Bits.low size data) (ex.writeReg name size data s).1])
  writeFPU : ∀ {s t} fpu, I s t →
    I (ex.writeFPU fpu s).2 (t ++ [.writeFPU fpu (ex.writeFPU fpu s).1])

/-- The permission to write a cell that is to be written back. -/
def Place.Granted (Ok : Word → Nat → Observation σ) (p : Place) (w : World σ) : Prop :=
  p.present = true → p.writeBack = true → Sat (Ok p.address p.size) w

/-- The observation, and the permissions for the cells that satisfy `p`. -/
def CellsGranted (I : Observation σ) (Ok : Word → Nat → Observation σ) (p : Fin 2 → Prop)
    (w : World σ) : Prop :=
  Sat I w ∧ ∀ i, p i → (w.globals.places i).Granted Ok w

namespace Executor

variable (ex : Executor σ)

theorem memory_adjustDisplacement (inst : Inst) (i : Fin 2) (g : Globals) :
    (ex.adjustDisplacement inst i g).2.memory = g.memory := by
  have hbit : (ex.getBitOpByteOffset inst g).2.memory = g.memory := by
    unfold getBitOpByteOffset
    split <;> simp
  unfold adjustDisplacement
  split <;> first | rfl | exact hbit | (split <;> rfl)

/-- Describing a cell leaves the other one alone. -/
theorem places_describeCell (inst : Inst) (op : Operand) {i j : Fin 2} (hij : j ≠ i) (g : Globals) :
    (ex.describeCell inst op i g).places j = g.places j := by
  simp [describeCell, Globals.places, Globals.setCell, hij, ex.memory_adjustDisplacement]

theorem writeBack_describeCell (inst : Inst) (op : Operand) (i : Fin 2) (g : Globals) :
    ((ex.describeCell inst op i g).memory i).writeBack = op.written := by
  simp [describeCell, Globals.setCell]

theorem isWrite_memHint {op : Operand} (hname : op.name ≠ .agen) (hw : op.written = true) :
    (memHint op).isWrite = true := by
  unfold memHint
  rw [if_neg hname]
  split_ifs <;> rfl

end Executor

namespace Guarded

variable {ex : Executor σ} {I : Observation σ} {Ok : Word → Nat → Observation σ}
  (h : Guarded ex I Ok)

include h

/-! ### reading memory -/

theorem readCell (hint : MemRequestHint) (i : Fin 2) :
    Triple (fun w => CellsGranted I Ok (· ≠ i) w ∧
        ((w.globals.memory i).writeBack = true → hint.isWrite = true) ∧
        ∃ len ≤ 64, (w.globals.memory i).size = 8 * len)
      (ex.readCell hint i) (fun _ => CellsGranted I Ok fun _ => True) fun _ => Sat I := by
  refine triple_getGlobals fun w hw => ?_
  obtain ⟨⟨hI, hcells⟩, hhint, len, hlen, hsize⟩ := hw
  refine Triple.bind (Q := fun r w => CellsGranted I Ok (· ≠ i) w ∧
    (r.1 = true → (w.globals.places i).Granted Ok w)) ?_ fun r => ?_
  · rintro v rfl
    refine ⟨⟨h.reads.readMem _ _ _ _ hI, fun j hj hp hb => ?_⟩, fun hr hp hb => ?_⟩
    · exact h.ok_readMem _ _ _ _ (hcells j hj hp hb) hI
    · have hgrant := h.grant (v.globals.memory i).address len hint (v.globals.memory i).data hI
        hlen (hhint hb)
      rw [← hsize] at hgrant
      have hok := hgrant hr
      rw [← hr] at hok
      exact hok
  · refine Triple.bind (Q := fun _ w => CellsGranted I Ok (· ≠ i) w ∧
      (r.1 = true → (w.globals.places i).Granted Ok w)) (Triple.modify ?_) fun _ => ?_
    · intro w hw
      simp only [CellsGranted, World.withGlobals, Globals.places_setData]
      exact hw
    · obtain ⟨ok, data⟩ := r
      cases ok with
      | false => exact Triple.throw fun w hw => hw.1.1
      | true =>
          refine Triple.pure fun w hw => ⟨hw.1.1, fun j _ => ?_⟩
          by_cases hj : j = i
          · subst hj
            exact hw.2 rfl
          · exact hw.1.2 j hj

theorem readMemoryOperand {inst : Inst} (hinst : inst.PlainMemory) {op : Operand}
    (hop : op ∈ inst.operands) (i : Fin 2) :
    Triple (CellsGranted I Ok fun _ => True) (ex.readMemoryOperand inst op i)
      (fun _ => CellsGranted I Ok fun _ => True) fun _ => Sat I := by
  -- The other cell stays granted throughout; this one is to be written back if `op` is written.
  refine Triple.bind (Q := fun _ w => CellsGranted I Ok (· ≠ i) w ∧
    (w.globals.memory i).writeBack = op.written) (Triple.modify ?_) fun _ => ?_
  · intro w hw
    refine ⟨⟨hw.1, fun j hj => ?_⟩, ex.writeBack_describeCell inst op i w.globals⟩
    have hplace := ex.places_describeCell inst op hj w.globals
    simp only [World.withGlobals, hplace]
    exact hw.2 j trivial
  · refine triple_getGlobals fun w hw => ?_
    refine Triple.bind (Q := fun _ w => CellsGranted I Ok (· ≠ i) w ∧
      (w.globals.memory i).writeBack = op.written) ?_ fun address => ?_
    · rintro v rfl
      refine ⟨⟨h.reads.computeAddress _ _ _ _ _ _ _ hw.1.1, fun j hj hp hb => ?_⟩, hw.2⟩
      exact h.ok_computeAddress _ _ _ _ _ _ _ (hw.1.2 j hj hp hb) hw.1.1
    · refine Triple.bind (Q := fun _ w => CellsGranted I Ok (· ≠ i) w ∧
        (w.globals.memory i).writeBack = op.written ∧
        (w.globals.memory i).size = 8 * (inst.memOperand i).length) (Triple.modify ?_) fun _ => ?_
      · intro w hw
        refine ⟨⟨hw.1.1, fun j hj => ?_⟩, ?_, ?_⟩
        · have hplace : (Executor.placeCell (inst.memOperand i) i address w.globals).places j =
              w.globals.places j := by
            simp [Executor.placeCell, Globals.places, Globals.setCell, hj]
          simp only [World.withGlobals, hplace]
          exact hw.1.2 j hj
        · simpa [World.withGlobals, Executor.placeCell, Globals.setCell] using hw.2
        · simp [World.withGlobals, Executor.placeCell, Globals.setCell]
      · split
        case isTrue hname =>
          refine Triple.pure fun w hw => ⟨hw.1.1, fun j _ => ?_⟩
          by_cases hj : j = i
          · subst hj
            intro _ hb
            have hb' : (w.globals.memory j).writeBack = true := hb
            rw [hw.2.1, hinst.agen op hop hname] at hb'
            contradiction
          · exact hw.1.2 j hj
        case isFalse hname =>
          refine (h.readCell _ i).pre fun w hw => ⟨hw.1, fun hb => ?_, _, hinst.length i, hw.2.2⟩
          exact Executor.isWrite_memHint hname (by rw [← hw.2.1, hb])

theorem readMemory {inst : Inst} (hinst : inst.PlainMemory) :
    Triple (Sat I) (ex.readMemory inst) (fun _ => CellsGranted I Ok fun _ => True)
      fun _ => Sat I := by
  refine Triple.bind (Q := fun _ => CellsGranted I Ok fun _ => True) (Triple.modify ?_) fun _ => ?_
  · intro w hw
    exact ⟨hw, fun i _ hp => absurd hp (by
      simp [Globals.places, Cell.place, World.withGlobals, Executor.absentCells])⟩
  · refine Triple.forM fun op hop => ?_
    unfold Executor.readMemoryAt
    split
    · exact h.readMemoryOperand hinst hop 0
    · exact h.readMemoryOperand hinst hop 0
    · exact h.readMemoryOperand hinst hop 1
    · exact Triple.pure fun _ hw => hw

/-! ### writing -/

theorem writeCell (i : Fin 2) :
    Triple (CellsGranted I Ok fun _ => True) (ex.writeCell i)
      (fun _ => CellsGranted I Ok fun _ => True) fun _ => Sat I := by
  refine triple_getGlobals fun w hw => ?_
  dsimp only
  split
  case isTrue => exact Triple.pure fun v hv => hv ▸ hw
  case isFalse hcell =>
    simp only [Bool.or_eq_true, Bool.not_eq_true', not_or, Bool.not_eq_false] at hcell
    have hok : Sat (Ok (w.globals.memory i).address (w.globals.memory i).size) w :=
      hw.2 i trivial hcell.1 hcell.2
    refine Triple.bind (Q := fun _ => CellsGranted I Ok fun _ => True) ?_ fun ok => ?_
    · rintro v rfl
      refine ⟨h.writeMem _ _ _ hw.1 hok, fun j _ hp hb => ?_⟩
      exact h.ok_writeMem _ _ _ (hw.2 j trivial hp hb) hw.1 hok
    · cases ok with
      | true => exact Triple.pure fun _ hv => hv
      | false => exact Triple.throw fun _ hv => hv.1

theorem writeMemory :
    Triple (CellsGranted I Ok fun _ => True) ex.writeMemory (fun _ => Sat I) fun _ => Sat I :=
  Triple.bind (h.writeCell 0) fun _ => (h.writeCell 1).post fun _ _ hw => hw.1

theorem commits : CommitInvariant ex I := ⟨h.writeReg, h.writeFPU⟩

/-! ### whole instructions -/

omit h in
theorem carryOut (inst : Inst) (nextPC : Word) :
    Triple (CellsGranted I Ok fun _ => True) (ex.carryOut inst nextPC)
      (fun _ => CellsGranted I Ok fun _ => True) fun _ => Sat I := by
  intro w hw
  refine (carryOut_unmoved ex w inst nextPC).conseq (fun _ hv => hv) ?_ ?_ w ⟨rfl, rfl, rfl⟩
  · intro _ v hv
    simp only [CellsGranted, Place.Granted, Sat, hv.1, hv.2.1, hv.2.2]
    exact hw
  · intro _ v hv
    simp only [Sat, hv.1, hv.2.1]
    exact hw.1

theorem perform {inst : Inst} (hinst : inst.PlainMemory) : Keeps I (ex.perform inst) := by
  refine triple_readGlobals fun g => ?_
  split
  · exact pure_keeps _
  · refine Triple.bind (Q := fun _ => CellsGranted I Ok fun _ => True) ?_ fun _ => ?_
    · unfold Executor.readOperands
      refine Triple.bind h.reads.readFPUState fun _ => ?_
      exact Triple.bind (onGlobals_keeps _) fun _ => h.readMemory hinst
    · refine Triple.bind (carryOut inst _) fun nextPC => Triple.bind ?_ fun _ => pure_keeps _
      unfold Executor.writeOperands
      refine Triple.bind h.writeMemory fun _ => ?_
      exact Triple.bind h.commits.writeFPUState fun _ => onGlobals_keeps _

variable (hdecode : ∀ bytes inst, ex.xed.decode ex.addrSize bytes = some inst → inst.PlainMemory)

include hdecode

/-- One instruction keeps a guarded observation. -/
theorem executeInstruction : Keeps I ex.executeInstruction := by
  unfold Executor.executeInstruction
  refine Triple.bind h.reads.fetch_decoded fun inst => ?_
  rintro w ⟨hw, bytes, hbytes⟩
  refine Triple.bind (h.reads.readState inst) (fun _ => ?_) w hw
  exact Triple.bind (h.perform (hdecode bytes inst hbytes)) fun nextPC =>
    h.commits.commit nextPC

/-- So does a whole call, however it ends. -/
theorem execute (n : Nat) : Keeps I (ex.execute n) := by
  have hloop (k : Nat) : Keeps I (ex.executeLoop k) := by
    induction k with
    | zero => exact pure_keeps _
    | succ k ih => exact Keeps.bind (h.executeInstruction hdecode) fun _ => ih
  unfold Executor.execute
  split
  · exact pure_keeps _
  · exact (check_keeps _ _).bind fun _ => hloop n

end Guarded

end Microx
