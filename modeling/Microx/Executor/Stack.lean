import Microx.Executor.Stepping

/-!
# Microx.Executor.Stack

The instructions that push and pop.

The displacement of the cell they access comes from the operand width, the step
of the stack pointer from the operand width or from the address size, form by
form.  `stack_agrees_iff` says when the two agree.
-/

namespace Microx

/-! ## forms -/

/-- What an instruction does with its stack cell. -/
inductive StackUse where
  | push | pop
  deriving DecidableEq, Repr

/-- What a form does with the stack, and the place of the stack among its memory operands. -/
def IForm.stackUse : IForm → Option (StackUse × Fin 2)
  | .callNearRELBRz | .callNearRELBRd | .callNearGPRv | .pushGPRvFFr6 | .pushGPRv50 | .pushIMMz
  | .pushIMMb | .pushSeg _ | .pushf | .pushfd | .pushfq => some (.push, 0)
  | .callNearMEMv | .pushMEMv => some (.push, 1)
  | .popSeg .cs => none
  | .retNear | .retNearIMMw | .popGPRv8F | .popGPRv58 | .popSeg _ | .popf | .popfd | .popfq =>
      some (.pop, 0)
  | .popMEMv => some (.pop, 1)
  | _ => none

/-- The forms that move the stack pointer by `addr_size_bytes`, whatever they push or pop. -/
def IForm.movesByAddress : IForm → Bool
  | .callNearRELBRz | .callNearRELBRd | .callNearGPRv | .callNearMEMv | .retNear | .retNearIMMw
  | .pushSeg _ | .popSeg _ | .pushf | .pushfd | .pushfq | .popf | .popfd | .popfq => true
  | _ => false

/-- The 16 bits that `RET_NEAR_IMMw` releases in addition. -/
def Inst.released (inst : Inst) : Word :=
  match inst.iform with
  | .retNearIMMw => ((Executor.getSignedImmediate inst).setWidth 16).setWidth 64
  | _ => 0

namespace Executor

variable {σ : Type} (ex : Executor σ)

/-- How far the stack pointer moves, but for what a `RET` releases. -/
def stackStep (inst : Inst) : Word :=
  if inst.iform.movesByAddress then ex.addrSizeBytes else opSizeBytes inst

/-- What an instruction pushes. -/
def pushValue (inst : Inst) (nextPC : Word) (g : Globals) : Word :=
  match inst.iform with
  | .callNearRELBRz | .callNearRELBRd | .callNearGPRv | .callNearMEMv => ex.truncatePC nextPC
  | .pushMEMv => g.mem 0
  | .pushIMMz | .pushIMMb => ((getSignedImmediate inst).setWidth 32).setWidth 64
  | .pushf | .pushfd | .pushfq => g.aflag
  | _ => ex.readGPR (inst.reg .reg0) g

/-- Where an instruction puts what it pops. -/
def popInto (inst : Inst) (g : Globals) : Globals :=
  match inst.iform with
  | .retNear | .retNearIMMw => g
  | .popMEMv => g.setMem 0 (g.mem 1)
  | .popf | .popfd | .popfq => g.setAflag (g.mem 0)
  | _ => ex.writeGPR (inst.reg .reg0) (g.mem 0) g

/-- Where an instruction that uses the stack goes. -/
def stackPC (inst : Inst) (nextPC : Word) (g : Globals) : Word :=
  match inst.iform with
  | .callNearRELBRz | .callNearRELBRd => ex.branchTarget inst nextPC
  | .callNearGPRv => ex.readGPR (inst.reg .reg0) g
  | .callNearMEMv | .retNear | .retNearIMMw => g.mem 0
  | _ => ex.truncatePC nextPC

/-- All pushes. -/
theorem emulate_push {inst : Inst} {i : Fin 2} (h : inst.iform.stackUse = some (.push, i))
    (nextPC : Word) (g : Globals) :
    ex.emulate inst nextPC g = .emulated (ex.stackPC inst nextPC g)
      (ex.addToStack (-ex.stackStep inst) (g.setMem i (ex.pushValue inst nextPC g))) := by
  unfold emulate stackPC stackStep pushValue
  unfold IForm.stackUse at h
  split at h <;> cases h
  all_goals next hf => rw [hf]; rfl

/-- All pops. -/
theorem emulate_pop {inst : Inst} {i : Fin 2} (h : inst.iform.stackUse = some (.pop, i))
    (nextPC : Word) (g : Globals) :
    ex.emulate inst nextPC g = .emulated (ex.stackPC inst nextPC g)
      (ex.addToStack (ex.stackStep inst + inst.released) (ex.popInto inst g)) := by
  unfold emulate stackPC stackStep popInto Inst.released
  cases hf : inst.iform with
  | popSeg s => rw [hf] at h; cases s <;> cases h <;> simp [IForm.movesByAddress]
  | retNear => rw [hf] at h; cases h; simp [IForm.movesByAddress]
  | retNearIMMw => rw [hf] at h; cases h; rfl
  | _ => rw [hf] at h; cases h <;> simp [IForm.movesByAddress]

/-- The adjustment of the displacement of the stack cell. -/
theorem adjustment_stack {inst : Inst} {use : StackUse} {i : Fin 2}
    (h : inst.iform.stackUse = some (use, i)) :
    ex.adjustment inst i = if use = .push then -opSizeBytes inst else 0 := by
  unfold adjustment adjustDisplacement
  unfold IForm.stackUse at h
  split at h <;> cases h
  all_goals next hf => rw [hf]; rfl

@[simp] theorem gpr_addToStack (delta : Word) (g : Globals) (r : Gpr) :
    ex.gpr (ex.addToStack delta g) r =
      if r = .rsp then ex.gpr g .rsp + delta.setWidth _ else ex.gpr g r := by
  have hread : ex.readGPR ex.stackReg g = (ex.gpr g .rsp).setWidth 64 := ex.readGPR_wide .rsp g
  rw [addToStack, hread, show ex.stackReg = ex.wide .rsp from rfl, gpr_writeGPR_wide,
    AddressSize.setWidth_add, AddressSize.setWidth_setWidth]

@[simp] theorem aflag_addToStack (delta : Word) (g : Globals) :
    (ex.addToStack delta g).aflag = g.aflag := ex.aflag_writeGPR (ex.wide_family .rsp) _ _

@[simp] theorem memory_addToStack (delta : Word) (g : Globals) :
    (ex.addToStack delta g).memory = g.memory := ex.memory_writeGPR _ _ _

/-- What is popped goes elsewhere than to the stack pointer. -/
theorem gpr_popInto {inst : Inst} {r : Gpr} (h : (inst.reg .reg0).largestEnclosing ≠ .gpr64 r)
    (g : Globals) : ex.gpr (ex.popInto inst g) r = ex.gpr g r := by
  unfold popInto
  split
  case h_7 => exact ex.gpr_congr (ex.regs_writeGPR_of_ne (Ne.symm h) _ _)
  all_goals simp

theorem truncateAddress_bits (a : AddressSize) (x : Word) :
    truncateAddress a.bits x = (x.setWidth a.bits).setWidth 64 := by
  cases a
  · rfl
  · simp [truncateAddress, AddressSize.bits]

end Executor

/-- A write of memory. -/
def Event.isStore : Event → Bool
  | .writeMem _ _ _ _ => true
  | _ => false

namespace FlatMachine

variable {c : FlatMachine} {inst : Inst} {use : StackUse} {i : Fin 2} {e : Flat c.width}
  {w w' : World (Flat c.width)} {g g' : Globals}

/-- The stack among the operands of an instruction, as XED lists it: it is the last memory operand,
at the stack pointer without a displacement, and the stack pointer is an operand. -/
structure StackOperand (c : FlatMachine) (inst : Inst) (use : StackUse) (i : Fin 2) : Prop where
  plain : c.Plain inst
  form : inst.iform.stackUse = some (use, i)
  width : inst.operandWidth = 16 ∨ inst.operandWidth = 32 ∨ inst.operandWidth = 64
  pointer : ∃ op ∈ inst.operands, ∃ x, op.name = .reg x ∧ (inst.reg x).isStackOp = true
  cell : ∃ op, inst.memoryOperands[i.val]? = some op ∧ op.name ≠ .agen ∧
    op.written = decide (use = .push)
  last : inst.memoryOperands.length = i + 1
  base : (inst.memOperand i).baseReg = c.executor.wide .rsp
  index : (inst.memOperand i).indexReg = .invalid
  displacement : (inst.memOperand i).displacement = 0
  addressWidth : (inst.memOperand i).addressWidth = c.width
  length : (inst.memOperand i).length = inst.operandWidth / 8

/-- An instruction that uses the stack, as XED lists it, and for nothing else. -/
structure UsesStack (c : FlatMachine) (inst : Inst) (use : StackUse) (i : Fin 2) : Prop
    extends c.StackOperand inst use i where
  /-- Another memory operand of a push is what is pushed, or where a `CALL` goes. -/
  source : use = .push → i = 1 → ∀ op, inst.memoryOperands[0]? = some op → op.written = false
  /-- Nothing is popped into the stack pointer. -/
  target : use = .pop → (inst.reg .reg0).largestEnclosing ≠ .gpr64 .rsp

/-- A push with no other memory operand. -/
theorem StackOperand.usesStack (h : c.StackOperand inst .push 0) : c.UsesStack inst .push 0 :=
  ⟨h, fun _ hi => absurd hi (by decide), nofun⟩

/-- The size of the stack cell, in bytes. -/
def cellBytes (inst : Inst) : Nat := inst.operandWidth / 8

/-- The stack pointer. -/
def sp (e : Flat c.width) : BitVec c.width := c.gpr e .rsp

/-- The address of the stack cell. -/
def cellAddress (inst : Inst) (use : StackUse) (e : Flat c.width) : BitVec c.width :=
  match use with
  | .push => sp e - BitVec.ofNat _ (cellBytes inst)
  | .pop => sp e

theorem StackOperand.operand (h : c.StackOperand inst use i) :
    ∃ op ∈ inst.operands, ∃ x, op.name = .reg x ∧ (inst.reg x).meant.family = some .rsp ∧
      (inst.reg x).isStackOp = true := by
  obtain ⟨op, hop, x, hname, hstack⟩ := h.pointer
  refine ⟨op, hop, x, hname, ?_, hstack⟩
  rw [Reg.meant, if_pos hstack]
  rfl

theorem StackOperand.cellBytes_le (h : c.StackOperand inst use i) : 8 * cellBytes inst ≤ 64 := by
  rcases h.width with hw | hw | hw <;> rw [cellBytes, hw] <;> decide

theorem StackOperand.cellBytes_le_pow (h : c.StackOperand inst use i) :
    cellBytes inst ≤ 2 ^ c.width := by
  have h64 := h.cellBytes_le
  have h32 : 2 ^ 32 ≤ 2 ^ c.width := Nat.pow_le_pow_right (by decide) c.addrSize.le_bits
  omega

/-- The stack pointer that was read. -/
theorem StackOperand.gpr_rsp (h : c.StackOperand inst use i) (hg : c.Ready e inst g) :
    c.executor.gpr g .rsp = sp e := by
  obtain ⟨op, hop, x, hname, hmeant, -⟩ := h.operand
  exact hg.gpr_operand hop hname hmeant

/-- The stack pointer that is written back. -/
theorem StackOperand.sp_written (h : c.StackOperand inst use i) (hg : c.Ready e inst g)
    {nextPC pc : Word} (he : c.executor.emulate inst nextPC g = .emulated pc g') :
    sp (c.written g' pc e) = c.executor.gpr g' .rsp := by
  obtain ⟨op, hop, x, hname, hmeant, hstack⟩ := h.operand
  exact hg.gpr_written_operand he hop hname hmeant (.inr hstack)

/-- The address of a memory operand at a register. -/
theorem effectiveAddress_wide {r : Gpr} (hbase : (inst.memOperand i).baseReg = c.executor.wide r)
    (hindex : (inst.memOperand i).indexReg = .invalid)
    (hdisp : (inst.memOperand i).displacement = 0)
    (hwidth : (inst.memOperand i).addressWidth = c.width) :
    c.effectiveAddress inst i g =
      (c.executor.gpr g r + (c.executor.adjustment inst i).setWidth _).setWidth 64 := by
  have hne : ¬((inst.memOperand i).baseReg = .eip ∨ (inst.memOperand i).baseReg = .rip) := by
    rw [hbase]
    rcases c.executor.wide_cases r with ⟨-, hr⟩ | ⟨-, hr⟩ <;> rw [hr] <;> simp
  have hzero : c.executor.readGPR .invalid g = 0 := rfl
  rw [effectiveAddress, hwidth, Executor.truncateAddress_bits, Executor.memBase, if_neg hne, hbase,
    hindex, hdisp, hzero, c.executor.readGPR_wide]
  simp only [AddressSize.setWidth_add, AddressSize.setWidth_setWidth]
  congr 1
  simp

/-- What was read of the stack. -/
theorem StackOperand.cellRead (h : c.StackOperand inst use i) (hg : c.Ready e inst g) :
    (g.memory i).present = true ∧ (g.memory i).writeBack = decide (use = .push) ∧
      (g.memory i).address = (cellAddress inst use e).setWidth 64 ∧
      (g.memory i).size = 8 * cellBytes inst ∧
      (g.memory i).data = ByteMemory.load e.mem (cellAddress inst use e) (cellBytes inst) := by
  obtain ⟨op, hop, hname, hwritten⟩ := h.cell
  have hread := hg.cells i
  rw [hop] at hread
  have haddr : c.effectiveAddress inst i g = (cellAddress inst use e).setWidth 64 := by
    have hbytes : (Executor.opSizeBytes inst).setWidth c.width = BitVec.ofNat _ (cellBytes inst) :=
      BitVec.setWidth_ofNat_of_le c.addrSize.bits_le _
    rw [effectiveAddress_wide h.base h.index h.displacement h.addressWidth,
      c.executor.adjustment_stack h.form, h.gpr_rsp hg]
    cases use with
    | push =>
        rw [if_pos rfl, BitVec.setWidth_neg_of_le c.addrSize.bits_le, hbytes,
          ← BitVec.sub_eq_add_neg]
        rfl
    | pop =>
        rw [if_neg (by decide), AddressSize.setWidth_zero]
        exact congrArg _ (BitVec.add_zero _)
  refine ⟨hread.present, hread.writeBack.trans hwritten, hread.address.trans haddr, ?_, ?_⟩
  · rw [hread.size, h.length, cellBytes]
  · rw [hread.data hname, hread.address, haddr, h.length, Flat.load, AddressSize.setWidth_setWidth]
    rfl

/-! ## what is read and written -/

theorem isStore_of_mem_readEvents {x : Event} (h : x ∈ readEvents inst g) : x.isStore = false := by
  simp only [readEvents, List.mem_flatMap] at h
  obtain ⟨j, -, hx⟩ := h
  split at hx
  case h_1 =>
    unfold readEvent at hx
    split at hx
    · contradiction
    · rw [List.mem_singleton.mp hx]
      rfl
  case h_2 => contradiction

theorem isStore_of_mem_writeEvents {x : Event} (h : x ∈ writeEvents g) : x.isStore = true := by
  simp only [writeEvents, List.mem_flatMap] at h
  obtain ⟨j, -, hx⟩ := h
  split at hx
  · rw [List.mem_singleton.mp hx]
    rfl
  · contradiction

theorem eq_zero_or_one : ∀ i : Fin 2, i = 0 ∨ i = 1 := by decide

theorem eq_of_ne : ∀ i j : Fin 2, j ≠ i → (i = 0 ∧ j = 1) ∨ (i = 1 ∧ j = 0) := by decide

/-- Only one cell is written back. -/
theorem written_one (h : ∀ j, ((g.memory j).present && (g.memory j).writeBack) = decide (j = i))
    (pc : Word) (e : Flat c.width) :
    (c.written g pc e).mem = ByteMemory.store e.mem ((g.memory i).address.setWidth _)
        ((g.memory i).size / 8) (g.memory i).data ∧
      writeEvents g = [.writeMem (g.memory i).address (g.memory i).size
        (Bits.low (g.memory i).size (g.memory i).data) true] := by
  have hrange : List.finRange 2 = [0, 1] := rfl
  have h0 := h 0
  have h1 := h 1
  obtain rfl | rfl := eq_zero_or_one i
  · constructor
    · simp [written, storeCell, Flat.store, h0, h1]
    · simp only [writeEvents, hrange, List.flatMap_cons, List.flatMap_nil, h0, h1]
      rfl
  · constructor
    · simp [written, storeCell, Flat.store, h0, h1]
    · simp only [writeEvents, hrange, List.flatMap_cons, List.flatMap_nil, h0, h1]
      rfl

/-- The cell of a push is the one that is written back. -/
theorem UsesStack.written (h : c.UsesStack inst .push i) (hg : c.Ready e inst g) (j : Fin 2) :
    ((g.memory j).present && (g.memory j).writeBack) = decide (j = i) := by
  obtain ⟨hpresent, hback, -⟩ := h.toStackOperand.cellRead hg
  have hcell := hg.cells j
  have hlast := h.last
  by_cases hj : j = i
  · subst hj
    simp [hpresent, hback]
  obtain ⟨rfl, rfl⟩ | ⟨rfl, rfl⟩ := eq_of_ne i j hj
  · have hnone : inst.memoryOperands[(1 : Fin 2).val]? = none :=
      List.getElem?_eq_none (Nat.le_of_eq hlast)
    rw [hnone] at hcell
    simp [hcell]
  · have hlt : 0 < inst.memoryOperands.length := by
      rw [hlast]
      decide
    have hsome : inst.memoryOperands[(0 : Fin 2).val]? = some inst.memoryOperands[0] :=
      List.getElem?_eq_getElem hlt
    rw [hsome] at hcell
    simp [hcell.writeBack, h.source rfl rfl _ hsome]

/-! ## one step -/

/-- How far the stack pointer moves. -/
def stackStep (c : FlatMachine) (inst : Inst) : BitVec c.width :=
  (c.executor.stackStep inst).setWidth _

/-- A push: the stack pointer moves, and the cell holds a value. -/
structure Pushes (c : FlatMachine) (inst : Inst) (value : Word) (w w' : World (Flat c.width)) :
    Prop where
  step : c.Step w w'
  sp : sp w'.env = sp w.env - c.stackStep inst
  mem : w'.env.mem =
    ByteMemory.store w.env.mem (cellAddress inst .push w.env) (cellBytes inst) value
  others : ∀ r, r ≠ .rsp → c.gpr w'.env r = c.gpr w.env r
  accesses : ∃ reads data, w'.accesses = w.accesses ++ reads ++
      [.writeMem ((cellAddress inst .push w.env).setWidth 64) (8 * cellBytes inst) data true] ∧
    ∀ x ∈ reads, x.isStore = false

/-- Every push. -/
theorem push_step (h : c.UsesStack inst .push i) (hd : c.Decodes w.env inst) :
    ∃ g, c.Ready w.env inst g ∧ ∃ w',
      c.Pushes inst (c.executor.pushValue inst (c.executor.getNextPC inst g) g) w w' ∧
      c.pc w'.env = (c.executor.stackPC inst (c.executor.getNextPC inst g) g).setWidth _ := by
  obtain ⟨g, hg, hrun⟩ := step_flat h.plain hd
  have he := c.executor.emulate_push h.form (c.executor.getNextPC inst g) g
  obtain ⟨w', hstep, henv, hacc⟩ := hrun _ _ he
  obtain ⟨-, -, haddr, hsize, -⟩ := h.toStackOperand.cellRead hg
  have hplaces (j : Fin 2) := congrFun (c.executor.places_of_emulated he) j
  have hback (j : Fin 2) := (congrArg (fun p : Place => p.present && p.writeBack) (hplaces j)).trans
    (h.written hg j)
  obtain ⟨hmem, hevents⟩ := written_one hback (c.executor.stackPC inst _ g) w.env
  have haddr' := (congrArg Place.address (hplaces i)).trans haddr
  have hsize' := (congrArg Place.size (hplaces i)).trans hsize
  simp only [Globals.places, Cell.place] at haddr' hsize'
  rw [haddr', hsize', AddressSize.setWidth_setWidth,
    Nat.mul_div_cancel_left _ (by decide : 0 < 8)] at hmem
  rw [haddr', hsize'] at hevents
  refine ⟨g, hg, w', ⟨hstep, ?_, ?_, fun r hr => ?_, ?_⟩, ?_⟩
  · rw [henv, h.toStackOperand.sp_written hg he, Executor.gpr_addToStack, if_pos rfl, Executor.gpr_setMem,
      h.toStackOperand.gpr_rsp hg, BitVec.setWidth_neg_of_le c.addrSize.bits_le, ← BitVec.sub_eq_add_neg]
    rfl
  · rw [henv, hmem]
    apply ByteMemory.store_eq_of_bits
    intro k hk
    have h64 := h.toStackOperand.cellBytes_le
    rw [Executor.memory_addToStack, Globals.setMem, Globals.setData, Globals.memory_setCell_self,
      Bits.getLsbD_put _ _ _ _ _ (by omega), if_pos (by omega)]
    rfl
  · rw [henv]
    apply hg.gpr_written_of_same he
    simp [hr]
  · exact ⟨readEvents inst g, _, by rw [hacc, hevents], fun x hx => isStore_of_mem_readEvents hx⟩
  · rw [henv, pc_written]

/-- A pop: the stack pointer moves, after the cell was read. -/
structure Pops (c : FlatMachine) (inst : Inst) (w w' : World (Flat c.width)) : Prop where
  step : c.Step w w'
  sp : sp w'.env = sp w.env + c.stackStep inst + inst.released.setWidth _
  accesses : ∃ reads hint stores, w'.accesses = w.accesses ++ reads ++
      [.readMem ((FlatMachine.sp w.env).setWidth 64) (8 * cellBytes inst) hint true] ++ stores ∧
    (∀ x ∈ reads, x.isStore = false) ∧ ∀ x ∈ stores, x.isStore = true

/-- The stack is read last. -/
theorem StackOperand.readEvents_eq (h : c.StackOperand inst use i) (hg : c.Ready e inst g) :
    ∃ reads hint, readEvents inst g = reads ++
      [.readMem ((cellAddress inst use e).setWidth 64) (8 * cellBytes inst) hint true] := by
  obtain ⟨op, hop, hname, -⟩ := h.cell
  obtain ⟨-, -, haddr, hsize, -⟩ := h.cellRead hg
  have hlast := h.last
  have hrange : List.finRange 2 = [0, 1] := rfl
  have hevent : readEvent op (g.memory i) = [.readMem ((cellAddress inst use e).setWidth 64)
      (8 * cellBytes inst) (Executor.memHint op) true] := by
    rw [readEvent, if_neg hname, haddr, hsize]
  unfold readEvents
  rw [hrange]
  obtain rfl | rfl := eq_zero_or_one i
  · have hnone : inst.memoryOperands[(1 : Fin 2).val]? = none :=
      List.getElem?_eq_none (Nat.le_of_eq hlast)
    refine ⟨[], Executor.memHint op, ?_⟩
    simp only [List.flatMap_cons, List.flatMap_nil, hop, hnone, hevent]
    rfl
  · have hlt : 0 < inst.memoryOperands.length := by
      rw [hlast]
      decide
    have hsome : inst.memoryOperands[(0 : Fin 2).val]? = some inst.memoryOperands[0] :=
      List.getElem?_eq_getElem hlt
    refine ⟨readEvent inst.memoryOperands[0] (g.memory 0), Executor.memHint op, ?_⟩
    simp only [List.flatMap_cons, List.flatMap_nil, hsome, hop, hevent, List.append_nil]

/-- What is popped. -/
theorem StackOperand.mem_eq (h : c.StackOperand inst .pop i) (hg : c.Ready e inst g) :
    g.mem i = ByteMemory.load e.mem (sp e) (cellBytes inst) := by
  obtain ⟨-, -, -, -, hdata⟩ := h.cellRead hg
  rw [Globals.mem, hdata]
  exact ByteMemory.setWidth_load (by decide)

/-- Every pop. -/
theorem pop_step (h : c.UsesStack inst .pop i) (hd : c.Decodes w.env inst) :
    ∃ g, c.Ready w.env inst g ∧ ∃ pc g' w',
      c.executor.emulate inst (c.executor.getNextPC inst g) g = .emulated pc g' ∧
      pc = c.executor.stackPC inst (c.executor.getNextPC inst g) g ∧
      g' = c.executor.addToStack (c.executor.stackStep inst + inst.released)
        (c.executor.popInto inst g) ∧
      w'.env = c.written g' pc w.env ∧ c.Pops inst w w' := by
  obtain ⟨g, hg, hrun⟩ := step_flat h.plain hd
  have he := c.executor.emulate_pop h.form (c.executor.getNextPC inst g) g
  obtain ⟨w', hstep, henv, hacc⟩ := hrun _ _ he
  obtain ⟨reads, hint, hreads⟩ := h.toStackOperand.readEvents_eq hg
  have hloads : ∀ x ∈ reads, x.isStore = false := by
    intro x hx
    have hmem : x ∈ readEvents inst g := by
      rw [hreads]
      exact List.mem_append_left _ hx
    exact isStore_of_mem_readEvents hmem
  rw [hreads, ← List.append_assoc] at hacc
  refine ⟨g, hg, _, _, w', he, rfl, rfl, henv, hstep, ?_, reads, hint, _, hacc, hloads,
    fun x hx => isStore_of_mem_writeEvents hx⟩
  rw [henv, h.toStackOperand.sp_written hg he, Executor.gpr_addToStack, if_pos rfl,
    c.executor.gpr_popInto (h.target rfl), h.toStackOperand.gpr_rsp hg, AddressSize.setWidth_add,
    BitVec.add_assoc]
  rfl

/-- An instruction that uses the stack can always be executed. -/
theorem UsesStack.steps (h : c.UsesStack inst use i) (hd : c.Decodes w.env inst) :
    ∃ w', c.Step w w' := by
  cases use with
  | push =>
      obtain ⟨_, -, w', hpush, -⟩ := push_step h hd
      exact ⟨w', hpush.step⟩
  | pop =>
      obtain ⟨_, -, _, _, w', -, -, -, -, hpop⟩ := pop_step h hd
      exact ⟨w', hpop.step⟩

/-! ## when the cell and the stack pointer agree -/

/-- A push writes its cell at the new stack pointer, a pop reads its cell at the old one, and the
stack pointer moves by the size of the cell. -/
def StackAgrees (c : FlatMachine) (inst : Inst) (use : StackUse) (w w' : World (Flat c.width)) :
    Prop :=
  match use with
  | .push => ∃ reads size data,
      w'.accesses = w.accesses ++ reads ++ [.writeMem ((sp w'.env).setWidth 64) size data true] ∧
        (∀ x ∈ reads, x.isStore = false) ∧ sp w'.env = sp w.env - BitVec.ofNat _ (size / 8)
  | .pop => ∃ reads size hint stores,
      w'.accesses = w.accesses ++ reads ++ [.readMem ((sp w.env).setWidth 64) size hint true] ++
          stores ∧
        (∀ x ∈ reads, x.isStore = false) ∧ (∀ x ∈ stores, x.isStore = true) ∧
        sp w'.env = sp w.env + BitVec.ofNat _ (size / 8) + inst.released.setWidth _

/-- The step of the stack pointer and the size of the cell. -/
theorem UsesStack.stackStep_eq_iff (h : c.UsesStack inst use i) :
    c.stackStep inst = BitVec.ofNat _ (cellBytes inst) ↔
      (inst.iform.movesByAddress = true → inst.operandWidth = c.width) := by
  unfold stackStep Executor.stackStep cellBytes Executor.opSizeBytes Executor.addrSizeBytes
  cases inst.iform.movesByAddress with
  | false =>
      rw [if_neg (by decide)]
      exact iff_of_true (BitVec.setWidth_ofNat_of_le c.addrSize.bits_le _) nofun
  | true =>
      have hw := h.width
      rw [if_pos rfl]
      generalize inst.operandWidth = n at hw
      change ((BitVec.ofNat 64 (c.addrSize.bits / 8)).setWidth c.addrSize.bits =
        BitVec.ofNat c.addrSize.bits (n / 8)) ↔ (true = true → n = c.addrSize.bits)
      cases c.addrSize <;> rcases hw with rfl | rfl | rfl <;> decide

theorem Pushes.agrees_iff {value : Word} (h : c.Pushes inst value w w') :
    StackAgrees c inst .push w w' ↔ c.stackStep inst = BitVec.ofNat _ (cellBytes inst) := by
  obtain ⟨reads, data, hacc, hreads⟩ := h.accesses
  constructor
  · rintro ⟨reads', size, data', hacc', -, hsp⟩
    have hlast := (List.append_inj' (hacc.symm.trans hacc') rfl).2
    injection hlast with hevent
    injection hevent with haddr hsize
    rw [← hsize, Nat.mul_div_cancel_left _ (by decide : 0 < 8), h.sp] at hsp
    exact sub_right_inj.mp hsp
  · intro heq
    have hsp : FlatMachine.sp w'.env = cellAddress inst .push w.env := by
      rw [h.sp, heq]
      rfl
    rw [← hsp] at hacc
    refine ⟨reads, 8 * cellBytes inst, data, hacc, hreads, ?_⟩
    rw [Nat.mul_div_cancel_left _ (by decide : 0 < 8)]
    exact hsp

theorem Pops.agrees_iff (h : c.Pops inst w w') :
    StackAgrees c inst .pop w w' ↔ c.stackStep inst = BitVec.ofNat _ (cellBytes inst) := by
  obtain ⟨reads, hint, stores, hacc, hreads, hstores⟩ := h.accesses
  constructor
  · rintro ⟨reads', size, hint', stores', hacc', hreads', hstores', hsp⟩
    have hloads {l : List Event} (hl : ∀ x ∈ l, x.isStore = false) : l.filter (!·.isStore) = l :=
      List.filter_eq_self.mpr fun x hx => by simp [hl x hx]
    have hnone {l : List Event} (hl : ∀ x ∈ l, x.isStore = true) : l.filter (!·.isStore) = [] :=
      List.filter_eq_nil_iff.mpr fun x hx => by simp [hl x hx]
    -- Without the stores both sides end with the read of the stack.
    have hboth := congrArg (List.filter (!·.isStore)) (hacc.symm.trans hacc')
    simp only [List.filter_append, hloads hreads, hloads hreads', hnone hstores, hnone hstores',
      List.append_nil] at hboth
    have hlast := (List.append_inj' hboth rfl).2
    injection hlast with hevent
    injection hevent with haddr hsize
    rw [← hsize, Nat.mul_div_cancel_left _ (by decide : 0 < 8), h.sp] at hsp
    exact add_left_cancel (add_right_cancel hsp)
  · intro heq
    refine ⟨reads, 8 * cellBytes inst, hint, stores, hacc, hreads, hstores, ?_⟩
    rw [Nat.mul_div_cancel_left _ (by decide : 0 < 8), ← heq]
    exact h.sp

/-- The cell and the stack pointer agree if and only if the form moves the stack pointer by the
operand width, or the operand width is the address size. -/
theorem stack_agrees_iff (h : c.UsesStack inst use i) (hd : c.Decodes w.env inst) :
    ∃ w', c.Step w w' ∧ (StackAgrees c inst use w w' ↔
      (inst.iform.movesByAddress = true → inst.operandWidth = c.width)) := by
  cases use with
  | push =>
      obtain ⟨g, -, w', hpush, -⟩ := push_step h hd
      exact ⟨w', hpush.step, hpush.agrees_iff.trans h.stackStep_eq_iff⟩
  | pop =>
      obtain ⟨g, -, _, _, w', -, -, -, -, hpop⟩ := pop_step h hd
      exact ⟨w', hpop.step, hpop.agrees_iff.trans h.stackStep_eq_iff⟩

/-! ### a stack that does not agree -/

/-- A push or a pop of one register. -/
def stackInst (iform : IForm) (use : StackUse) (operandWidth : Nat) (reg : Reg) : Inst :=
  .scalar iform 2 operandWidth
    [.register .reg0 (decide (use = .pop)), .register .reg1 true,
      ⟨.mem0, decide (use = .pop), decide (use = .push), false, .suppressed⟩]
    (fun x => if x = .reg0 then reg else if use = .push then .stackpush else .stackpop)
    (fun _ => ⟨.seg .ss, .gpr64 .rsp, .invalid, 0, 0, 64, operandWidth / 8⟩) 0

theorem usesStack_stackInst {insts : Byte → Option Inst} {iform : IForm} {operandWidth : Nat}
    {reg : Reg} (hform : iform.stackUse = some (use, 0))
    (hwidth : operandWidth = 16 ∨ operandWidth = 32 ∨ operandWidth = 64)
    (hscalar : reg.isScalar = true) (hflags : reg.largestEnclosing ≠ .rflags)
    (htarget : use = .pop → reg.largestEnclosing ≠ .gpr64 .rsp) :
    (sample .x64 insts).UsesStack (stackInst iform use operandWidth reg) use 0 where
  plain :=
    { supported := by cases iform <;> rfl
      notNop := rfl
      operand := by
        intro op hop x hname
        simp [stackInst, Inst.scalar, Operand.register] at hop
        rcases hop with rfl | rfl | rfl <;> cases hname
        · exact ⟨hscalar, fun h => absurd h hflags⟩
        · cases use <;> exact ⟨rfl, nofun⟩
      base := fun _ => ⟨rfl, nofun⟩
      index := fun _ => ⟨rfl, nofun⟩
      noBitOp := by
        intro op lock
        constructor <;> rintro rfl <;> cases hform
      usualOrder := .tail _ (.tail _ (.head _)) }
  form := hform
  width := hwidth
  pointer := ⟨.register .reg1 true, by simp [stackInst, Inst.scalar], .reg1, rfl, by cases use <;> rfl⟩
  cell := ⟨_, rfl, nofun, rfl⟩
  last := rfl
  base := rfl
  index := rfl
  displacement := rfl
  addressWidth := rfl
  length := rfl
  source _ h := absurd h (by decide)
  target := htarget

/-- `PUSHF` with an operand-size prefix, and `PUSH RAX`. -/
def pushf16 : Inst := stackInst .pushf .push 16 .stackpush

def pushRax : Inst := stackInst .pushGPRv50 .push 64 (.gpr64 .rax)

theorem usesStack_pushf16 : (oneInst pushf16).UsesStack pushf16 .push 0 :=
  usesStack_stackInst rfl (.inl rfl) rfl nofun nofun

theorem usesStack_pushRax : (oneInst pushRax).UsesStack pushRax .push 0 :=
  usesStack_stackInst rfl (.inr (.inr rfl)) rfl nofun nofun

theorem stack_disagrees : ¬∀ (c : FlatMachine) (inst : Inst) (use : StackUse) (i : Fin 2)
    (w w' : World (Flat c.width)), c.UsesStack inst use i → c.Decodes w.env inst → c.Step w w' →
      StackAgrees c inst use w w' := by
  intro h
  have hd : (oneInst pushf16).Decodes (zeroStart (oneInst pushf16)).env pushf16 := decodes_sample rfl
  obtain ⟨g, -, w', hpush, -⟩ := push_step usesStack_pushf16 hd
  have hagrees := h _ _ _ _ _ _ usesStack_pushf16 hd hpush.step
  -- Eight bytes for a cell of two.
  have hstep : (oneInst pushf16).stackStep pushf16 = 2 := hpush.agrees_iff.mp hagrees
  have height : (oneInst pushf16).stackStep pushf16 = 8 := rfl
  rw [height] at hstep
  exact absurd hstep (by decide)

theorem stack_agrees_iff_pushRax : ∃ w', (oneInst pushRax).Step (zeroStart (oneInst pushRax)) w' ∧
    StackAgrees (oneInst pushRax) pushRax .push (zeroStart (oneInst pushRax)) w' := by
  obtain ⟨w', hstep, hiff⟩ := stack_agrees_iff (w := zeroStart (oneInst pushRax)) usesStack_pushRax
    (decodes_sample rfl)
  exact ⟨w', hstep, hiff.mpr nofun⟩

end FlatMachine

end Microx
