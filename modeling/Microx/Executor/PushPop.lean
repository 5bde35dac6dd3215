import Microx.Executor.Stack

/-!
# Microx.Executor.PushPop

What `PUSH` stores and where `POP` delivers it.

A push stores its source as it was before the stack pointer moved; only an
immediate is cut to 32 bits on the way, which an operand of 64 bits shows
(`push_stores_iff`).  A pop writes its destination before it moves the stack
pointer, so a destination in the stack pointer is moved as well
(`pop_delivers_iff`).
-/

namespace Microx

/-- `PUSH` of a register, of memory, of an immediate or of a segment register. -/
def IForm.isPlainPush : IForm → Bool
  | .pushGPRvFFr6 | .pushGPRv50 | .pushMEMv | .pushIMMz | .pushIMMb | .pushSeg _ => true
  | _ => false

/-- `PUSH_IMMz` or `PUSH_IMMb`. -/
def IForm.pushesImmediate : IForm → Bool
  | .pushIMMz | .pushIMMb => true
  | _ => false

/-- `POP` of a register or of memory. -/
def IForm.isPlainPop : IForm → Bool
  | .popGPRv58 | .popGPRv8F | .popMEMv => true
  | _ => false

namespace FlatMachine

variable {c : FlatMachine} {inst : Inst} {i : Fin 2} {e : Flat c.width}
  {w w' : World (Flat c.width)} {g g' : Globals}

/-! ## the registers of an environment -/

/-- Globals that hold the registers of an environment. -/
def view (c : FlatMachine) (e : Flat c.width) : Globals :=
  { Globals.zero with regs := fun slot => e.regs (c.executor.slotName slot) }

/-- A register of the mode: it is no wider than the register the executor asks for. -/
def Named (c : FlatMachine) (reg : Reg) : Prop :=
  reg.isScalar = true ∧ reg.largestEnclosing ≠ .rflags ∧
    c.executor.width reg ≤ c.executor.width (c.executor.widestRegister reg)

/-- A part of a register that was read is that part of the environment's register. -/
theorem Loaded.readGPR_eq (h : c.Loaded e g) {reg : Reg} (hreg : c.Named reg)
    (hu : reg ≠ .invalid → g.usedRegs (c.executor.widestRegister reg) = true) :
    c.executor.readGPR reg g = c.executor.readGPR reg (c.view e) := by
  by_cases hne : reg = .invalid
  · rw [hne]
    rfl
  obtain ⟨hs, hf, hwidth⟩ := hreg
  have hslot : (c.view e).regs reg.largestEnclosing = e.regs (c.executor.widestRegister reg) := by
    rw [Executor.widestRegister_scalar hs]
    rfl
  have hvalue {n : Nat} (hn : n ≤ c.executor.width (c.executor.widestRegister reg)) :
      g.readValue n reg = (c.view e).readValue n reg := by
    rw [Globals.readValue, Globals.readValue, h.setWidth_eq hs hf (hu hne) hn, hslot]
  unfold Executor.readGPR Globals.readGPR
  split_ifs with h8h
  · have hwide : 16 ≤ c.executor.width (c.executor.widestRegister reg) := by
      have h32 := c.executor.addrSize.le_bits
      cases reg <;> cases h8h
      rw [Executor.widestRegister_of_family rfl, Executor.width_wide]
      omega
    rw [hvalue hwide]
  all_goals first | exact hvalue (by omega) | rfl

/-- The address of a memory operand, without the adjustment of `ReadMemory`. -/
def plainAddress (c : FlatMachine) (inst : Inst) (i : Fin 2) (g : Globals) : Word :=
  let memop := inst.memOperand i
  Executor.truncateAddress memop.addressWidth
    (c.executor.memBase inst memop g + c.executor.readGPR memop.indexReg g * memop.scale +
      memop.displacement)

/-! ## pushing -/

/-- What is to be pushed, before the stack pointer changes: memory and registers as they are,
segment selectors zero-extended, immediates sign-extended. -/
def pushSource (c : FlatMachine) (inst : Inst) (e : Flat c.width) : Word :=
  match inst.iform with
  | .pushMEMv => ByteMemory.load e.mem ((c.plainAddress inst 0 (c.view e)).setWidth _) (cellBytes inst)
  | .pushIMMz | .pushIMMb => inst.signedImmediate
  | _ => c.executor.readGPR (inst.reg .reg0) (c.view e)

/-- A push as XED lists it: its source is a register that is read, memory that is read, or an
immediate of at most 32 bits. -/
structure PushesSource (c : FlatMachine) (inst : Inst) (i : Fin 2) : Prop
    extends c.UsesStack inst .push i where
  plainPush : inst.iform.isPlainPush = true
  register : inst.iform ≠ .pushMEMv → inst.iform.pushesImmediate = false →
    c.Named (inst.reg .reg0) ∧ (inst.reg .reg0).isStackOp = false ∧
      ∃ op ∈ inst.operands, op.name = .reg .reg0
  memory : inst.iform = .pushMEMv → c.Named (inst.memOperand 0).baseReg ∧
    (inst.memOperand 0).baseReg.isStackOp = false ∧ c.Named (inst.memOperand 0).indexReg ∧
      (inst.memOperand 0).indexReg.isStackOp = false ∧ (inst.memOperand 0).length = cellBytes inst ∧
      ∃ op, inst.memoryOperands[(0 : Fin 2).val]? = some op ∧ op.name ≠ .agen
  immediate : inst.iform.pushesImmediate = true →
    ∃ imm : BitVec 32, inst.signedImmediate = imm.signExtend 64

/-- A register operand that was read. -/
theorem Ready.readGPR_operand (hg : c.Ready e inst g) {reg : Reg} (hreg : c.Named reg)
    (hstack : reg.isStackOp = false) {back : Bool} (hrequest : c.Requested reg back g) :
    c.executor.readGPR reg g = c.executor.readGPR reg (c.view e) := by
  refine hg.loaded.readGPR_eq hreg fun hne => ?_
  have hmeant : reg.meant = reg := by
    rw [Reg.meant, hstack]
    rfl
  rw [← hmeant]
  exact (hrequest hne).1

/-- The address of a memory operand that was read. -/
theorem Ready.plainAddress_eq (hg : c.Ready e inst g) (hi : i.val < inst.memoryOperands.length)
    (hbase : c.Named (inst.memOperand i).baseReg)
    (hbase' : (inst.memOperand i).baseReg.isStackOp = false)
    (hindex : c.Named (inst.memOperand i).indexReg)
    (hindex' : (inst.memOperand i).indexReg.isStackOp = false) :
    c.plainAddress inst i g = c.plainAddress inst i (c.view e) := by
  obtain ⟨hreadBase, hreadIndex⟩ := hg.requested.memory i hi
  rw [plainAddress, plainAddress, Executor.memBase, Executor.memBase,
    hg.readGPR_operand hbase hbase' hreadBase, hg.readGPR_operand hindex hindex' hreadIndex]

/-- **What is pushed** is the source, but for an immediate, which is cut to 32 bits. -/
theorem PushesSource.pushValue_eq (h : c.PushesSource inst i) (hg : c.Ready e inst g)
    (nextPC : Word) :
    c.executor.pushValue inst nextPC g =
      if inst.iform.pushesImmediate then
        ((Executor.getSignedImmediate inst).setWidth 32).setWidth 64
      else c.pushSource inst e := by
  have hregister := h.register
  have hmemory := h.memory
  have hplain := h.plainPush
  unfold Executor.pushValue pushSource
  cases hform : inst.iform <;> rw [hform] at hplain hregister hmemory <;> cases hplain
  case pushMEMv =>
    obtain ⟨hbase, hbase', hindex, hindex', hlength, op, hop, hname⟩ := hmemory rfl
    have hlt : (0 : Fin 2).val < inst.memoryOperands.length := by
      rw [h.last]
      omega
    have hcell := hg.cells 0
    rw [hop] at hcell
    have hadjustment : c.executor.adjustment inst 0 = 0 := by
      unfold Executor.adjustment Executor.adjustDisplacement
      rw [hform]
      rfl
    have haddress : (g.memory 0).address = c.plainAddress inst 0 (c.view e) := by
      rw [hcell.address, ← hg.plainAddress_eq hlt hbase hbase' hindex hindex', effectiveAddress,
        hadjustment, add_zero]
      rfl
    change g.mem 0 = ByteMemory.load e.mem _ _
    rw [Globals.mem, hcell.data hname, haddress, hlength, Flat.load,
      ByteMemory.setWidth_load (by decide)]
  case pushIMMz => rfl
  case pushIMMb => rfl
  all_goals
    obtain ⟨hreg, hstack, op, hop, hname⟩ := hregister (by simp) rfl
    exact hg.readGPR_operand hreg hstack (hg.requested.operand op hop _ hname)

/-- Cutting a sign-extended immediate to 32 bits is no loss for what fits an operand of 32 bits, and
for non-negative immediates. -/
theorem immediate_eq_iff {imm : BitVec 32} (himm : inst.signedImmediate = imm.signExtend 64)
    (hwidth : inst.operandWidth = 16 ∨ inst.operandWidth = 32 ∨ inst.operandWidth = 64) :
    Bits.low (8 * cellBytes inst)
        (((Executor.getSignedImmediate inst).setWidth 32).setWidth 64 : Word) =
      Bits.low (8 * cellBytes inst) inst.signedImmediate ↔
      (inst.operandWidth = 64 → 0 ≤ inst.signedImmediate.toInt) := by
  unfold Executor.getSignedImmediate cellBytes
  rcases hwidth with hw | hw | hw <;> rw [hw]
  · refine iff_of_true (Bits.low_eq_low_iff.mpr fun j hj => ?_) (by simp)
    simp [show j < 16 by omega, show j < 64 by omega]
  · refine iff_of_true (Bits.low_eq_low_iff.mpr fun j hj => ?_) (by simp)
    simp [show j < 32 by omega, show j < 64 by omega]
  · rw [Bits.low_of_le (by decide), Bits.low_of_le (by decide)]
    have hmsb : inst.signedImmediate.msb = imm.msb := by
      rw [himm, BitVec.msb_signExtend]
      simp
    have hsign : (64 = 64 → 0 ≤ inst.signedImmediate.toInt) ↔ imm.msb = false := by
      rw [← hmsb, BitVec.msb_eq_toInt]
      simp
    rw [hsign]
    constructor
    · intro heq
      rw [← hmsb, ← heq]
      simp [BitVec.msb_eq_getLsbD_last]
    · intro h
      rw [himm, BitVec.signExtend_eq_setWidth_of_msb_false h]
      apply Bits.eq_of_bits
      intro j hj
      by_cases h32 : j < 32 <;> simp [h32, hj]

/-- The cell after a push. -/
theorem pushed_cell (h : c.PushesSource inst i) (hd : c.Decodes w.env inst) :
    ∃ w', c.Step w w' ∧
      (ByteMemory.load w'.env.mem (cellAddress inst .push w.env) (cellBytes inst) : Word) =
        Bits.low (8 * cellBytes inst) (if inst.iform.pushesImmediate then
          ((Executor.getSignedImmediate inst).setWidth 32).setWidth 64
        else c.pushSource inst w.env) := by
  obtain ⟨g, hg, w', hpush, -⟩ := push_step h.toUsesStack hd
  refine ⟨w', hpush.step, ?_⟩
  rw [hpush.mem, ByteMemory.load_store h.toStackOperand.cellBytes_le_pow, h.pushValue_eq hg]

/-- **`PUSH` stores its source**, except for a negative immediate that is pushed as 64 bits. -/
theorem push_stores_iff (h : c.PushesSource inst i) (hd : c.Decodes w.env inst) :
    ∃ w', c.Step w w' ∧
      ((ByteMemory.load w'.env.mem (cellAddress inst .push w.env) (cellBytes inst) : Word) =
          Bits.low (8 * cellBytes inst) (c.pushSource inst w.env) ↔
        (inst.iform.pushesImmediate = true → inst.operandWidth = 64 →
          0 ≤ inst.signedImmediate.toInt)) := by
  obtain ⟨w', hstep, hcell⟩ := pushed_cell h hd
  refine ⟨w', hstep, ?_⟩
  rw [hcell]
  cases himm : inst.iform.pushesImmediate with
  | false => simp
  | true =>
      obtain ⟨imm, hsigned⟩ := h.immediate himm
      have hsource : c.pushSource inst w.env = inst.signedImmediate := by
        unfold pushSource
        cases hform : inst.iform <;> rw [hform] at himm <;> cases himm
      rw [if_pos rfl, hsource]
      simpa using immediate_eq_iff hsigned h.width

/-! ### immediates -/

/-- `PUSH` of an immediate in 64-bit mode. -/
def pushImm (imm : BitVec 8) : Inst :=
  { Inst.scalar .pushIMMb 2 64
      [⟨.imm0signed, true, false, false, .explicit⟩, .register .reg0 true,
        ⟨.mem0, false, true, false, .suppressed⟩]
      (fun _ => .stackpush) (fun _ => ⟨.seg .ss, .gpr64 .rsp, .invalid, 0, 0, 64, 8⟩) 0 with
    unsignedImmediate := imm.setWidth 64
    signedImmediate := imm.signExtend 64
    immediateIsSigned := true
    immediateWidthBits := 8 }

theorem pushesSource_pushImm (imm : BitVec 8) : (oneInst (pushImm imm)).PushesSource (pushImm imm) 0 where
  plain :=
    { supported := rfl
      notNop := rfl
      operand := by
        intro op hop x hname
        exact ⟨rfl, nofun⟩
      base := fun _ => ⟨rfl, nofun⟩
      index := fun _ => ⟨rfl, nofun⟩
      noBitOp := by
        intro op lock
        constructor <;> exact nofun
      usualOrder := .tail _ (.tail _ (.head _)) }
  form := rfl
  width := .inr (.inr rfl)
  pointer := ⟨.register .reg0 true, by simp [pushImm, Inst.scalar], .reg0, rfl, rfl⟩
  cell := ⟨_, rfl, nofun, rfl⟩
  last := rfl
  base := rfl
  index := rfl
  displacement := rfl
  addressWidth := rfl
  length := by simp [pushImm, Inst.scalar]
  source _ h := absurd h (by decide)
  target := nofun
  plainPush := rfl
  register _ h := Bool.noConfusion h
  memory := nofun
  immediate _ := ⟨imm.signExtend 32, by
    apply BitVec.eq_of_toInt_eq
    simp only [pushImm]
    rw [BitVec.toInt_signExtend_of_le (by decide), BitVec.toInt_signExtend_of_le (by decide),
      BitVec.toInt_signExtend_of_le (by decide)]⟩

/-- **`PUSH -1`** stores `0xFFFFFFFF` in 64-bit mode. -/
theorem push_negative : ¬∀ (c : FlatMachine) (inst : Inst) (i : Fin 2) (w w' : World (Flat c.width)),
    c.PushesSource inst i → c.Decodes w.env inst → c.Step w w' →
      (ByteMemory.load w'.env.mem (cellAddress inst .push w.env) (cellBytes inst) : Word) =
        Bits.low (8 * cellBytes inst) (c.pushSource inst w.env) := by
  intro h
  have hpush := pushesSource_pushImm (-1)
  have hd : (oneInst (pushImm (-1))).Decodes (zeroStart (oneInst (pushImm (-1)))).env
      (pushImm (-1)) := decodes_sample rfl
  obtain ⟨w', hstep, hcell⟩ := pushed_cell hpush hd
  have heq := hcell.symm.trans (h _ _ _ _ _ hpush hd hstep)
  exact absurd heq (by decide)

theorem push_stores_iff_one : ∃ w', (oneInst (pushImm 1)).Step (zeroStart (oneInst (pushImm 1))) w' ∧
    (ByteMemory.load w'.env.mem (cellAddress (pushImm 1) .push (zeroStart (oneInst (pushImm 1))).env)
      (cellBytes (pushImm 1)) : Word) = 1 := by
  obtain ⟨w', hstep, hiff⟩ := push_stores_iff (w := zeroStart (oneInst (pushImm 1)))
    (pushesSource_pushImm 1) (decodes_sample rfl)
  exact ⟨w', hstep, hiff.mpr fun _ _ => by decide⟩

/-! ## popping -/

/-- A `POP` of a register or of memory as XED lists it: its register is written, or its memory
operand comes first and is written; a base in the stack pointer is as wide as the address. -/
structure PopsTo (c : FlatMachine) (inst : Inst) (i : Fin 2) : Prop
    extends c.StackOperand inst .pop i where
  plainPop : inst.iform.isPlainPop = true
  register : inst.iform ≠ .popMEMv → (inst.reg .reg0).family.isSome = true ∧
    ∃ op ∈ inst.operands, op.name = .reg .reg0 ∧ op.written = true
  memory : inst.iform = .popMEMv → c.Named (inst.memOperand 0).baseReg ∧
    (inst.memOperand 0).baseReg.isStackOp = false ∧ c.Named (inst.memOperand 0).indexReg ∧
      (inst.memOperand 0).indexReg.isStackOp = false ∧ (inst.memOperand 0).length = cellBytes inst ∧
      (∃ op, inst.memoryOperands[(0 : Fin 2).val]? = some op ∧ op.written = true) ∧
      (inst.memOperand 0).indexReg.family ≠ some .rsp ∧
      ((inst.memOperand 0).baseReg.family = some .rsp →
        c.executor.width (inst.memOperand 0).baseReg = (inst.memOperand 0).addressWidth ∧
          (inst.memOperand 0).addressWidth ≠ 8)

/-- The cell at the top of the stack. -/
def topCell (inst : Inst) (e : Flat c.width) : Word := ByteMemory.load e.mem (sp e) (cellBytes inst)

/-- The stack pointer behind the cell. -/
def behindCell (inst : Inst) (e : Flat c.width) : BitVec c.width :=
  sp e + BitVec.ofNat _ (cellBytes inst)

/-- The environment with another stack pointer. -/
def withSP (c : FlatMachine) (x : BitVec c.width) (e : Flat c.width) : Flat c.width :=
  { e with regs := Function.update e.regs (c.executor.wide .rsp) (x.setWidth 512) }

/-- **What a pop is to do.**  A register gets the cell, merged into the whole register, and the
stack pointer moves unless it is that register; memory gets the cell at the address that it has
once the stack pointer has moved. -/
def PopDelivers (c : FlatMachine) (inst : Inst) (e e' : Flat c.width) : Prop :=
  match inst.iform with
  | .popMEMv =>
      e'.mem = ByteMemory.store e.mem
          ((c.plainAddress inst 0 (c.view (c.withSP (behindCell inst e) e))).setWidth _)
          (cellBytes inst) (topCell inst e) ∧
        sp e' = behindCell inst e
  | _ => ∀ r, (inst.reg .reg0).family = some r →
      c.gpr e' r = (inst.reg .reg0).merge
          (if r = .rsp then behindCell inst e else c.gpr e r) (topCell inst e) ∧
        (r ≠ .rsp → sp e' = behindCell inst e)

/-! ### registers -/

/-- A register that was merged and then moved does not hold what was merged. -/
theorem merge_add_ne {a : Nat} (ha : 8 ≤ a) {reg : Reg} (h : reg.family = some .rsp)
    (x y : BitVec a) (v : Word) {k : Nat} (hk : k = 2 ∨ k = 4 ∨ k = 8) :
    reg.merge x v + BitVec.ofNat a k ≠ reg.merge y v := by
  have hlow (z : BitVec a) : (reg.merge z v).setWidth 8 = v.setWidth 8 := by
    cases reg with
    | gpr64 r => exact BitVec.setWidth_setWidth_of_le v ha
    | gpr32 r =>
        rw [Reg.merge, BitVec.setWidth_setWidth_of_le _ ha,
          BitVec.setWidth_setWidth_of_le _ (by decide)]
    | gpr16 r => exact Bits.setWidth_put (by decide) ha z v
    | gpr8 r => exact Bits.setWidth_put (by decide) ha z v
    | gpr8h r => cases r <;> cases h
    | _ => cases h
  intro heq
  have h8 := congrArg (BitVec.setWidth 8) heq
  rw [BitVec.setWidth_add _ _ ha, hlow, hlow, BitVec.setWidth_ofNat_of_le ha] at h8
  have hzero : BitVec.ofNat 8 k = 0 := add_eq_left.mp h8
  rcases hk with rfl | rfl | rfl <;> exact absurd hzero (by decide)

/-- What a pop leaves, before it is written back. -/
theorem StackOperand.pop_flat (h : c.StackOperand inst .pop i) (hd : c.Decodes w.env inst) :
    ∃ g, c.Ready w.env inst g ∧ ∃ pc w', c.Step w w' ∧
      let g' := c.executor.addToStack (c.executor.stackStep inst + inst.released)
        (c.executor.popInto inst g)
      c.executor.emulate inst (c.executor.getNextPC inst g) g = .emulated pc g' ∧
        w'.env = c.written g' pc w.env := by
  obtain ⟨g, hg, hrun⟩ := step_flat h.plain hd
  have he := c.executor.emulate_pop h.form (c.executor.getNextPC inst g) g
  obtain ⟨w', hstep, henv, -⟩ := hrun _ _ he
  exact ⟨g, hg, _, w', hstep, he, henv⟩

/-- A pop of these moves the stack pointer by the size of its cell. -/
theorem PopsTo.gpr_moved (h : c.PopsTo inst i) (g : Globals) (r : Gpr) :
    c.executor.gpr (c.executor.addToStack (c.executor.stackStep inst + inst.released) g) r =
      if r = .rsp then c.executor.gpr g .rsp + BitVec.ofNat _ (cellBytes inst)
      else c.executor.gpr g r := by
  have hplain := h.plainPop
  have hstep : c.executor.stackStep inst + inst.released = Executor.opSizeBytes inst := by
    unfold Executor.stackStep Inst.released
    cases hform : inst.iform <;> rw [hform] at hplain <;> cases hplain <;> exact add_zero _
  rw [hstep, Executor.gpr_addToStack]
  congr 2
  exact BitVec.setWidth_ofNat_of_le c.addrSize.bits_le _

/-- The stack pointer after a pop. -/
theorem PopsTo.sp_eq (h : c.PopsTo inst i) (hg : c.Ready e inst g) {nextPC pc : Word}
    (he : c.executor.emulate inst nextPC g = .emulated pc (c.executor.addToStack
      (c.executor.stackStep inst + inst.released) (c.executor.popInto inst g))) :
    sp (c.written (c.executor.addToStack (c.executor.stackStep inst + inst.released)
      (c.executor.popInto inst g)) pc e) =
        c.executor.gpr (c.executor.popInto inst g) .rsp + BitVec.ofNat _ (cellBytes inst) := by
  rw [h.toStackOperand.sp_written hg he, h.gpr_moved, if_pos rfl]

/-- The cell that a register pops. -/
theorem PopsTo.popInto_register (h : c.PopsTo inst i) (hform : inst.iform ≠ .popMEMv)
    (hg : c.Ready e inst g) :
    c.executor.popInto inst g = c.executor.writeGPR (inst.reg .reg0) (topCell inst e) g := by
  have hmem := h.toStackOperand.mem_eq hg
  have hplain := h.plainPop
  have huse := h.form
  unfold Executor.popInto
  cases hf : inst.iform <;> rw [hf] at hplain huse <;> cases hplain
  case popMEMv => exact absurd hf hform
  all_goals
    cases huse
    rw [hmem]
    rfl

/-- **A register** gets the cell, unless it is moved with the stack pointer. -/
theorem PopsTo.register_iff (h : c.PopsTo inst i) (hform : inst.iform ≠ .popMEMv)
    (hg : c.Ready e inst g) {nextPC pc : Word}
    (he : c.executor.emulate inst nextPC g = .emulated pc (c.executor.addToStack
      (c.executor.stackStep inst + inst.released) (c.executor.popInto inst g))) :
    c.PopDelivers inst e (c.written (c.executor.addToStack
        (c.executor.stackStep inst + inst.released) (c.executor.popInto inst g)) pc e) ↔
      (inst.reg .reg0).family ≠ some .rsp := by
  obtain ⟨hfamily, op, hop, hname, hwritten⟩ := h.register hform
  obtain ⟨f, hf⟩ := Option.isSome_iff_exists.mp hfamily
  have hsp := h.sp_eq hg he
  rw [h.popInto_register hform hg] at hsp he ⊢
  rw [c.executor.gpr_writeGPR hf] at hsp
  have hdelivers (e' : Flat c.width) : c.PopDelivers inst e e' ↔
      c.gpr e' f = (inst.reg .reg0).merge (if f = .rsp then behindCell inst e else c.gpr e f)
        (topCell inst e) ∧ (f ≠ .rsp → sp e' = behindCell inst e) := by
    unfold PopDelivers
    rw [hf]
    split
    · contradiction
    · exact ⟨fun hall => hall f rfl, fun hone r hr => Option.some.inj hr ▸ hone⟩
  rw [hdelivers, hf]
  by_cases hrsp : f = .rsp
  · subst hrsp
    rw [if_pos rfl, h.toStackOperand.gpr_rsp hg] at hsp
    rw [if_pos rfl]
    have hne := merge_add_ne (Nat.le_trans (by decide) c.addrSize.le_bits) hf (sp e)
      (behindCell inst e) (topCell inst e) (k := cellBytes inst)
      (by rcases h.width with hw | hw | hw <;> simp [cellBytes, hw])
    refine iff_of_false (fun hgot => hne ?_) (by simp)
    rw [← hgot.1]
    exact hsp.symm
  · refine iff_of_true ⟨?_, fun _ => ?_⟩ (by simpa using hrsp)
    · have hmeant : (inst.reg .reg0).meant.family = some f := by rw [Reg.meant_of_family hf, hf]
      rw [hg.gpr_written_operand he hop hname hmeant (.inl hwritten), h.gpr_moved, if_neg hrsp,
        c.executor.gpr_writeGPR hf, if_pos rfl, if_neg hrsp, hg.gpr_operand hop hname hmeant]
    · rw [hsp, if_neg (Ne.symm hrsp), h.toStackOperand.gpr_rsp hg]
      rfl

/-! ### memory -/

theorem gpr_view (e : Flat c.width) (r : Gpr) : c.executor.gpr (c.view e) r = c.gpr e r := by
  have hwide : c.executor.wide r = c.executor.slotName (.gpr64 r) :=
    Executor.widestRegister_scalar (show (Reg.gpr32 r).isScalar = true from rfl)
  rw [Executor.gpr, FlatMachine.gpr, hwide]
  rfl

theorem sp_withSP (x : BitVec c.width) (e : Flat c.width) : sp (c.withSP x e) = x := by
  have hreg : (c.withSP x e).regs (c.executor.wide .rsp) = x.setWidth 512 := Function.update_self _ _ _
  rw [sp, FlatMachine.gpr, hreg,
    BitVec.setWidth_setWidth_of_le _ (Nat.le_trans c.addrSize.bits_le (by decide)),
    BitVec.setWidth_eq]

/-- Other registers do not see the stack pointer change. -/
theorem readGPR_withSP {reg : Reg} (h : reg.family ≠ some .rsp) (x : BitVec c.width)
    (e : Flat c.width) :
    c.executor.readGPR reg (c.view (c.withSP x e)) = c.executor.readGPR reg (c.view e) := by
  have hname : c.executor.slotName reg.largestEnclosing ≠ c.executor.wide .rsp := by
    rw [Executor.wide_eq, Executor.slotName]
    cases c.executor.addrSize <;> cases reg <;>
      simp_all [Reg.family, Reg.largestEnclosing, Reg.largestEnclosing32]
  have hslot : (c.view (c.withSP x e)).regs reg.largestEnclosing =
      (c.view e).regs reg.largestEnclosing := Function.update_of_ne hname _ _
  simp only [Executor.readGPR, Globals.readGPR, Globals.readValue, hslot]

/-- Moving a base register and moving its displacement lead to the same address. -/
theorem truncateAddress_part {a : Nat} {reg : Reg} {r : Gpr} (hr : reg.family = some r)
    (hl : c.executor.IsLegal reg) (hw : c.executor.width reg = a) (h8 : a ≠ 8)
    (x : BitVec c.width) (k : Nat) (y d : Word) :
    Executor.truncateAddress a (reg.part x + y + (d + BitVec.ofNat 64 k)) =
      Executor.truncateAddress a (reg.part (x + BitVec.ofNat _ k) + y + d) := by
  have hle : a ≤ c.width := hw ▸ hl
  have h64 : a ≤ 64 := Nat.le_trans hle c.addrSize.bits_le
  have hcases : (reg = .gpr64 r ∧ a = 64) ∨ (reg = .gpr32 r ∧ a = 32) ∨ (reg = .gpr16 r ∧ a = 16) := by
    cases reg <;> cases hr <;> simp_all [Executor.width, Reg.widthBits64]
  have hpart (z : BitVec c.width) : (reg.part z).setWidth a = z.setWidth a := by
    rcases hcases with ⟨rfl, rfl⟩ | ⟨rfl, rfl⟩ | ⟨rfl, rfl⟩
    · exact BitVec.setWidth_eq _
    · rw [Reg.part, BitVec.setWidth_setWidth_of_le _ (by decide), BitVec.setWidth_eq]
    · rw [Reg.part, BitVec.setWidth_setWidth_of_le _ (by decide), BitVec.setWidth_eq]
  have hcongr : (reg.part x + y + (d + BitVec.ofNat 64 k)).setWidth a =
      (reg.part (x + BitVec.ofNat _ k) + y + d).setWidth a := by
    simp only [BitVec.setWidth_add _ _ h64, hpart, BitVec.setWidth_add _ _ hle,
      BitVec.setWidth_ofNat_of_le h64, BitVec.setWidth_ofNat_of_le hle]
    ring
  rcases hcases with ⟨-, rfl⟩ | ⟨-, rfl⟩ | ⟨-, rfl⟩
  · simpa [Executor.truncateAddress] using hcongr
  · exact congrArg (BitVec.setWidth 64) hcongr
  · exact congrArg (BitVec.setWidth 64) hcongr

/-- The address of the destination is that after the stack pointer has moved. -/
theorem PopsTo.address_eq (h : c.PopsTo inst i) (hform : inst.iform = .popMEMv)
    (hg : c.Ready e inst g) :
    c.effectiveAddress inst 0 g =
      c.plainAddress inst 0 (c.view (c.withSP (behindCell inst e) e)) := by
  obtain ⟨hbase, hbase', hindex, hindex', -, -, hnotSP, hwidth⟩ := h.memory hform
  have hlt : (0 : Fin 2).val < inst.memoryOperands.length := by
    rw [h.last]
    exact Nat.succ_pos _
  obtain ⟨hreadBase, hreadIndex⟩ := hg.requested.memory 0 hlt
  have hadjustment : c.executor.adjustment inst 0 =
      if (inst.memOperand 0).baseReg.largestEnclosing = .gpr64 .rsp then Executor.opSizeBytes inst
      else 0 := by
    unfold Executor.adjustment Executor.adjustDisplacement
    rw [hform]
    exact apply_ite Prod.fst _ _ _
  rw [effectiveAddress, plainAddress, Executor.memBase, Executor.memBase,
    hg.readGPR_operand hbase hbase' hreadBase, hg.readGPR_operand hindex hindex' hreadIndex,
    readGPR_withSP hnotSP, hadjustment]
  by_cases hrsp : (inst.memOperand 0).baseReg.family = some .rsp
  · obtain ⟨hw, h8⟩ := hwidth hrsp
    have hnotPC : ¬((inst.memOperand 0).baseReg = .eip ∨ (inst.memOperand 0).baseReg = .rip) := by
      rintro (hr | hr) <;> rw [hr] at hrsp <;> cases hrsp
    have hl : c.executor.IsLegal (inst.memOperand 0).baseReg := by
      have hle := hbase.2.2
      rwa [Executor.widestRegister_of_family hrsp, Executor.width_wide] at hle
    rw [if_neg hnotPC, if_neg hnotPC, if_pos (Reg.largestEnclosing_of_family hrsp),
      c.executor.readGPR_eq_part hrsp hl, c.executor.readGPR_eq_part hrsp hl, gpr_view, gpr_view]
    have hsp : c.gpr (c.withSP (behindCell inst e) e) .rsp = behindCell inst e := sp_withSP _ e
    rw [hsp]
    exact truncateAddress_part hrsp hl hw h8 _ _ _ _
  · have hother : (inst.memOperand 0).baseReg.largestEnclosing ≠ .gpr64 .rsp := by
      intro henc
      apply hrsp
      revert henc
      cases (inst.memOperand 0).baseReg <;> simp [Reg.largestEnclosing, Reg.family]
    rw [if_neg hother, readGPR_withSP hrsp, add_zero]

/-- **Memory** gets the cell. -/
theorem PopsTo.memory_delivered (h : c.PopsTo inst i) (hform : inst.iform = .popMEMv)
    (hg : c.Ready e inst g) {nextPC pc : Word}
    (he : c.executor.emulate inst nextPC g = .emulated pc (c.executor.addToStack
      (c.executor.stackStep inst + inst.released) (c.executor.popInto inst g))) :
    c.PopDelivers inst e (c.written (c.executor.addToStack
        (c.executor.stackStep inst + inst.released) (c.executor.popInto inst g)) pc e) := by
  have huse := h.form
  rw [hform] at huse
  cases huse
  have hpop : c.executor.popInto inst g = g.setMem 0 (topCell inst e) := by
    have hmem : g.mem 1 = topCell inst e := h.toStackOperand.mem_eq hg
    unfold Executor.popInto
    rw [hform, ← hmem]
  have hsp := h.sp_eq hg he
  obtain ⟨-, -, -, -, hlength, ⟨op, hop, hwritten⟩, -⟩ := h.memory hform
  have hcell := hg.cells 0
  rw [hop] at hcell
  obtain ⟨-, hback, -⟩ := h.toStackOperand.cellRead hg
  have hplaces (j : Fin 2) := congrFun (c.executor.places_of_emulated he) j
  have hone (j : Fin 2) := (congrArg (fun p : Place => p.present && p.writeBack) (hplaces j)).trans
    (show ((g.memory j).present && (g.memory j).writeBack) = decide (j = 0) by
      obtain rfl | rfl := eq_zero_or_one j
      · simp [hcell.present, hcell.writeBack, hwritten]
      · simp [hback])
  obtain ⟨hmem, -⟩ := written_one hone pc e
  have haddr := (congrArg Place.address (hplaces 0)).trans
    (hcell.address.trans (h.address_eq hform hg))
  have hsize := (congrArg Place.size (hplaces 0)).trans hcell.size
  simp only [Globals.places, Cell.place] at haddr hsize
  rw [haddr, hsize, hlength, Nat.mul_div_cancel_left _ (by decide : 0 < 8)] at hmem
  rw [hpop] at hmem hsp ⊢
  unfold PopDelivers
  rw [hform]
  refine ⟨hmem.trans (ByteMemory.store_eq_of_bits fun k hk => ?_), ?_⟩
  · have h64 := h.toStackOperand.cellBytes_le
    rw [Executor.memory_addToStack, Globals.setMem, Globals.setData, Globals.memory_setCell_self,
      Bits.getLsbD_put _ _ _ _ _ (by omega), if_pos (by omega)]
    rfl
  · rw [hsp, Executor.gpr_setMem, h.toStackOperand.gpr_rsp hg]
    rfl

/-- **`POP` delivers the cell**, except to a register in the stack pointer. -/
theorem pop_delivers_iff (h : c.PopsTo inst i) (hd : c.Decodes w.env inst) :
    ∃ w', c.Step w w' ∧ (c.PopDelivers inst w.env w'.env ↔
      (inst.iform = .popMEMv ∨ (inst.reg .reg0).family ≠ some .rsp)) := by
  obtain ⟨g, hg, pc, w', hstep, he, henv⟩ := h.toStackOperand.pop_flat hd
  refine ⟨w', hstep, ?_⟩
  rw [henv]
  by_cases hform : inst.iform = .popMEMv
  · exact iff_of_true (h.memory_delivered hform hg he) (.inl hform)
  · rw [h.register_iff hform hg he]
    simp [hform]

/-! ### samples -/

theorem popsTo_stackInst {insts : Byte → Option Inst} {f : Gpr} :
    (sample .x64 insts).PopsTo (stackInst .popGPRv58 .pop 64 (.gpr64 f)) 0 where
  toStackOperand :=
    { plain :=
        { supported := rfl
          notNop := rfl
          operand := by
            intro op hop x hname
            simp [stackInst, Inst.scalar, Operand.register] at hop
            rcases hop with rfl | rfl | rfl <;> cases hname <;> exact ⟨rfl, fun h => by cases h⟩
          base := fun _ => ⟨rfl, fun h => by cases h⟩
          index := fun _ => ⟨rfl, fun h => by cases h⟩
          noBitOp := by
            intro op lock
            constructor <;> exact fun h => by cases h
          usualOrder := .tail _ (.tail _ (.head _)) }
      form := rfl
      width := .inr (.inr rfl)
      pointer := ⟨.register .reg1 true, by simp [stackInst, Inst.scalar], .reg1, rfl, rfl⟩
      cell := ⟨_, rfl, (fun h => by cases h), rfl⟩
      last := rfl
      base := rfl
      index := rfl
      displacement := rfl
      addressWidth := rfl
      length := rfl }
  plainPop := rfl
  register _ := ⟨rfl, .register .reg0 true, by simp [stackInst, Inst.scalar], rfl, rfl⟩
  memory := fun h => by cases h

/-- `POP RSP`, and `POP RBX`. -/
def popRsp : Inst := stackInst .popGPRv58 .pop 64 (.gpr64 .rsp)

def popRbx : Inst := stackInst .popGPRv58 .pop 64 (.gpr64 .rbx)

/-- **`POP RSP`** leaves 8 where the popped 0 is to be. -/
theorem pop_rsp : ¬∀ (c : FlatMachine) (inst : Inst) (i : Fin 2) (w w' : World (Flat c.width)),
    c.PopsTo inst i → c.Decodes w.env inst → c.Step w w' → c.PopDelivers inst w.env w'.env := by
  intro h
  have hpop : (oneInst popRsp).PopsTo popRsp 0 := popsTo_stackInst
  have hd : (oneInst popRsp).Decodes (zeroStart (oneInst popRsp)).env popRsp := decodes_sample rfl
  obtain ⟨g, hg, pc, w', hstep, he, henv⟩ := hpop.toStackOperand.pop_flat hd
  have hdelivers := h _ _ _ _ _ hpop hd hstep
  rw [henv, hpop.register_iff (fun h => by cases h) hg he] at hdelivers
  exact hdelivers rfl

theorem pop_delivers_iff_rbx : ∃ w', (oneInst popRbx).Step (zeroStart (oneInst popRbx)) w' ∧
    (oneInst popRbx).PopDelivers popRbx (zeroStart (oneInst popRbx)).env w'.env := by
  obtain ⟨w', hstep, hiff⟩ := pop_delivers_iff (w := zeroStart (oneInst popRbx)) popsTo_stackInst
    (decodes_sample rfl)
  exact ⟨w', hstep, hiff.mpr (.inr (by decide))⟩

end FlatMachine

end Microx
