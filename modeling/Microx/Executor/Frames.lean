import Microx.Executor.Nesting

/-!
# Microx.Executor.Frames

Procedure activations: `CALL`, `PUSH` of the frame pointer, a frame, `LEAVE` and
`RET`.

`LEAVE` restores the frame pointer from the cell it points to, and sets the
stack pointer to that cell, not behind it.  So the `RET` that follows takes the
saved frame pointer for its return address.
-/

namespace Microx

namespace FlatMachine

variable {c : FlatMachine} {inst : Inst} {w w' : World (Flat c.width)} {g g' : Globals} {r : Gpr}

/-! ## LEAVE -/

/-- `LEAVE`, as XED lists it: the frame pointer, the stack pointer, and the cell at the frame
pointer. -/
structure IsLeave (c : FlatMachine) (inst : Inst) : Prop where
  plain : c.Plain inst
  form : inst.iform = .leave
  frame : inst.reg .reg0 = c.executor.wide .rbp
  stack : inst.reg .reg1 = c.executor.wide .rsp
  writesFrame : ∃ op ∈ inst.operands, op.name = .reg .reg0 ∧ op.written = true
  writesStack : ∃ op ∈ inst.operands, op.name = .reg .reg1 ∧ op.written = true
  cell : ∃ op, inst.memoryOperands = [op] ∧ op.name ≠ .agen ∧ op.written = false
  base : (inst.memOperand 0).baseReg = c.executor.wide .rbp
  index : (inst.memOperand 0).indexReg = .invalid
  displacement : (inst.memOperand 0).displacement = 0
  addressWidth : (inst.memOperand 0).addressWidth = c.width
  length : (inst.memOperand 0).length = c.slot

/-- The frame pointer. -/
def bp (e : Flat c.width) : BitVec c.width := c.gpr e .rbp

/-- What the emulated `LEAVE` does. -/
structure Leaves (c : FlatMachine) (inst : Inst) (w w' : World (Flat c.width)) : Prop where
  step : c.Step w w'
  pointer : sp w'.env = bp w.env
  frame : bp w'.env = ByteMemory.load w.env.mem (bp w.env) c.slot
  mem : w'.env.mem = w.env.mem
  pc : FlatMachine.pc c w'.env = c.behind inst w.env

theorem leave_step (h : c.IsLeave inst) (hd : c.Decodes w.env inst) :
    ∃ w', c.Leaves inst w w' := by
  obtain ⟨g, hg, hrun⟩ := step_flat h.plain hd
  obtain ⟨op, hcell, hname, hread⟩ := h.cell
  obtain ⟨op₀, hop₀, hname₀, hback₀⟩ := h.writesFrame
  obtain ⟨op₁, hop₁, hname₁, hback₁⟩ := h.writesStack
  have hfam {x : RegOp} {r : Gpr} (hx : inst.reg x = c.executor.wide r) :
      (inst.reg x).meant.family = some r := by
    rw [hx, Reg.meant_of_family (c.executor.wide_family r), c.executor.wide_family]
  have hbp : c.executor.gpr g .rbp = bp w.env := hg.gpr_operand hop₀ hname₀ (hfam h.frame)
  have he : c.executor.emulate inst (c.executor.getNextPC inst g) g =
      .emulated (c.executor.truncatePC (c.executor.getNextPC inst g))
        (c.executor.writeGPR (c.executor.wide .rbp) (g.mem 0)
          (c.executor.writeGPR (c.executor.wide .rsp)
            (c.executor.readGPR (c.executor.wide .rbp) g) g)) := by
    unfold Executor.emulate
    rw [h.form, h.frame, h.stack]
  obtain ⟨w', hstep, henv, -⟩ := hrun _ _ he
  -- The cell is the slot at the frame pointer, and it is not written back.
  have h0 := hg.cells 0
  have h1 := hg.cells 1
  have hsome : inst.memoryOperands[(0 : Fin 2).val]? = some op := by rw [hcell]; rfl
  have hnone : inst.memoryOperands[(1 : Fin 2).val]? = none := by rw [hcell]; rfl
  rw [hsome] at h0
  rw [hnone] at h1
  have haddr : (g.memory 0).address = (bp w.env).setWidth 64 := by
    have hadj : (c.executor.adjustment inst 0).setWidth c.width = 0 := by
      unfold Executor.adjustment Executor.adjustDisplacement
      rw [h.form]
      exact c.addrSize.setWidth_zero
    rw [h0.address, effectiveAddress_wide h.base h.index h.displacement h.addressWidth, hbp, hadj]
    exact congrArg _ (BitVec.add_zero _)
  have hmem : (g.mem 0).setWidth c.width = ByteMemory.load w.env.mem (bp w.env) c.slot := by
    rw [Globals.mem, h0.data hname, haddr, h.length, Flat.load, AddressSize.setWidth_setWidth,
      ByteMemory.setWidth_load (by decide)]
    exact ByteMemory.setWidth_load c.addrSize.bits_le
  refine ⟨w', hstep, ?_, ?_, ?_, ?_⟩
  · rw [sp, henv, hg.gpr_written_operand he hop₁ hname₁ (hfam h.stack) (.inl hback₁)]
    simp [hbp, Executor.readGPR_wide]
  · rw [bp, henv, hg.gpr_written_operand he hop₀ hname₀ (hfam h.frame) (.inl hback₀), ← hmem]
    simp
  · rw [henv]
    have hback := h0.writeBack.trans hread
    simp [written, storeCell, hback, h1]
  · rw [henv, pc_written, setWidth_truncatePC, hg.setWidth_getNextPC]

/-! ## activations -/

/-- The frame pointer is set to the stack pointer, by an instruction of the processor's. -/
structure SetsFrame (c : FlatMachine) (w w' : World (Flat c.width)) : Prop where
  frame : bp w'.env = sp w.env
  pointer : sp w'.env = sp w.env
  mem : w'.env.mem = w.env.mem

/-- Whatever else a body does: it leaves the frame pointer and the saved slots alone. -/
structure Changes (c : FlatMachine) (saved : BitVec c.width → Prop) (w w' : World (Flat c.width)) :
    Prop where
  frame : bp w'.env = bp w.env
  mem : ∀ a, saved a → w'.env.mem a = w.env.mem a

/-- The instructions of an activation: `call` at `w`, `push` at `w₁`, the frame at `w₂`, the body
from `w₃` to `w₄`, `leave` at `w₄` and `ret` at `w₅`. -/
structure Activation (c : FlatMachine) (call : Inst) (w w₁ w₂ w₃ w₄ w₅ w₆ : World (Flat c.width)) :
    Prop where
  isCall : c.IsCall call ∧ c.Decodes w.env call ∧ c.Step w w₁
  isPush : ∃ push, c.IsPush push .rbp ∧ c.Decodes w₁.env push ∧ c.Step w₁ w₂
  sets : c.SetsFrame w₂ w₃
  isLeave : ∃ leave, c.IsLeave leave ∧ c.Decodes w₄.env leave ∧ c.Step w₄ w₅
  isRet : ∃ ret, c.IsRet ret ∧ c.Decodes w₅.env ret ∧ c.Step w₅ w₆

/-- The slots an activation that is called at `w` saves the return address and the frame pointer
in. -/
def savedSlots (w : World (Flat c.width)) (a : BitVec c.width) : Prop :=
  ByteMemory.Below (sp w.env) (2 * c.slot) a

/-- What goes on between the frame of an activation and its `LEAVE`, where the slots in `saved` are
not overwritten: changes, and further activations. -/
inductive Body (c : FlatMachine) :
    (BitVec c.width → Prop) → World (Flat c.width) → World (Flat c.width) → Prop where
  | done (saved w) : Body c saved w w
  | change {saved w w' w''} (h : c.Changes saved w w') (rest : Body c saved w' w'') :
      Body c saved w w''
  | activation {saved call w w₁ w₂ w₃ w₄ w₅ w₆ w'} (h : c.Activation call w w₁ w₂ w₃ w₄ w₅ w₆)
      (hfree : ∀ a, savedSlots w a → ¬saved a)
      (body : Body c (fun a => saved a ∨ savedSlots w a) w₃ w₄) (rest : Body c saved w₆ w') :
      Body c saved w w'

/-- An activation that unwinds: the `RET` goes behind the `CALL`, and both pointers are as they
were. -/
structure Unwinds (c : FlatMachine) (call : Inst) (w w₆ : World (Flat c.width)) : Prop where
  ret : c.pc w₆.env = c.behind call w.env
  pointer : sp w₆.env = sp w.env
  frame : bp w₆.env = bp w.env

/-- What an activation does instead: the `RET` goes where the frame pointer pointed to, and one
slot stays on the stack. -/
structure Strays (c : FlatMachine) (w w₆ : World (Flat c.width)) : Prop where
  ret : c.pc w₆.env = bp w.env
  pointer : sp w₆.env = sp w.env - BitVec.ofNat _ c.slot
  frame : bp w₆.env = bp w.env

variable {call : Inst} {w₁ w₂ w₃ w₄ w₅ w₆ : World (Flat c.width)} {saved : BitVec c.width → Prop}

/-- The two slots of an activation after the frame was set. -/
theorem Activation.entry (h : c.Activation call w w₁ w₂ w₃ w₄ w₅ w₆) :
    bp w₃.env = sp w.env - BitVec.ofNat _ c.slot - BitVec.ofNat _ c.slot ∧
      ByteMemory.load w₃.env.mem (bp w₃.env) c.slot = bp w.env ∧
      ∀ a, ¬savedSlots w a → w₃.env.mem a = w.env.mem a := by
  obtain ⟨hcall, hd, hs⟩ := h.isCall
  obtain ⟨push, hpush, hd₁, hs₁⟩ := h.isPush
  have h₁ := hcall.saved hd hs
  have h₂ := hpush.saved hd₁ hs₁
  have hbp : c.gpr w₁.env .rbp = bp w.env := h₁.others .rbp (by decide)
  have hframe : bp w₃.env = sp w₂.env := h.sets.frame
  refine ⟨by rw [hframe, h₂.pointer, h₁.pointer], ?_, fun a ha => ?_⟩
  · rw [hframe, h.sets.mem, h₂.mem, hbp]
    change ByteMemory.load (ByteMemory.store _ (sp w₂.env) _ _) (sp w₂.env) _ = _
    rw [ByteMemory.load_store c.slot_le, c.bits_slot, Bits.low_of_le (Nat.le_refl _)]
  · have h₁' : ¬ByteMemory.Below (sp w₁.env) c.slot a := by
      intro hb
      rw [h₁.pointer] at hb
      exact ha (hb.lower.mono (by omega))
    rw [h.sets.mem, h₂.outside h₁', h₁.outside fun hb => ha (hb.mono (by omega))]

/-- An activation whose body keeps the slots. -/
theorem Activation.strays (h : c.Activation call w w₁ w₂ w₃ w₄ w₅ w₆)
    (hframe : bp w₄.env = bp w₃.env) (hmem : ∀ a, savedSlots w a → w₄.env.mem a = w₃.env.mem a) :
    c.Strays w w₆ ∧ w₆.env.mem = w₄.env.mem := by
  obtain ⟨hbp, hload, -⟩ := h.entry
  obtain ⟨leave, hleave, hd₄, hs₄⟩ := h.isLeave
  obtain ⟨ret, hret, hd₅, hs₅⟩ := h.isRet
  obtain ⟨w₅', hl⟩ := leave_step hleave hd₄
  obtain rfl := hs₄.unique hl.step
  obtain ⟨hreleased, hpc, hothers⟩ := hret.released hd₅ hs₅
  -- The frame pointer is saved in the lower slot, and `LEAVE` lets the stack pointer point to it.
  have hslot : ByteMemory.load w₄.env.mem (bp w₃.env) c.slot = bp w.env := by
    rw [← hload]
    apply ByteMemory.load_congr
    intro k hk
    apply hmem
    have hoff : bp w₃.env + BitVec.ofNat _ k - bp w₃.env = BitVec.ofNat _ k := by ring
    have hlt : (bp w₃.env + BitVec.ofNat _ k - bp w₃.env).toNat < c.slot := by
      rw [hoff, BitVec.toNat_ofNat]
      exact Nat.lt_of_le_of_lt (Nat.mod_le _ _) hk
    have hb := ByteMemory.below_of_lt hlt
    have hup : bp w₃.env + BitVec.ofNat _ c.slot = sp w.env - BitVec.ofNat _ c.slot := by
      rw [hbp]
      ring
    rw [hup] at hb
    exact hb.lower.mono (by omega)
  refine ⟨⟨?_, ?_, ?_⟩, hreleased.mem.trans hl.mem⟩
  · rw [hpc, top, hl.mem, hl.pointer, hframe, hslot]
  · rw [hreleased.pointer, hl.pointer, hframe, hbp]
    ring
  · have hkept : bp w₆.env = bp w₅.env := hothers .rbp (by decide)
    rw [hkept, hl.frame, hframe, hslot]

/-- A body keeps the frame pointer and the slots. -/
theorem Body.keeps (h : c.Body saved w w') :
    bp w'.env = bp w.env ∧ ∀ a, saved a → w'.env.mem a = w.env.mem a := by
  induction h with
  | done saved w => exact ⟨rfl, fun _ _ => rfl⟩
  | change h _ ih =>
      exact ⟨ih.1.trans h.frame, fun a ha => (ih.2 a ha).trans (h.mem a ha)⟩
  | @activation saved call w w₁ w₂ w₃ w₄ w₅ w₆ w' h hfree _ _ ihBody ihRest =>
      obtain ⟨hstrays, hmem⟩ := h.strays ihBody.1 fun a ha => ihBody.2 a (.inr ha)
      refine ⟨ihRest.1.trans hstrays.frame, fun a ha => ?_⟩
      have hnot : ¬savedSlots w a := fun hs => hfree a hs ha
      rw [ihRest.2 a ha, hmem, ihBody.2 a (.inl ha), h.entry.2.2 a hnot]

/-- No activation unwinds. -/
theorem activation_never_unwinds (h : c.Activation call w w₁ w₂ w₃ w₄ w₅ w₆)
    (hbody : c.Body (fun a => saved a ∨ savedSlots w a) w₃ w₄) :
    ¬c.Unwinds call w w₆ ∧ c.Strays w w₆ := by
  have hkeeps := hbody.keeps
  obtain ⟨hstrays, -⟩ := h.strays hkeeps.1 fun a ha => hkeeps.2 a (.inr ha)
  refine ⟨fun hunwinds => ?_, hstrays⟩
  have heq : sp w.env - BitVec.ofNat _ c.slot = sp w.env :=
    hstrays.pointer.symm.trans hunwinds.pointer
  exact c.ofNat_slot_ne_zero (sub_eq_self.mp heq)

/-! ### an activation without a body -/

/-- `PUSH RBP` and `LEAVE`. -/
def pushRbp : Inst := stackInst .pushGPRv50 .push 64 (.gpr64 .rbp)

def leave : Inst :=
  .scalar .leave 2 64
    [.register .reg0 true, .register .reg1 true, ⟨.mem0, true, false, false, .suppressed⟩]
    (fun x => if x = .reg0 then .gpr64 .rbp else .gpr64 .rsp)
    (fun _ => ⟨.seg .ss, .gpr64 .rbp, .invalid, 0, 0, 64, 8⟩) 0

/-- They are known by the address they are at. -/
def frameInsts (b : Byte) : Option Inst :=
  if b = 0 then some callNext
  else if b = 2 then some pushRbp
  else if b = 6 then some leave
  else some retNear

def frameMachine : FlatMachine := .sample .x64 frameInsts

/-- Every byte is its address. -/
def frameStart : World (Flat frameMachine.width) :=
  .start ⟨fun _ => 0, fun _ => false, fun a => a.setWidth 8⟩

/-- The frame is set, and `LEAVE` is next. -/
def setFrame (w : World (Flat frameMachine.width)) : World (Flat frameMachine.width) :=
  { w with env := { w.env with
      regs := Function.update (Function.update w.env.regs .rip 6) (.gpr64 .rbp)
        (w.env.regs (.gpr64 .rsp)) } }

theorem isLeave_leave : frameMachine.IsLeave leave where
  plain :=
    { supported := rfl
      notNop := rfl
      operand := by
        intro op hop x hname
        simp [leave, Inst.scalar, Operand.register] at hop
        rcases hop with rfl | rfl | rfl <;> cases hname <;> exact ⟨rfl, fun h => by cases h⟩
      base := fun _ => ⟨rfl, fun h => by cases h⟩
      index := fun _ => ⟨rfl, fun h => by cases h⟩
      noBitOp := by
        intro op lock
        exact ⟨(fun h => by cases h), fun h => by cases h⟩
      usualOrder := .tail _ (.tail _ (.head _)) }
  form := rfl
  frame := rfl
  stack := rfl
  writesFrame := ⟨_, .head _, rfl, rfl⟩
  writesStack := ⟨_, .tail _ (.head _), rfl, rfl⟩
  cell := ⟨_, rfl, (fun h => by cases h), rfl⟩
  base := rfl
  index := rfl
  displacement := rfl
  addressWidth := rfl
  length := rfl

theorem setsFrame_setFrame (w : World (Flat frameMachine.width)) :
    frameMachine.SetsFrame w (setFrame w) :=
  ⟨rfl, rfl, rfl⟩

/-- The worlds of a call with an empty body: an instruction leads to the next, but for the third. -/
def frameWorld : Nat → World (Flat frameMachine.width)
  | 0 => frameStart
  | 3 => setFrame (frameWorld 2)
  | n + 1 => frameMachine.after (frameWorld n)

theorem frame_decodes {n : Nat} {b : Byte} {inst : Inst}
    (hmem : (frameWorld n).env.mem (frameMachine.pc (frameWorld n).env) = b)
    (h : frameInsts b = some inst) : frameMachine.Decodes (frameWorld n).env inst :=
  decodes_sample ((congrArg frameInsts hmem).trans h)

theorem frame_activation : frameMachine.Activation callNext frameStart (frameWorld 1) (frameWorld 2)
    (frameWorld 3) (frameWorld 3) (frameWorld 4) (frameWorld 5) := by
  have hd₀ : frameMachine.Decodes (frameWorld 0).env callNext :=
    frame_decodes (b := 0) (by decide +kernel) rfl
  have hd₁ : frameMachine.Decodes (frameWorld 1).env pushRbp :=
    frame_decodes (b := 2) (by decide +kernel) rfl
  have hd₃ : frameMachine.Decodes (frameWorld 3).env leave :=
    frame_decodes (b := 6) (by decide +kernel) rfl
  have hd₄ : frameMachine.Decodes (frameWorld 4).env retNear :=
    frame_decodes (b := 8) (by decide +kernel) rfl
  obtain ⟨w₅, hleave⟩ := leave_step isLeave_leave hd₃
  have hpush : frameMachine.IsPush pushRbp .rbp := isPush_stackInst
  constructor
  · exact ⟨isCall_callNext, hd₀, step_after (usesSlot_callNext.stack.steps hd₀)⟩
  · exact ⟨pushRbp, hpush, hd₁, step_after (hpush.slot.stack.steps hd₁)⟩
  · exact setsFrame_setFrame (frameWorld 2)
  · exact ⟨leave, isLeave_leave, hd₃, step_after ⟨w₅, hleave.step⟩⟩
  · exact ⟨retNear, isRet_retNear, hd₄, step_after (isRet_retNear.slot.stack.steps hd₄)⟩

theorem activation_strays : ¬∀ (c : FlatMachine) (call : Inst)
    (w w₁ w₂ w₃ w₄ w₅ w₆ : World (Flat c.width)), c.Activation call w w₁ w₂ w₃ w₄ w₅ w₆ →
    c.Body (savedSlots w) w₃ w₄ → c.Unwinds call w w₆ := by
  intro h
  have hunwinds := h _ _ _ _ _ _ _ _ _ frame_activation (.done _ _)
  obtain ⟨hstrays, -⟩ := frame_activation.strays rfl fun _ _ => rfl
  exact frameMachine.ofNat_slot_ne_zero
    (sub_eq_self.mp (hstrays.pointer.symm.trans hunwinds.pointer))

/-- The call returns to address zero, where the frame pointer pointed to. -/
theorem activation_never_unwinds_once :
    frameMachine.Activation callNext frameStart (frameWorld 1) (frameWorld 2) (frameWorld 3)
        (frameWorld 3) (frameWorld 4) (frameWorld 5) ∧
      ¬frameMachine.Unwinds callNext frameStart (frameWorld 5) ∧
      frameMachine.Strays frameStart (frameWorld 5) := by
  have hbody : frameMachine.Body (fun a => False ∨ savedSlots frameStart a) (frameWorld 3)
      (frameWorld 3) := .done _ _
  exact ⟨frame_activation, activation_never_unwinds frame_activation hbody⟩

end FlatMachine

end Microx
