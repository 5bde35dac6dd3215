import Microx.Executor.Stack

/-!
# Microx.Executor.Nesting

Well-bracketed runs of calls, returns, pushes and pops.

What is between two brackets writes only below the stack pointer it started
with, no further than its nesting is deep.  So the slot a bracket opened with is
the one it closes with.
-/

namespace Microx

namespace FlatMachine

variable {c : FlatMachine} {inst : Inst} {i : Fin 2} {w w' : World (Flat c.width)} {g g' : Globals}
  {r : Gpr}

/-! ## one bracket -/

/-- The size of a slot, in bytes. -/
def slot (c : FlatMachine) : Nat := c.width / 8

/-- An instruction that uses the stack, with the default operand size. -/
structure UsesSlot (c : FlatMachine) (inst : Inst) (use : StackUse) (i : Fin 2) : Prop where
  stack : c.UsesStack inst use i
  default : inst.operandWidth = c.width

/-- `CALL_NEAR`. -/
structure IsCall (c : FlatMachine) (inst : Inst) : Prop where
  slot : ∃ i, c.UsesSlot inst .push i
  form : inst.iform ∈ [.callNearRELBRz, .callNearRELBRd, .callNearGPRv, .callNearMEMv]

/-- `RET_NEAR`. -/
structure IsRet (c : FlatMachine) (inst : Inst) : Prop where
  slot : c.UsesSlot inst .pop 0
  form : inst.iform = .retNear

/-- `PUSH_GPRv`. -/
structure IsPush (c : FlatMachine) (inst : Inst) (r : Gpr) : Prop where
  slot : c.UsesSlot inst .push 0
  form : inst.iform ∈ [.pushGPRvFFr6, .pushGPRv50]
  source : inst.reg .reg0 = c.executor.wide r
  operand : ∃ op ∈ inst.operands, op.name = .reg .reg0

/-- `POP_GPRv`, not to the stack pointer. -/
structure IsPop (c : FlatMachine) (inst : Inst) (r : Gpr) : Prop where
  slot : c.UsesSlot inst .pop 0
  form : inst.iform ∈ [.popGPRv8F, .popGPRv58]
  target : inst.reg .reg0 = c.executor.wide r
  operand : ∃ op ∈ inst.operands, op.name = .reg .reg0 ∧ op.written = true
  notStack : r ≠ .rsp

theorem UsesSlot.cellBytes_eq {use : StackUse} (h : c.UsesSlot inst use i) :
    cellBytes inst = c.slot := by
  rw [cellBytes, h.default, slot]

theorem UsesSlot.stackStep_eq {use : StackUse} (h : c.UsesSlot inst use i) :
    c.stackStep inst = BitVec.ofNat _ c.slot := by
  rw [h.stack.stackStep_eq_iff.mpr fun _ => h.default, h.cellBytes_eq]

/-- A value was saved in the slot below the stack pointer. -/
structure Saved (c : FlatMachine) (value : BitVec c.width) (w w' : World (Flat c.width)) :
    Prop where
  pointer : sp w'.env = sp w.env - BitVec.ofNat _ c.slot
  mem : w'.env.mem = ByteMemory.store w.env.mem (c.gpr w'.env .rsp) c.slot value
  others : ∀ r, r ≠ .rsp → c.gpr w'.env r = c.gpr w.env r

variable (c) in
theorem bits_slot : 8 * c.slot = c.width := by
  unfold slot width
  cases c.addrSize <;> rfl

variable (c) in
theorem slot_le : c.slot ≤ 2 ^ c.width := by
  unfold slot width
  cases c.addrSize <;> decide

variable (c) in
theorem ofNat_slot_ne_zero : BitVec.ofNat c.width c.slot ≠ 0 := by
  unfold slot width
  cases c.addrSize <;> decide

theorem saved_of_pushes {use : StackUse} {value : Word} (h : c.Pushes inst value w w')
    (hs : c.UsesSlot inst use i) : c.Saved (value.setWidth _) w w' := by
  have hsp : sp w'.env = sp w.env - BitVec.ofNat _ c.slot := by rw [h.sp, hs.stackStep_eq]
  refine ⟨hsp, ?_, h.others⟩
  rw [h.mem, cellAddress, hs.cellBytes_eq, ← hsp]
  apply ByteMemory.store_eq_of_bits
  intro k hk
  rw [c.bits_slot] at hk
  simp [hk]

/-- A call saves the address behind it. -/
theorem IsCall.saved (h : c.IsCall inst) (hd : c.Decodes w.env inst) (hstep : c.Step w w') :
    c.Saved (c.behind inst w.env) w w' := by
  obtain ⟨i, hs⟩ := h.slot
  obtain ⟨g, hg, w'', hpush, -⟩ := push_step hs.stack hd
  rw [hstep.unique hpush.step]
  have hvalue : (c.executor.pushValue inst (c.executor.getNextPC inst g) g).setWidth c.width =
      c.behind inst w.env := by
    have hform : c.executor.pushValue inst (c.executor.getNextPC inst g) g =
        c.executor.truncatePC (c.executor.getNextPC inst g) := by
      have hf := h.form
      simp only [List.mem_cons, List.not_mem_nil, or_false] at hf
      unfold Executor.pushValue
      rcases hf with hf | hf | hf | hf <;> rw [hf]
    rw [hform, setWidth_truncatePC, hg.setWidth_getNextPC]
  rw [← hvalue]
  exact saved_of_pushes hpush hs

/-- A push saves its register. -/
theorem IsPush.saved (h : c.IsPush inst r) (hd : c.Decodes w.env inst) (hstep : c.Step w w') :
    c.Saved (c.gpr w.env r) w w' := by
  obtain ⟨g, hg, w'', hpush, -⟩ := push_step h.slot.stack hd
  rw [hstep.unique hpush.step]
  have hvalue : (c.executor.pushValue inst (c.executor.getNextPC inst g) g).setWidth c.width =
      c.gpr w.env r := by
    obtain ⟨op, hop, hname⟩ := h.operand
    have hfam : (inst.reg .reg0).meant.family = some r := by
      rw [h.source, Reg.meant_of_family (c.executor.wide_family r), c.executor.wide_family]
    have hform : c.executor.pushValue inst (c.executor.getNextPC inst g) g =
        c.executor.readGPR (inst.reg .reg0) g := by
      have hf := h.form
      simp only [List.mem_cons, List.not_mem_nil, or_false] at hf
      unfold Executor.pushValue
      rcases hf with hf | hf <;> rw [hf]
    rw [hform, h.source, c.executor.readGPR_wide, AddressSize.setWidth_setWidth,
      hg.gpr_operand hop hname hfam]
  rw [← hvalue]
  exact saved_of_pushes hpush h.slot

/-- What is in the slot at the stack pointer. -/
def top (w : World (Flat c.width)) : BitVec c.width := ByteMemory.load w.env.mem (sp w.env) c.slot

/-- The stack pointer was moved past a slot. -/
structure Released (c : FlatMachine) (w w' : World (Flat c.width)) : Prop where
  pointer : sp w'.env = sp w.env + BitVec.ofNat _ c.slot
  mem : w'.env.mem = w.env.mem

/-- A pop without another memory operand writes no memory. -/
theorem UsesStack.written_pop (h : c.UsesStack inst .pop 0) {e : Flat c.width}
    (hg : c.Ready e inst g) (hp : g'.places = g.places) (pc : Word) :
    (c.written g' pc e).mem = e.mem := by
  obtain ⟨-, hback, -⟩ := h.toStackOperand.cellRead hg
  have hnone : inst.memoryOperands[(1 : Fin 2).val]? = none :=
    List.getElem?_eq_none (Nat.le_of_eq h.last)
  have habsent := hg.cells 1
  rw [hnone] at habsent
  have h0 : (g'.memory 0).writeBack = false := (congrArg Place.writeBack (congrFun hp 0)).trans hback
  have h1 : (g'.memory 1).present = false := (congrArg Place.present (congrFun hp 1)).trans habsent
  simp [FlatMachine.written, storeCell, h0, h1]

theorem released_of_pops (h : c.Pops inst w w') (hs : c.UsesSlot inst .pop 0)
    (hnone : inst.released = 0) : sp w'.env = sp w.env + BitVec.ofNat _ c.slot := by
  rw [h.sp, hs.stackStep_eq, hnone, AddressSize.setWidth_zero]
  exact BitVec.add_zero _

/-- A return goes to the address in the slot. -/
theorem IsRet.released (h : c.IsRet inst) (hd : c.Decodes w.env inst) (hstep : c.Step w w') :
    c.Released w w' ∧ c.pc w'.env = top w ∧ ∀ r, r ≠ .rsp → c.gpr w'.env r = c.gpr w.env r := by
  obtain ⟨g, hg, pc, g', w'', he, hpc, hg', henv, hpop⟩ := pop_step h.slot.stack hd
  rw [hstep.unique hpop.step]
  have hnone : inst.released = 0 := by simp [Inst.released, h.form]
  have hgoes : pc = g.mem 0 := by rw [hpc, Executor.stackPC, h.form]
  refine ⟨⟨released_of_pops hpop h.slot hnone, ?_⟩, ?_, fun r hr => ?_⟩
  · rw [henv]
    exact h.slot.stack.written_pop hg (c.executor.places_of_emulated he) _
  · rw [henv, pc_written, hgoes, h.slot.stack.toStackOperand.mem_eq hg, h.slot.cellBytes_eq]
    exact ByteMemory.setWidth_load c.addrSize.bits_le
  · rw [henv]
    apply hg.gpr_written_of_same he
    rw [hg', Executor.gpr_addToStack, if_neg hr, Executor.popInto, h.form]

/-- A pop delivers what is in the slot. -/
theorem IsPop.released (h : c.IsPop inst r) (hd : c.Decodes w.env inst) (hstep : c.Step w w') :
    c.Released w w' ∧ c.gpr w'.env r = top w := by
  obtain ⟨g, hg, pc, g', w'', he, hpc, hg', henv, hpop⟩ := pop_step h.slot.stack hd
  rw [hstep.unique hpop.step]
  have hf := h.form
  simp only [List.mem_cons, List.not_mem_nil, or_false] at hf
  have hnone : inst.released = 0 := by
    unfold Inst.released
    rcases hf with hf | hf <;> rw [hf]
  have hinto : c.executor.popInto inst g =
      c.executor.writeGPR (inst.reg .reg0) (g.mem 0) g := by
    unfold Executor.popInto
    rcases hf with hf | hf <;> rw [hf]
  obtain ⟨op, hop, hname, hback⟩ := h.operand
  have hfam : (inst.reg .reg0).meant.family = some r := by
    rw [h.target, Reg.meant_of_family (c.executor.wide_family r), c.executor.wide_family]
  refine ⟨⟨released_of_pops hpop h.slot hnone, ?_⟩, ?_⟩
  · rw [henv]
    exact h.slot.stack.written_pop hg (c.executor.places_of_emulated he) _
  · rw [henv, hg.gpr_written_operand he hop hname hfam (.inl hback), hg', hinto,
      Executor.gpr_addToStack, if_neg h.notStack, h.target, Executor.gpr_writeGPR_wide, if_pos rfl,
      h.slot.stack.toStackOperand.mem_eq hg, h.slot.cellBytes_eq]
    exact ByteMemory.setWidth_load c.addrSize.bits_le

/-! ## nested brackets -/

/-- An instruction that opens a bracket, and one that closes it. -/
inductive Matches (c : FlatMachine) : Inst → Inst → Prop where
  | call {opens closes} (h : c.IsCall opens) (h' : c.IsRet closes) : Matches c opens closes
  | push {opens closes r r'} (h : c.IsPush opens r) (h' : c.IsPop closes r') : Matches c opens closes

/-- A bracket is opened at `w` and closed at `w₂`. -/
structure Bracket (c : FlatMachine) (opens closes : Inst) (w w₁ w₂ w₃ : World (Flat c.width)) :
    Prop where
  pair : c.Matches opens closes
  decodesOpen : c.Decodes w.env opens
  stepOpen : c.Step w w₁
  decodesClose : c.Decodes w₂.env closes
  stepClose : c.Step w₂ w₃

/-- A well-bracketed run, nested no deeper than `d`. -/
inductive Nested (c : FlatMachine) :
    Nat → World (Flat c.width) → World (Flat c.width) → Prop where
  | done (d w) : Nested c d w w
  | bracket {d opens closes w w₁ w₂ w₃ w₄} (h : c.Bracket opens closes w w₁ w₂ w₃)
      (body : Nested c d w₁ w₂) (rest : Nested c (d + 1) w₃ w₄) : Nested c (d + 1) w w₄

/-- Where a bracket leads: a `RET` behind its `CALL`, and what was pushed is popped. -/
structure Home (c : FlatMachine) (opens closes : Inst) (w w₃ : World (Flat c.width)) : Prop where
  pointer : sp w₃.env = sp w.env
  ret : c.IsCall opens → c.IsRet closes → c.pc w₃.env = c.behind opens w.env
  pop : ∀ r r', c.IsPush opens r → c.IsPop closes r' → c.gpr w₃.env r' = c.gpr w.env r

/-- Memory changes only below the stack pointer. -/
def Frame (c : FlatMachine) (d : Nat) (w w' : World (Flat c.width)) : Prop :=
  ∀ a, ¬ByteMemory.Below (sp w.env) (d * c.slot) a → w'.env.mem a = w.env.mem a

theorem Matches.saved {opens closes : Inst} (h : c.Matches opens closes)
    (hd : c.Decodes w.env opens) (hstep : c.Step w w') : ∃ value, c.Saved value w w' := by
  cases h with
  | call h _ => exact ⟨_, h.saved hd hstep⟩
  | push h _ => exact ⟨_, h.saved hd hstep⟩

theorem Matches.released {opens closes : Inst} (h : c.Matches opens closes)
    (hd : c.Decodes w.env closes) (hstep : c.Step w w') : c.Released w w' := by
  cases h with
  | call _ h => exact (h.released hd hstep).1
  | push _ h => exact (h.released hd hstep).1

variable {w₁ w₂ w₃ : World (Flat c.width)} {d : Nat}

/-- What was saved is still there when the body of the bracket is done. -/
theorem Saved.top_eq {value : BitVec c.width} (h : c.Saved value w w₁) (hsp : sp w₂.env = sp w₁.env)
    (hframe : c.Frame d w₁ w₂) (hfit : (d + 1) * c.slot ≤ 2 ^ c.width) : top w₂ = value := by
  have hslot : c.slot + d * c.slot = (d + 1) * c.slot := by ring
  have hload : top w₂ = ByteMemory.load w₁.env.mem (sp w₁.env) c.slot := by
    rw [top, hsp]
    apply ByteMemory.load_congr
    intro k hk
    have hoff : sp w₁.env + BitVec.ofNat _ k - sp w₁.env = BitVec.ofNat _ k := by ring
    refine hframe _ (ByteMemory.not_below_of_lt (k := c.slot) ?_ (by omega))
    rw [hoff, BitVec.toNat_ofNat]
    exact Nat.lt_of_le_of_lt (Nat.mod_le _ _) hk
  rw [hload, h.mem]
  change ByteMemory.load (ByteMemory.store _ (sp w₁.env) _ _) (sp w₁.env) _ = _
  rw [ByteMemory.load_store (by omega), c.bits_slot, Bits.low_of_le (Nat.le_refl _)]

/-- Saving a value changes one slot. -/
theorem Saved.outside {value : BitVec c.width} (h : c.Saved value w w₁) {a : BitVec c.width}
    (ha : ¬ByteMemory.Below (sp w.env) c.slot a) : w₁.env.mem a = w.env.mem a := by
  have hback : sp w₁.env + BitVec.ofNat _ c.slot = sp w.env := by
    rw [h.pointer]
    ring
  rw [h.mem]
  apply ByteMemory.store_of_not_lt
  intro hlt
  have hb := ByteMemory.below_of_lt hlt
  rw [show c.gpr w₁.env .rsp + BitVec.ofNat _ c.slot = sp w.env from hback] at hb
  exact ha hb

/-- A bracket around a body writes below the stack pointer only. -/
theorem Saved.frame {value : BitVec c.width} (h : c.Saved value w w₁) (hframe : c.Frame d w₁ w₂)
    (hr : c.Released w₂ w₃) : c.Frame (d + 1) w w₃ := by
  intro a ha
  have hslot : d * c.slot + c.slot = (d + 1) * c.slot := by ring
  have hbody : ¬ByteMemory.Below (sp w₁.env) (d * c.slot) a := by
    intro hb
    rw [h.pointer] at hb
    exact ha (hslot ▸ hb.lower)
  rw [hr.mem, hframe a hbody]
  exact h.outside fun hb => ha (hb.mono (by omega))

/-- A run of brackets leaves the stack pointer alone and writes below it only. -/
theorem Nested.invariant (h : c.Nested d w w') : sp w'.env = sp w.env ∧ c.Frame d w w' := by
  induction h with
  | done d w => exact ⟨rfl, fun _ _ => rfl⟩
  | @bracket d opens closes w w₁ w₂ w₃ w₄ h _ _ ihBody ihRest =>
      obtain ⟨value, hsaved⟩ := h.pair.saved h.decodesOpen h.stepOpen
      have hreleased := h.pair.released h.decodesClose h.stepClose
      have hsp : sp w₃.env = sp w.env := by
        rw [hreleased.pointer, ihBody.1, hsaved.pointer]
        ring
      refine ⟨ihRest.1.trans hsp, fun a ha => ?_⟩
      have hrest := ihRest.2 a (by rwa [hsp])
      rw [hrest]
      exact hsaved.frame ihBody.2 hreleased a ha

/-- A bracket around a run of brackets leads home. -/
theorem Bracket.home {opens closes : Inst} (h : c.Bracket opens closes w w₁ w₂ w₃)
    (hbody : c.Nested d w₁ w₂) (hfit : (d + 1) * c.slot ≤ 2 ^ c.width) :
    c.Home opens closes w w₃ := by
  obtain ⟨hsp, hframe⟩ := hbody.invariant
  obtain ⟨value, hsaved⟩ := h.pair.saved h.decodesOpen h.stepOpen
  have hreleased := h.pair.released h.decodesClose h.stepClose
  refine ⟨?_, fun hc hr => ?_, fun r r' hpush hpop => ?_⟩
  · rw [hreleased.pointer, hsp, hsaved.pointer]
    ring
  · rw [(hr.released h.decodesClose h.stepClose).2.1]
    exact (hc.saved h.decodesOpen h.stepOpen).top_eq hsp hframe hfit
  · rw [(hpop.released h.decodesClose h.stepClose).2]
    exact (hpush.saved h.decodesOpen h.stepOpen).top_eq hsp hframe hfit

/-! ## every run returns home -/

/-- The instructions of well-bracketed runs can be executed, every bracket leads home, and a whole
run leaves the stack pointer as it was. -/
theorem nested_returns_home (d : Nat) (hfit : d * c.slot < 2 ^ c.width) :
    (∀ w w', c.Nested d w w' → sp w'.env = sp w.env) ∧
    (∀ d' opens closes w w₁ w₂ w₃, d' + 1 ≤ d → c.Bracket opens closes w w₁ w₂ w₃ →
      c.Nested d' w₁ w₂ → c.Home opens closes w w₃) ∧
    ∀ opens closes w, c.Matches opens closes →
      c.Decodes w.env opens ∨ c.Decodes w.env closes → ∃ w', c.Step w w' := by
  refine ⟨fun w w' h => h.invariant.1, fun d' opens closes w w₁ w₂ w₃ hd h hbody => ?_,
    fun opens closes w h hdec => ?_⟩
  · have hle : (d' + 1) * c.slot ≤ d * c.slot := Nat.mul_le_mul_right _ hd
    exact h.home hbody (by omega)
  · cases h with
    | call hcall hret =>
        obtain ⟨i, hs⟩ := hcall.slot
        exact hdec.elim hs.stack.steps hret.slot.stack.steps
    | push hpush hpop => exact hdec.elim hpush.slot.stack.steps hpop.slot.stack.steps

/-! ### a push and its pop in a procedure -/

/-- `CALL` of the next instruction. -/
def callNext : Inst := stackInst .callNearRELBRd .push 64 .rip

def retNear : Inst := stackInst .retNear .pop 64 .rip

/-- `POP RCX`. -/
def popRcx : Inst := stackInst .popGPRv58 .pop 64 (.gpr64 .rcx)

section

variable {insts : Byte → Option Inst}

theorem usesSlot_callNext : (sample .x64 insts).UsesSlot callNext .push 0 :=
  ⟨usesStack_stackInst rfl (.inr (.inr rfl)) rfl nofun nofun, rfl⟩

theorem isCall_callNext : (sample .x64 insts).IsCall callNext where
  slot := ⟨0, usesSlot_callNext⟩
  form := .tail _ (.head _)

theorem isRet_retNear : (sample .x64 insts).IsRet retNear where
  slot := ⟨usesStack_stackInst rfl (.inr (.inr rfl)) rfl nofun nofun, rfl⟩
  form := rfl

theorem isPush_stackInst {r : Gpr} :
    (sample .x64 insts).IsPush (stackInst .pushGPRv50 .push 64 (.gpr64 r)) r where
  slot := ⟨usesStack_stackInst rfl (.inr (.inr rfl)) rfl nofun nofun, rfl⟩
  form := .tail _ (.head _)
  source := rfl
  operand := ⟨_, .head _, rfl⟩

theorem isPop_popRcx : (sample .x64 insts).IsPop popRcx .rcx where
  slot := ⟨usesStack_stackInst rfl (.inr (.inr rfl)) rfl nofun nofun, rfl⟩
  form := .tail _ (.head _)
  target := rfl
  operand := ⟨_, .head _, rfl, rfl⟩
  notStack := nofun

end

/-- `CALL` at the address zero, and behind it `PUSH RAX`, `POP RCX` and `RET`. -/
def nestedInsts (b : Byte) : Option Inst :=
  if b = 0 then some callNext
  else if b = 2 then some pushRax
  else if b = 4 then some popRcx
  else some retNear

def nestedMachine : FlatMachine := .sample .x64 nestedInsts

/-- Every byte is its address. -/
def nestedStart : World (Flat nestedMachine.width) :=
  .start ⟨fun r => if r = .gpr64 .rax then 7 else 0, fun _ => false, fun a => a.setWidth 8⟩

/-- The world after so many instructions. -/
def nestedWorld : Nat → World (Flat nestedMachine.width)
  | 0 => nestedStart
  | n + 1 => nestedMachine.after (nestedWorld n)

theorem nested_decodes {n : Nat} {b : Byte} {inst : Inst}
    (hmem : (nestedWorld n).env.mem (nestedMachine.pc (nestedWorld n).env) = b)
    (h : nestedInsts b = some inst) : nestedMachine.Decodes (nestedWorld n).env inst :=
  decodes_sample ((congrArg nestedInsts hmem).trans h)

/-- The call returns, and what was pushed in it was popped. -/
theorem nested_returns_home_call :
    nestedMachine.Bracket callNext retNear nestedStart (nestedWorld 1) (nestedWorld 3) (nestedWorld 4) ∧
      nestedMachine.Bracket pushRax popRcx (nestedWorld 1) (nestedWorld 2) (nestedWorld 2)
        (nestedWorld 3) ∧
      nestedMachine.Home callNext retNear nestedStart (nestedWorld 4) ∧
      nestedMachine.gpr (nestedWorld 3).env .rcx = 7 := by
  have hd₀ : nestedMachine.Decodes (nestedWorld 0).env callNext :=
    nested_decodes (b := 0) (by decide +kernel) rfl
  have hd₁ : nestedMachine.Decodes (nestedWorld 1).env pushRax :=
    nested_decodes (b := 2) (by decide +kernel) rfl
  have hd₂ : nestedMachine.Decodes (nestedWorld 2).env popRcx :=
    nested_decodes (b := 4) (by decide +kernel) rfl
  have hd₃ : nestedMachine.Decodes (nestedWorld 3).env retNear :=
    nested_decodes (b := 6) (by decide +kernel) rfl
  have hcall : nestedMachine.Matches callNext retNear := .call isCall_callNext isRet_retNear
  have hpush : nestedMachine.Matches pushRax popRcx := .push isPush_stackInst isPop_popRcx
  obtain ⟨-, hhome, hsteps⟩ := nested_returns_home (c := nestedMachine) 2 (by decide)
  have hinner : nestedMachine.Bracket pushRax popRcx (nestedWorld 1) (nestedWorld 2) (nestedWorld 2)
      (nestedWorld 3) :=
    ⟨hpush, hd₁, step_after (hsteps _ _ _ hpush (.inl hd₁)), hd₂,
      step_after (hsteps _ _ _ hpush (.inr hd₂))⟩
  have houter : nestedMachine.Bracket callNext retNear nestedStart (nestedWorld 1) (nestedWorld 3)
      (nestedWorld 4) :=
    ⟨hcall, hd₀, step_after (hsteps _ _ _ hcall (.inl hd₀)), hd₃,
      step_after (hsteps _ _ _ hcall (.inr hd₃))⟩
  have hpop := hhome 0 _ _ _ _ _ _ (by decide) hinner (.done _ _)
  have hrax : nestedMachine.gpr (nestedWorld 1).env .rax = 7 := by decide +kernel
  refine ⟨houter, hinner, hhome 1 _ _ _ _ _ _ (by decide) houter ?_, ?_⟩
  · exact .bracket hinner (.done _ _) (.done _ _)
  · exact (hpop.pop _ _ isPush_stackInst isPop_popRcx).trans hrax

end FlatMachine

end Microx
