import Microx.Executor.PushPop

/-!
# Microx.Executor.SavedFlags

`PUSHF` and `POPF`.

Between the two the flags of the environment and everything else may change;
only the pushed cell and the stack pointer are to be kept.
-/

namespace Microx

/-- `PUSHF`, `PUSHFD` or `PUSHFQ`, and `POPF`, `POPFD` or `POPFQ`. -/
def IForm.movesFlags : IForm → Option StackUse
  | .pushf | .pushfd | .pushfq => some .push
  | .popf | .popfd | .popfq => some .pop
  | _ => none

namespace FlatMachine

variable {c : FlatMachine} {inst : Inst} {use : StackUse} {e : Flat c.width}
  {w w' : World (Flat c.width)} {g : Globals}

/-- An instruction that pushes or pops the flags, with the default operand size; XED reports all
flags as read by a push and as written by a pop. -/
structure MovesFlags (c : FlatMachine) (inst : Inst) (use : StackUse) : Prop where
  stack : c.StackOperand inst use 0
  form : inst.iform.movesFlags = some use
  width : inst.operandWidth = c.width
  flags : ∃ rf, inst.rflags = some rf ∧
    ∀ f : Flag, (match use with | .push => rf.read | .pop => rf.written).getLsbD f.bit = true

theorem MovesFlags.movesByAddress (h : c.MovesFlags inst use) :
    inst.iform.movesByAddress = true := by
  have hform := h.form
  cases hf : inst.iform <;> rw [hf] at hform <;> cases hform <;> rfl

theorem MovesFlags.released (h : c.MovesFlags inst use) : inst.released = 0 := by
  have hform := h.form
  unfold Inst.released
  split
  · next hf =>
      rw [hf] at hform
      cases hform
  · rfl

/-- The stack pointer moves by the size of the cell. -/
theorem MovesFlags.stackStep_eq (h : c.MovesFlags inst use) :
    c.stackStep inst = BitVec.ofNat _ (cellBytes inst) := by
  rw [stackStep, Executor.stackStep, if_pos h.movesByAddress, cellBytes, h.width]
  exact BitVec.setWidth_ofNat_of_le c.addrSize.bits_le _

/-- The flags fit the cell. -/
theorem MovesFlags.bit_lt (h : c.MovesFlags inst use) (f : Flag) : f.bit < 8 * cellBytes inst := by
  have hbit := f.bit_lt
  have h32 : 32 ≤ c.width := c.addrSize.le_bits
  rw [cellBytes, h.width]
  omega

/-- All flags were read before a push. -/
theorem MovesFlags.get_aflag (h : c.MovesFlags inst .push) (hg : c.Ready e inst g) (f : Flag) :
    f.get g.aflag = e.flags f := by
  obtain ⟨rf, hrf, hread⟩ := h.flags
  refine hg.flags.value rf hrf f ?_
  have hbit := f.bit_lt
  have hget : f.get ((rf.read.setWidth 16).setWidth 64) = true := by
    simp [Flag.get, hread f, show f.bit < 64 by omega, show f.bit < 16 by omega]
  unfold Executor.readMask
  split
  · rw [Flag.get, BitVec.getLsbD_or]
    exact Bool.or_eq_true_iff.mpr (.inl hget)
  · exact hget

/-- All flags are written after a pop. -/
theorem MovesFlags.get_writeBackFlags (h : c.MovesFlags inst .pop) (hg : c.Ready e inst g) (f : Flag) :
    f.get g.writeBackFlags = true := by
  obtain ⟨rf, hrf, hwritten⟩ := h.flags
  have hbit := f.bit_lt
  rw [hg.flags.mask, hrf]
  simp [Executor.writeMask, Flag.get, hwritten f, show f.bit < 64 by omega,
    show f.bit < 16 by omega]

theorem writeBackFlags_of_emulated {nextPC pc : Word} {g' : Globals}
    (he : c.executor.emulate inst nextPC g = .emulated pc g') :
    g'.writeBackFlags = g.writeBackFlags := by
  refine c.executor.emulate_unaffected (fun _ _ _ => rfl) (fun _ _ _ => rfl) (fun _ _ => rfl) he

/-- **`PUSHF`** leaves the flags in the cell. -/
theorem MovesFlags.pushed (h : c.MovesFlags inst .push) (hd : c.Decodes w.env inst)
    (hstep : c.Step w w') :
    sp w'.env = sp w.env - BitVec.ofNat _ (cellBytes inst) ∧
      ∀ f : Flag, (ByteMemory.load w'.env.mem (sp w'.env) (cellBytes inst) : Word).getLsbD f.bit =
        w.env.flags f := by
  obtain ⟨g, hg, w'', hpush, -⟩ := push_step h.stack.usesStack hd
  obtain rfl := hstep.unique hpush.step
  have hvalue : c.executor.pushValue inst (c.executor.getNextPC inst g) g = g.aflag := by
    have hform := h.form
    unfold Executor.pushValue
    cases hf : inst.iform <;> rw [hf] at hform <;> cases hform
  have hsp : sp w'.env = sp w.env - BitVec.ofNat _ (cellBytes inst) := by
    rw [hpush.sp, h.stackStep_eq]
  refine ⟨hsp, fun f => ?_⟩
  have hcell : sp w'.env = cellAddress inst .push w.env := hsp
  rw [hpush.mem, hcell, hvalue, ByteMemory.load_store h.stack.cellBytes_le_pow, Bits.getLsbD_low,
    decide_eq_true (h.bit_lt f), Bool.true_and]
  exact h.get_aflag hg f

/-- **`POPF`** takes the flags from the cell. -/
theorem MovesFlags.popped (h : c.MovesFlags inst .pop) (hd : c.Decodes w.env inst)
    (hstep : c.Step w w') :
    sp w'.env = sp w.env + BitVec.ofNat _ (cellBytes inst) ∧
      ∀ f : Flag, w'.env.flags f =
        (ByteMemory.load w.env.mem (sp w.env) (cellBytes inst) : Word).getLsbD f.bit := by
  obtain ⟨g, hg, pc, w'', hstep', he, henv⟩ := h.stack.pop_flat hd
  obtain rfl := hstep.unique hstep'
  have hmem := h.stack.mem_eq hg
  have hinto : c.executor.popInto inst g = g.setAflag (g.mem 0) := by
    have hform := h.form
    unfold Executor.popInto
    cases hf : inst.iform <;> rw [hf] at hform <;> cases hform
  rw [hinto] at he henv
  constructor
  · rw [henv, h.stack.sp_written hg he, Executor.gpr_addToStack, if_pos rfl,
      Executor.gpr_setAflag, h.stack.gpr_rsp hg, h.released, add_zero]
    exact congrArg _ h.stackStep_eq
  · intro f
    have hmask := writeBackFlags_of_emulated he
    rw [henv]
    change (if f.get (Globals.writeBackFlags _) then _ else _) = _
    rw [hmask, h.get_writeBackFlags hg f, if_pos rfl, Executor.aflag_addToStack, aflag_setAflag,
      hmem]
    rfl

/-- **Saving and restoring flags is the identity.**  After `PUSHF`, any change that keeps the cell
and the stack pointer, and `POPF`, all flags and the stack pointer are what they were. -/
theorem flags_restored {push pop : Inst} (hpush : c.MovesFlags push .push)
    (hpop : c.MovesFlags pop .pop) {w₀ : World (Flat c.width)} (hd : c.Decodes w₀.env push) :
    ∃ w₁, c.Step w₀ w₁ ∧ ∀ w₂ : World (Flat c.width), sp w₂.env = sp w₁.env →
      (∀ k < cellBytes push, w₂.env.mem (sp w₁.env + BitVec.ofNat _ k) =
        w₁.env.mem (sp w₁.env + BitVec.ofNat _ k)) →
      c.Decodes w₂.env pop →
      ∃ w₃, c.Step w₂ w₃ ∧ w₃.env.flags = w₀.env.flags ∧ sp w₃.env = sp w₀.env := by
  obtain ⟨w₁, h₁⟩ := hpush.stack.usesStack.steps hd
  refine ⟨w₁, h₁, fun w₂ hsp hcell hd₂ => ?_⟩
  obtain ⟨-, -, -, w₃, h₃, -⟩ := hpop.stack.pop_flat hd₂
  obtain ⟨hsp₁, hsaved⟩ := hpush.pushed hd h₁
  obtain ⟨hsp₃, hrestored⟩ := hpop.popped hd₂ h₃
  have hbytes : cellBytes pop = cellBytes push := by
    rw [cellBytes, cellBytes, hpush.width, hpop.width]
  rw [hbytes, hsp] at hsp₃ hrestored
  refine ⟨w₃, h₃, funext fun f => ?_, ?_⟩
  · rw [hrestored, ByteMemory.load_congr hcell, hsaved]
  · rw [hsp₃, hsp₁]
    exact sub_add_cancel _ _

/-! ### a sample -/

/-- Flag information is no part of how the stack is listed. -/
theorem StackOperand.withFlags {i : Fin 2} (h : c.StackOperand inst use i) (rf : RFlagsInfo) :
    c.StackOperand { inst with rflags := some rf } use i where
  plain :=
    { supported := h.plain.supported
      notNop := h.plain.notNop
      operand := fun op hop x hname => ⟨(h.plain.operand op hop x hname).1, fun _ => rfl⟩
      base := h.plain.base
      index := h.plain.index
      noBitOp := h.plain.noBitOp
      usualOrder := h.plain.usualOrder }
  form := h.form
  width := h.width
  pointer := h.pointer
  cell := h.cell
  last := h.last
  base := h.base
  index := h.index
  displacement := h.displacement
  addressWidth := h.addressWidth
  length := h.length

/-- `PUSHFQ` and `POPFQ`. -/
def pushfq : Inst :=
  { stackInst .pushfq .push 64 .stackpush with rflags := some ⟨0xFFFFFFFF, 0, false⟩ }

def popfq : Inst :=
  { stackInst .popfq .pop 64 .stackpop with rflags := some ⟨0, 0xFFFFFFFF, false⟩ }

/-- A machine that knows the two. -/
def flagsInsts (b : Byte) : Option Inst := some (if b = 0 then pushfq else popfq)

def flagsMachine : FlatMachine := .sample .x64 flagsInsts

theorem movesFlags_pushfq : flagsMachine.MovesFlags pushfq .push where
  stack := by
    have h : flagsMachine.UsesStack (stackInst .pushfq .push 64 .stackpush) .push 0 :=
      usesStack_stackInst rfl (.inr (.inr rfl)) rfl nofun nofun
    exact h.toStackOperand.withFlags _
  form := rfl
  width := rfl
  flags := ⟨_, rfl, fun f => by cases f <;> rfl⟩

theorem movesFlags_popfq : flagsMachine.MovesFlags popfq .pop where
  stack := by
    have h : flagsMachine.UsesStack (stackInst .popfq .pop 64 .stackpop) .pop 0 :=
      usesStack_stackInst rfl (.inr (.inr rfl)) rfl nofun nofun
    exact h.toStackOperand.withFlags _
  form := rfl
  width := rfl
  flags := ⟨_, rfl, fun f => by cases f <;> rfl⟩

/-- All flags set, about to execute `PUSHFQ`. -/
def flagsStart : World (Flat flagsMachine.width) :=
  World.start ⟨fun _ => 0, fun _ => true, fun _ => 0⟩

/-- All flags cleared, and a `POPFQ` at the program counter. -/
def clearedFlags (e : Flat flagsMachine.width) : Flat flagsMachine.width where
  regs := Function.update e.regs .rip 0x100
  flags _ := false
  mem := Function.update e.mem 0x100 1

theorem decodes_cleared (e : Flat flagsMachine.width) :
    flagsMachine.Decodes (clearedFlags e) popfq := by
  have hreg : flagsMachine.executor.pcReg = .rip := rfl
  have hrip : (clearedFlags e).regs .rip = 0x100 := by simp [clearedFlags]
  have hmem : (clearedFlags e).mem 0x100 = 1 := by simp [clearedFlags]
  have hpc : flagsMachine.pc (clearedFlags e) = 0x100 := by
    rw [pc, hreg, hrip]
    exact BitVec.setWidth_ofNat_of_le (by decide) 0x100
  have hinst : flagsInsts ((clearedFlags e).mem (flagsMachine.pc (clearedFlags e))) = some popfq := by
    rw [hpc, hmem]
    rfl
  exact decodes_sample hinst

theorem flags_restored_cleared : ∃ w₁ w₃, flagsMachine.Step flagsStart w₁ ∧
    flagsMachine.Step { w₁ with env := clearedFlags w₁.env } w₃ ∧
    w₃.env.flags = fun _ => true := by
  have hd : flagsMachine.Decodes flagsStart.env pushfq := decodes_sample rfl
  obtain ⟨w₁, h₁, hrest⟩ := flags_restored movesFlags_pushfq movesFlags_popfq hd
  have hsp := (movesFlags_pushfq.pushed hd h₁).1
  have hzero : sp flagsStart.env = 0 := by decide +kernel
  rw [hzero] at hsp
  have hcell : ∀ k < 8, (0 - BitVec.ofNat 64 8) + BitVec.ofNat _ k ≠ 0x100 := by decide
  obtain ⟨w₃, h₃, hflags, -⟩ := hrest { w₁ with env := clearedFlags w₁.env } rfl (fun k hk => by
    rw [hsp]
    exact Function.update_of_ne (hcell k hk) _ _) (decodes_cleared w₁.env)
  exact ⟨w₁, w₃, h₁, h₃, hflags⟩

end FlatMachine

end Microx
