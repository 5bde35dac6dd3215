import Microx.Executor.Traffic

/-!
# Microx.Executor.TwoRuns

One instruction in two environments.

If the callbacks answer alike in both, and keep on doing so, then the two runs
are alike from end to end: the globals, the callbacks and the status are the
same.  The one thing the environments may differ in is the time-stamp counter,
so an instruction that has it among its registers is left out (`AvoidsTSC`).
-/

namespace Microx

open Hoare

variable {σ α β : Type}

/-! ## environments -/

/-- Environments that a callback does not tell apart, unless it is about the time-stamp counter. -/
structure Indistinct (ex : Executor σ) (R : σ → σ → Prop) : Prop where
  computeAddress : ∀ {s t} seg base index scale disp size hint, R s t →
    (ex.computeAddress seg base index scale disp size hint t).1 =
        (ex.computeAddress seg base index scale disp size hint s).1 ∧
      R (ex.computeAddress seg base index scale disp size hint s).2
        (ex.computeAddress seg base index scale disp size hint t).2
  readReg : ∀ {s t} name size hint data, name ≠ .reg .tsc → R s t →
    (ex.readReg name size hint data t).1 = (ex.readReg name size hint data s).1 ∧
      (ex.readReg name size hint data t).2.1 = (ex.readReg name size hint data s).2.1 ∧
      R (ex.readReg name size hint data s).2.2 (ex.readReg name size hint data t).2.2
  writeReg : ∀ {s t} name size data, name ≠ .reg .tsc → R s t →
    (ex.writeReg name size data t).1 = (ex.writeReg name size data s).1 ∧
      R (ex.writeReg name size data s).2 (ex.writeReg name size data t).2
  readMem : ∀ {s t} addr size hint data, R s t →
    (ex.readMem addr size hint data t).1 = (ex.readMem addr size hint data s).1 ∧
      (ex.readMem addr size hint data t).2.1 = (ex.readMem addr size hint data s).2.1 ∧
      R (ex.readMem addr size hint data s).2.2 (ex.readMem addr size hint data t).2.2
  writeMem : ∀ {s t} addr size data, R s t →
    (ex.writeMem addr size data t).1 = (ex.writeMem addr size data s).1 ∧
      R (ex.writeMem addr size data s).2 (ex.writeMem addr size data t).2
  readFPU : ∀ {s t} fpu, R s t →
    (ex.readFPU fpu t).1 = (ex.readFPU fpu s).1 ∧
      (ex.readFPU fpu t).2.1 = (ex.readFPU fpu s).2.1 ∧
      R (ex.readFPU fpu s).2.2 (ex.readFPU fpu t).2.2
  writeFPU : ∀ {s t} fpu, R s t →
    (ex.writeFPU fpu t).1 = (ex.writeFPU fpu s).1 ∧
      R (ex.writeFPU fpu s).2 (ex.writeFPU fpu t).2
  clearError : ∀ {s t}, R s t → R (ex.clearError s) (ex.clearError t)

/-- The time-stamp counter is none of the registers of an instruction. -/
structure Inst.AvoidsTSC (inst : Inst) : Prop where
  operand : ∀ op ∈ inst.operands, ∀ r, op.name = .reg r → inst.reg r ≠ .tsc
  base : ∀ i, (inst.memOperand i).baseReg ≠ .tsc
  index : ∀ i, (inst.memOperand i).indexReg ≠ .tsc

/-! ## worlds -/

/-- Two worlds with the same past, in environments related by `R`. -/
structure Alike (H : (Nat → Word) → (Nat → Word) → Prop) (R : σ → σ → Prop) (w v : World σ) :
    Prop where
  globals : v.globals = w.globals
  idata : v.idata = w.idata
  trace : v.trace = w.trace
  host : H w.hostFlags v.hostFlags
  env : R w.env v.env

/-- Moreover nobody asked for the time-stamp counter. -/
def AlikeApart (H : (Nat → Word) → (Nat → Word) → Prop) (R : σ → σ → Prop) (w v : World σ) : Prop :=
  Alike H R w v ∧ w.globals.usedRegs .tsc = false

/-- A block that does the same in both worlds. -/
def Lockstep (H : (Nat → Word) → (Nat → Word) → Prop) (R : σ → σ → Prop) (m : ExecM σ α) : Prop :=
  RelTriple (AlikeApart H R) m m (fun a b w v => a = b ∧ AlikeApart H R w v) fun e f _ _ => e = f

namespace Lockstep

variable {H : (Nat → Word) → (Nat → Word) → Prop} {R : σ → σ → Prop}

theorem bind {m : ExecM σ α} {f : α → ExecM σ β} (hm : Lockstep H R m)
    (hf : ∀ a, Lockstep H R (f a)) : Lockstep H R (m >>= f) := by
  refine RelTriple.bind hm fun a b w v h => ?_
  rw [← h.1]
  exact hf a w v h.2

theorem pure (a : α) : Lockstep H R (Pure.pure a : ExecM σ α) :=
  RelTriple.pure fun _ _ h => ⟨rfl, h⟩

theorem throw (status : ExecutorStatus) : Lockstep H R (MonadExcept.throw status : ExecM σ α) :=
  RelTriple.throw fun _ _ _ => rfl

theorem check (ok : Bool) (status : ExecutorStatus) :
    Lockstep H R (Executor.check ok status : ExecM σ Unit) := by
  cases ok with
  | true => exact pure _
  | false => exact throw _

/-- A change of the globals that asks for nothing. -/
theorem onGlobals {f : Globals → Globals}
    (h : ∀ g, g.usedRegs .tsc = false → (f g).usedRegs .tsc = false) :
    Lockstep H R (Microx.onGlobals f : ExecM σ Unit) :=
  RelTriple.modify fun _ _ hw =>
    ⟨rfl, ⟨congrArg f hw.1.globals, hw.1.idata, hw.1.trace, hw.1.host, hw.1.env⟩, h _ hw.2⟩

theorem getGlobals {f : Globals → ExecM σ β}
    (h : ∀ g, g.usedRegs .tsc = false → Lockstep H R (f g)) :
    Lockstep H R (Microx.getGlobals >>= f) := by
  intro w v hw
  change RelMeets _ _ (f w.globals w) (f v.globals v)
  rw [hw.1.globals]
  exact h _ hw.2 w v hw

theorem modifyIdata (data : Data) :
    Lockstep H R (modify (World.withIdata data) : ExecM σ PUnit) :=
  RelTriple.modify fun _ _ hw => ⟨rfl, ⟨hw.1.globals, rfl, hw.1.trace, hw.1.host, hw.1.env⟩, hw.2⟩

/-- Reading the whole state, of which only the buffer for instruction bytes is used. -/
theorem get {f : World σ → ExecM σ β} (h : ∀ w, Lockstep H R (f w))
    (hsame : ∀ w v : World σ, v.idata = w.idata → f v = f w) :
    Lockstep H R (MonadState.get >>= f) := by
  intro w v hw
  change RelMeets _ _ (f w w) (f v v)
  rw [hsame w v hw.1.idata]
  exact h w w v hw

theorem forM {l : List α} {f : α → ExecM σ PUnit} (h : ∀ a ∈ l, Lockstep H R (f a)) :
    Lockstep H R (l.forM f) := by
  induction l with
  | nil => exact pure _
  | cons a l ih =>
      exact (h a List.mem_cons_self).bind fun _ => ih fun b hb => h b (List.mem_cons_of_mem a hb)

end Lockstep

namespace Executor

/-- The time-stamp counter is no part of another register. -/
theorem widestRegister_ne_tsc (ex : Executor σ) {r : Reg} (hr : r ≠ .tsc) :
    ex.widestRegister r ≠ .tsc := by
  revert hr
  unfold widestRegister
  cases ex.addrSize <;> cases ex.hasAVX <;> cases ex.hasAVX512 <;> cases r <;>
    simp [Reg.largestEnclosing, Reg.largestEnclosing32, Reg.withoutAVX, Reg.withoutAVX512]

end Executor

/-! ## callbacks -/

/-- A callback that is made in both worlds. -/
theorem AlikeApart.called {H : (Nat → Word) → (Nat → Word) → Prop} {R : σ → σ → Prop}
    {w v : World σ} {s t : σ} {e e' : Event} (hw : AlikeApart H R w v) (he : e' = e) (hr : R s t) :
    AlikeApart H R (w.called s e) (v.called t e') := by
  refine ⟨⟨hw.1.globals, hw.1.idata, ?_, hw.1.host, hr⟩, hw.2⟩
  rw [World.called, World.called, hw.1.trace, he]

namespace Indistinct

variable {H : (Nat → Word) → (Nat → Word) → Prop} {R : σ → σ → Prop} {ex : Executor σ}
  (h : Indistinct ex R)

include h

theorem callComputeAddress (seg : RegName) (base index scale disp : Word) (size : Nat)
    (hint : MemRequestHint) :
    Lockstep H R (ex.callComputeAddress seg base index scale disp size hint) := by
  intro w v hw
  obtain ⟨haddr, henv⟩ := h.computeAddress seg base index scale disp size hint hw.1.env
  exact ⟨haddr.symm, hw.called rfl henv⟩

theorem callReadReg {name : RegName} (hname : name ≠ .reg .tsc) (size : Nat) (hint : RegRequestHint)
    (data : Data) : Lockstep H R (ex.callReadReg name size hint data) := by
  intro w v hw
  obtain ⟨hok, hdata, henv⟩ := h.readReg name size hint data hname hw.1.env
  exact ⟨Prod.ext hok.symm hdata.symm, hw.called (by rw [hok]) henv⟩

theorem callWriteReg {name : RegName} (hname : name ≠ .reg .tsc) (size : Nat) (data : Data) :
    Lockstep H R (ex.callWriteReg name size data) := by
  intro w v hw
  obtain ⟨hok, henv⟩ := h.writeReg name size data hname hw.1.env
  exact ⟨hok.symm, hw.called (by rw [hok]) henv⟩

theorem callReadMem (addr : Word) (size : Nat) (hint : MemRequestHint) (data : Data) :
    Lockstep H R (ex.callReadMem addr size hint data) := by
  intro w v hw
  obtain ⟨hok, hdata, henv⟩ := h.readMem addr size hint data hw.1.env
  exact ⟨Prod.ext hok.symm hdata.symm, hw.called (by rw [hok]) henv⟩

theorem callWriteMem (addr : Word) (size : Nat) (data : Data) :
    Lockstep H R (ex.callWriteMem addr size data) := by
  intro w v hw
  obtain ⟨hok, henv⟩ := h.writeMem addr size data hw.1.env
  exact ⟨hok.symm, hw.called (by rw [hok]) henv⟩

theorem callReadFPU (fpu : FPU) : Lockstep H R (ex.callReadFPU fpu) := by
  intro w v hw
  obtain ⟨hok, hdata, henv⟩ := h.readFPU fpu hw.1.env
  exact ⟨Prod.ext hok.symm hdata.symm, hw.called (by rw [hok]) henv⟩

theorem callWriteFPU (fpu : FPU) : Lockstep H R (ex.callWriteFPU fpu) := by
  intro w v hw
  obtain ⟨hok, henv⟩ := h.writeFPU fpu hw.1.env
  exact ⟨hok.symm, hw.called (by rw [hok]) henv⟩

theorem callClearError : Lockstep H R ex.callClearError :=
  RelTriple.modify fun _ _ hw =>
    ⟨rfl, ⟨hw.1.globals, hw.1.idata, hw.1.trace, hw.1.host, h.clearError hw.1.env⟩, hw.2⟩

/-! ## reading -/

theorem readWidest {reg : Reg} (hreg : reg ≠ .tsc) (hint : RegRequestHint) :
    Lockstep H R (ex.readWidest reg hint) := by
  have hne := ex.widestRegister_ne_tsc hreg
  have hname : RegName.reg (ex.widestRegister reg) ≠ .reg .tsc := fun heq => hne (RegName.reg.inj heq)
  refine .bind (.onGlobals fun g hg => ?_) fun _ => .getGlobals fun g _ => ?_
  · unfold Globals.noteHint
    split
    · exact hg
    · exact hg
  · split
    · exact .pure _
    · refine .bind (.onGlobals fun _ hg => hg) fun _ => .getGlobals fun g _ => ?_
      refine .bind (h.callReadReg hname _ _ _) fun r => .bind (.onGlobals fun g hg => ?_) fun _ => .check _ _
      exact (Function.update_of_ne (Ne.symm hne) _ _).trans hg

theorem readRegister {reg : Reg} (hreg : reg ≠ .tsc) (hint : RegRequestHint) :
    Lockstep H R (ex.readRegister reg hint) := by
  unfold Executor.readRegister
  split
  · exact .pure _
  · split
    · exact .onGlobals fun _ hg => hg
    · refine .bind (.onGlobals fun g hg => ?_) fun _ => ?_
      · unfold Globals.noteClass
        split
        · exact hg
        · exact hg
      · split
        · have hrsp : Reg.gpr32 .rsp ≠ .tsc := nofun
          exact h.readWidest hrsp _
        · exact h.readWidest hreg _

theorem fetchBytes (pc : Word) (len : Nat) : Lockstep H R (ex.fetchBytes pc len) := by
  induction len with
  | zero => exact .throw _
  | succ len ih =>
      refine .get (fun w => ?_) fun w v hidata => by rw [hidata]
      refine .bind (h.callReadMem _ _ _ _) fun r => .bind (.modifyIdata r.2) fun _ => ?_
      split
      · exact .pure _
      · exact .bind h.callClearError fun _ => ih

omit h in
theorem decodeInstruction (n : Nat) : Lockstep H R (ex.decodeInstruction n) := by
  refine .get (fun w => ?_) fun w v hidata => by rw [hidata]
  split
  · exact .throw _
  · exact .bind (.onGlobals fun _ hg => hg) fun _ => .pure _

/-- The fetch, which starts with nothing asked for. -/
theorem fetch : RelTriple (Alike H R) ex.fetch ex.fetch
    (fun a b w v => a = b ∧ AlikeApart H R w v) fun e f _ _ => e = f := by
  have hpc : ex.pcReg ≠ .tsc := ex.widestRegister_ne_tsc nofun
  have hrest : Lockstep H R (do
      ex.readPC
      let g ← getGlobals
      let pc ← ex.callComputeAddress (.reg (.seg .cs)) (ex.getPC g) 0 0 0 8 .readExecutable
      let instLength ← ex.fetchBytes pc 15
      ex.decodeInstruction instLength) := by
    refine .bind (.bind (.onGlobals fun _ hg => hg) fun _ => h.readRegister hpc _) fun _ => ?_
    refine .getGlobals fun g _ => .bind (h.callComputeAddress _ _ _ _ _ _ _) fun pc => ?_
    exact .bind (h.fetchBytes pc 15) fun len => decodeInstruction len
  intro w v hw
  refine hrest _ _ ⟨⟨congrArg Executor.resetGlobals hw.globals, hw.idata, hw.trace, hw.host, hw.env⟩, rfl⟩

theorem readFlags (hH : ∀ a b, H a b → b 0 = a 0 ∧ H (fun n => a (n + 1)) fun n => b (n + 1))
    (inst : Inst) : Lockstep H R (ex.readFlags inst) := by
  have hloop (mask : Word) (fs : List Flag) :
      ∀ data aflag, Lockstep H R (ex.readFlagLoop mask fs data aflag) := by
    induction fs with
    | nil => exact fun _ _ => .pure _
    | cons f fs ih =>
        intro data aflag
        unfold Executor.readFlagLoop
        split
        · have hname : RegName.flag f ≠ .reg .tsc := fun heq => by cases heq
          refine .bind (h.callReadReg hname _ _ _) fun r => ?_
          split
          · exact ih _ _
          · exact .throw _
        · exact ih _ _
  have hflags : ex.widestRegister .eflags ≠ .tsc := ex.widestRegister_ne_tsc (by decide)
  have hhost : Lockstep H R (Executor.pushHostFlags : ExecM σ Word) := by
    intro w v hw
    obtain ⟨hfirst, hlater⟩ := hH _ _ hw.1.host
    exact ⟨hfirst.symm, ⟨hw.1.globals, hw.1.idata, hw.1.trace, hlater, hw.1.env⟩, hw.2⟩
  refine .bind (.onGlobals fun _ hg => hg) fun _ => ?_
  split
  · exact .pure _
  · refine .bind (.onGlobals fun g hg => ?_) fun _ => .bind hhost fun host => ?_
    · rw [ex.noteFlags_usedRegs, Function.update_of_ne (Ne.symm hflags)]
      exact hg
    · exact .bind (hloop _ _ _ _) fun _ => .onGlobals fun _ hg => hg

theorem readRegisters {inst : Inst} (hinst : inst.AvoidsTSC) :
    Lockstep H R (ex.readRegisters inst) := by
  have hmem (ops : List Operand) : ∀ i, Lockstep H R (ex.readMemRegisters inst i ops) := by
    induction ops with
    | nil => exact fun _ => .pure _
    | cons op ops ih =>
        intro i
        unfold Executor.readMemRegisters
        split
        · refine .bind (.bind (h.readRegister (hinst.base _) _) fun _ => ?_) fun _ => ih (i + 1)
          exact h.readRegister (hinst.index _) _
        · exact ih i
  have hop (hint : RegRequestHint) {op : Operand} (hop : op ∈ inst.operands) :
      Lockstep H R (ex.readOperandRegister inst hint op) := by
    unfold Executor.readOperandRegister
    split
    case h_1 r hname => exact h.readRegister (hinst.operand op hop r hname) _
    · exact .pure _
  refine .bind (hmem _ 0) fun _ => .bind (.forM fun op hmem => ?_) fun _ => .forM fun op hmem => ?_
  · exact hop _ (List.mem_of_mem_filter hmem)
  · exact hop _ (List.mem_of_mem_filter hmem)

theorem readOperands (inst : Inst) : Lockstep H R (ex.readOperands inst) := by
  have hdescribe (op : Operand) (i : Fin 2) (g : Globals) (hg : g.usedRegs .tsc = false) :
      (ex.describeCell inst op i g).usedRegs .tsc = false := by
    have hmarks := adjustDisplacement_unseen ex unseen_marks (fun _ _ => rfl) inst i g
    have hused := congrFun (congrArg Prod.fst hmarks) .tsc
    exact hused.trans hg
  have hoperand (op : Operand) (i : Fin 2) : Lockstep H R (ex.readMemoryOperand inst op i) := by
    refine .bind (.onGlobals (hdescribe op i)) fun _ => .getGlobals fun g _ => ?_
    refine .bind (h.callComputeAddress _ _ _ _ _ _ _) fun addr => .bind (.onGlobals fun _ hg => hg) fun _ => ?_
    split
    · exact .pure _
    · refine .getGlobals fun g _ => .bind (h.callReadMem _ _ _ _) fun r => ?_
      exact .bind (.onGlobals fun _ hg => hg) fun _ => .check _ _
  refine .bind ?_ fun _ => .bind (.onGlobals fun g hg => ?_) fun _ =>
    .bind (.onGlobals fun _ hg => hg) fun _ => .forM fun op _ => ?_
  · refine .getGlobals fun g _ => ?_
    split
    · refine .bind (h.callReadFPU _) fun r => ?_
      exact .bind (.onGlobals fun _ hg => hg) fun _ => .check _ _
    · exact .pure _
  · unfold Executor.whenMMX
    split
    · exact hg
    · exact hg
  · unfold Executor.readMemoryAt
    split
    · exact hoperand op 0
    · exact hoperand op 0
    · exact hoperand op 1
    · exact .pure _

/-! ## carrying out -/

omit h in
theorem carryOut (inst : Inst) (nextPC : Word) : Lockstep H R (ex.carryOut inst nextPC) := by
  have hunseen : Executor.Unseen Globals.usedRegs :=
    ⟨fun _ _ _ => rfl, fun _ _ => rfl, fun _ _ => rfl, fun _ _ => rfl⟩
  refine .getGlobals fun g hg => ?_
  split
  case h_1 pc g' he =>
    have hused : g'.usedRegs = g.usedRegs :=
      ex.emulate_unaffected (fun _ _ _ => rfl) (fun _ _ _ => rfl) (fun _ _ => rfl) he
    exact .bind (.onGlobals fun _ _ => by rw [hused, hg]) fun _ => .pure _
  · exact .throw _
  · refine .bind (.bind (.getGlobals fun g hg => ?_) fun enc => .getGlobals fun g hg => ?_)
      fun _ => .pure _
    · refine .bind (.onGlobals fun _ _ => ?_) fun _ => .bind (.check _ _) fun _ => ?_
      · exact (congrFun (hunseen.encodableOperands ex inst _ _ _) _).trans hg
      · split
        · exact .bind (.check _ _) fun _ => .pure _
        · exact .pure _
    · refine .bind (.onGlobals fun _ _ => ?_) fun _ => ?_
      · exact (congrFun (hunseen.executeNative ex enc g) _).trans hg
      · unfold Executor.checkSignal
        split
        · exact .pure _
        · exact .throw _
        · exact .throw _
        · exact .throw _
        · exact .throw _

/-! ## writing -/

theorem writeOperands : Lockstep H R ex.writeOperands := by
  have hcell (i : Fin 2) : Lockstep H R (ex.writeCell i) := by
    refine .getGlobals fun g _ => ?_
    dsimp only
    split
    · exact .pure _
    · exact .bind (h.callWriteMem _ _ _) fun ok => .check _ _
  refine .bind (.bind (hcell 0) fun _ => hcell 1) fun _ => .bind ?_ fun _ => .onGlobals fun g hg => ?_
  · refine .getGlobals fun g _ => ?_
    split
    · exact .bind (h.callWriteFPU _) fun ok => .check _ _
    · exact .pure _
  · have hmarks := whenMMX_unseen (copyMMXStateFromFPU_unseen unseen_marks) g
    exact (congrFun (congrArg Prod.fst hmarks) .tsc).trans hg

theorem commit (nextPC : Word) : Lockstep H R (ex.commit nextPC) := by
  have hwrite {r : Reg} (hr : r ≠ .tsc) : Lockstep H R (ex.writeRegister r) := by
    have hname : RegName.reg r ≠ .reg .tsc := fun heq => hr (RegName.reg.inj heq)
    exact .getGlobals fun g _ => .bind (h.callWriteReg hname _ _) fun ok => .check _ _
  have hflag (f : Flag) : Lockstep H R (ex.writeFlag f) := by
    have hname : RegName.flag f ≠ .reg .tsc := nofun
    refine .getGlobals fun g _ => ?_
    split
    · exact .bind (h.callWriteReg hname _ _) fun ok => .check _ _
    · exact .pure _
  have hforget (g : Globals) (hg : g.usedRegs .tsc = false) :
      (ex.forgetFlags g).usedRegs .tsc = false := by
    simp [Executor.forgetFlags, Function.update_apply, hg]
  refine .bind (.getGlobals fun g _ => ?_) fun _ => .bind (.onGlobals fun _ hg => hg) fun _ => ?_
  · split
    · refine .bind (.onGlobals hforget) fun _ => .bind (.forM fun f _ => hflag f) fun _ => ?_
      exact .onGlobals fun _ hg => hg
    · exact .pure _
  · refine .bind (.onGlobals fun g hg => ?_) fun _ => .bind (.forM fun r _ => ?_) fun _ =>
      .getGlobals fun g hg => ?_
    · exact (congrFun (congrArg Prod.fst (ex.dropAlias_marks g)) .tsc).trans hg
    · refine .getGlobals fun g hg => ?_
      split
      case isTrue hused =>
        refine hwrite ?_
        rintro rfl
        simp [hg] at hused
      · exact .pure _
    · split
      case h_1 r hpc =>
        refine hwrite ?_
        rintro rfl
        have hused := (used_of_usedPC hpc).1
        rw [hg] at hused
        contradiction
      · exact .pure _

/-! ## whole instructions -/

variable (hH : ∀ a b, H a b → b 0 = a 0 ∧ H (fun n => a (n + 1)) fun n => b (n + 1))

include hH

/-- **An instruction that avoids the time-stamp counter** does the same in both worlds. -/
theorem executeInstruction {w v : World σ} (hw : Alike H R w v)
    (havoids : ∀ inst w', ex.fetch w = .ok inst w' → inst.AvoidsTSC) :
    RelMeets (fun _ _ => Alike H R) (fun e f _ _ => e = f) (ex.executeInstruction w)
      (ex.executeInstruction v) := by
  have hrest (inst : Inst) (hinst : inst.AvoidsTSC) : Lockstep H R (do
      ex.readState inst
      let nextPC ← ex.perform inst
      ex.commit nextPC) := by
    refine .bind (.bind (.check _ _) fun _ => .bind (h.readFlags hH inst) fun _ => ?_) fun _ =>
      .bind (.getGlobals fun g _ => ?_) fun nextPC => h.commit nextPC
    · exact h.readRegisters hinst
    · dsimp only
      split
      · exact .pure _
      · refine .bind (h.readOperands inst) fun _ => .bind (carryOut inst _) fun nextPC => ?_
        exact .bind h.writeOperands fun _ => .pure _
  have hfetch := h.fetch w v hw
  unfold Executor.executeInstruction
  cases hr : ex.fetch w with
  | error e w₁ =>
      cases hr' : ex.fetch v with
      | error f v₁ =>
          rw [hr, hr'] at hfetch
          rw [run_bind_error hr, run_bind_error hr']
          exact hfetch
      | ok inst v₁ =>
          rw [hr, hr'] at hfetch
          exact hfetch.elim
  | ok inst w₁ =>
      cases hr' : ex.fetch v with
      | error f v₁ =>
          rw [hr, hr'] at hfetch
          exact hfetch.elim
      | ok inst' v₁ =>
          rw [hr, hr'] at hfetch
          obtain ⟨rfl, halike⟩ := hfetch
          rw [run_bind_ok hr, run_bind_ok hr']
          exact ((hrest inst (havoids _ _ hr)).conseq (fun _ _ h => h) (fun _ _ _ _ h => h.2.1)
            fun _ _ _ _ h => h) w₁ v₁ halike

end Indistinct

end Microx
