import Microx.Executor.Flat
import Microx.Executor.Invariant
import Microx.Executor.NoTrace

/-!
# Microx.Executor.Traffic

The registers that one instruction asks the environment for, and the ones that
it writes.

The source keeps three sets of registers for this.  `Traffic` is what matters
of them, next to the names that were passed to `ReadReg` and `WriteReg`.  Most
of an instruction leaves it alone (`SameTraffic`); `ReadRegister` and
`ReadFlags` ask for what was not asked for before (`Reading`), and `WriteFlags`
and `WriteRegisters` write parts of lists without repetition (`Writes`).
-/

namespace Microx

open Hoare

variable {σ α β : Type}

/-! ## names -/

/-- The name passed to `ReadReg`. -/
def Event.readName : Event → Option RegName
  | .readReg name .. => some name
  | _ => none

/-- The name passed to `WriteReg`. -/
def Event.writtenName : Event → Option RegName
  | .writeReg name .. => some name
  | _ => none

/-- The names passed to `ReadReg`, in order. -/
def readNames (events : List Event) : List RegName := events.filterMap Event.readName

/-- The names passed to `WriteReg`, in order. -/
def writtenNames (events : List Event) : List RegName := events.filterMap Event.writtenName

@[simp] theorem readNames_append (e₁ e₂ : List Event) :
    readNames (e₁ ++ e₂) = readNames e₁ ++ readNames e₂ :=
  List.filterMap_append

@[simp] theorem writtenNames_append (e₁ e₂ : List Event) :
    writtenNames (e₁ ++ e₂) = writtenNames e₁ ++ writtenNames e₂ :=
  List.filterMap_append

/-- The registers in use, the registers to write back, and the names passed to callbacks. -/
structure Traffic where
  used : Reg → Bool
  modified : Reg → Bool
  reads : List RegName
  writes : List RegName

/-- The sets of registers among the globals. -/
def Globals.marks (g : Globals) : (Reg → Bool) × (Reg → Bool) := (g.usedRegs, g.modifiedRegs)

/-- Running an instruction marks nothing. -/
theorem unseen_marks : Executor.Unseen Globals.marks :=
  ⟨fun _ _ _ => rfl, fun _ _ => rfl, fun _ _ => rfl, fun _ _ => rfl⟩

def World.traffic (w : World σ) : Traffic where
  used := w.globals.usedRegs
  modified := w.globals.modifiedRegs
  reads := readNames w.trace
  writes := writtenNames w.trace

namespace Traffic

/-- `gModifiedRegs.set(widest_reg)`, for a hint to write back. -/
def note (hint : RegRequestHint) (r : Reg) (τ : Traffic) : Traffic :=
  if hint = .writeBack then { τ with modified := Function.update τ.modified r true } else τ

/-- Ask for a register unless it is in use. -/
def request (r : Reg) (τ : Traffic) : Traffic :=
  if τ.used r then τ
  else { τ with used := Function.update τ.used r true, reads := τ.reads ++ [.reg r] }

end Traffic

/-! ## code that asks for no register -/

/-- An assertion on the traffic. -/
def Holds (R : Traffic → Prop) (w : World σ) : Prop := R w.traffic

/-- A block that keeps an assertion on the traffic, however it ends. -/
abbrev Preserves (R : Traffic → Prop) (m : ExecM σ α) : Prop :=
  Triple (Holds R) m (fun _ => Holds R) fun _ => Holds R

/-- A block that leaves the traffic alone, however it ends. -/
def SameTraffic (m : ExecM σ α) : Prop :=
  ∀ τ, Preserves (· = τ) m

namespace SameTraffic

theorem preserves {m : ExecM σ α} (h : SameTraffic m) (R : Traffic → Prop) : Preserves R m := by
  intro w hw
  refine (h w.traffic).conseq (fun _ hs => hs) (fun _ w' hs => ?_) (fun _ w' hs => ?_) w rfl
  · rw [Holds, show w'.traffic = w.traffic from hs]
    exact hw
  · rw [Holds, show w'.traffic = w.traffic from hs]
    exact hw

theorem bind {m : ExecM σ α} {f : α → ExecM σ β} (hm : SameTraffic m)
    (hf : ∀ a, SameTraffic (f a)) : SameTraffic (m >>= f) :=
  fun τ => Triple.bind (hm τ) fun a => hf a τ

theorem pure (a : α) : SameTraffic (Pure.pure a : ExecM σ α) := fun _ => Triple.pure fun _ h => h

theorem throw (status : ExecutorStatus) : SameTraffic (MonadExcept.throw status : ExecM σ α) :=
  fun _ => Triple.throw fun _ h => h

theorem check (ok : Bool) (status : ExecutorStatus) :
    SameTraffic (Executor.check ok status : ExecM σ Unit) := by
  cases ok with
  | true => exact pure _
  | false => exact throw _

/-- A change of the globals that leaves the marks alone. -/
theorem onGlobals {f : Globals → Globals} (h : ∀ g, (f g).marks = g.marks) :
    SameTraffic (Microx.onGlobals f : ExecM σ Unit) := by
  refine fun τ => Triple.update fun w hw => ?_
  have hused : (f w.globals).usedRegs = w.globals.usedRegs := congrArg Prod.fst (h w.globals)
  have hmodified : (f w.globals).modifiedRegs = w.globals.modifiedRegs :=
    congrArg Prod.snd (h w.globals)
  simp only [Holds, World.traffic, World.withGlobals, hused, hmodified]
  exact hw

theorem getGlobals {f : Globals → ExecM σ β} (h : ∀ g, SameTraffic (f g)) :
    SameTraffic (Microx.getGlobals >>= f) :=
  fun τ => triple_readGlobals fun g => h g τ

theorem get {f : World σ → ExecM σ β} (h : ∀ w, SameTraffic (f w)) :
    SameTraffic (MonadState.get >>= f) :=
  fun τ => Triple.read fun w => h w τ

theorem forM {l : List α} {f : α → ExecM σ PUnit} (h : ∀ a, SameTraffic (f a)) :
    SameTraffic (l.forM f) :=
  fun τ => Triple.forM fun a _ => h a τ

theorem ite {c : Prop} [Decidable c] {m m' : ExecM σ α} (hm : SameTraffic m)
    (hm' : SameTraffic m') : SameTraffic (if c then m else m') := by
  split
  · exact hm
  · exact hm'

end SameTraffic

/-- A callback that is not about a register. -/
theorem traffic_called (w : World σ) (env : σ) {e : Event} (hr : e.readName = none)
    (hw : e.writtenName = none) : (w.called env e).traffic = w.traffic := by
  simp [World.traffic, World.called, readNames, writtenNames, hr, hw]

theorem traffic_readReg (w : World σ) (env : σ) (name : RegName) (size : Nat)
    (hint : RegRequestHint) (ok : Bool) :
    (w.called env (.readReg name size hint ok)).traffic =
      { w.traffic with reads := w.traffic.reads ++ [name] } := by
  simp [World.traffic, World.called, readNames, writtenNames, Event.readName, Event.writtenName]

theorem traffic_writeReg (w : World σ) (env : σ) (name : RegName) (size : Nat) (data : Data)
    (ok : Bool) :
    (w.called env (.writeReg name size data ok)).traffic =
      { w.traffic with writes := w.traffic.writes ++ [name] } := by
  simp [World.traffic, World.called, readNames, writtenNames, Event.readName, Event.writtenName]

theorem traffic_withGlobals (f : Globals → Globals) (w : World σ) :
    (w.withGlobals f).traffic =
      { w.traffic with used := (f w.globals).marks.1, modified := (f w.globals).marks.2 } := rfl

section

variable (ex : Executor σ)

theorem callComputeAddress_traffic (seg : RegName) (base index scale disp : Word) (size : Nat)
    (hint : MemRequestHint) :
    SameTraffic (ex.callComputeAddress seg base index scale disp size hint) :=
  fun _ w hw => (traffic_called w _ rfl rfl).trans hw

theorem callReadMem_traffic (addr : Word) (size : Nat) (hint : MemRequestHint) (data : Data) :
    SameTraffic (ex.callReadMem addr size hint data) :=
  fun _ w hw => (traffic_called w _ rfl rfl).trans hw

theorem callWriteMem_traffic (addr : Word) (size : Nat) (data : Data) :
    SameTraffic (ex.callWriteMem addr size data) :=
  fun _ w hw => (traffic_called w _ rfl rfl).trans hw

theorem callReadFPU_traffic (fpu : FPU) : SameTraffic (ex.callReadFPU fpu) :=
  fun _ w hw => (traffic_called w _ rfl rfl).trans hw

theorem callWriteFPU_traffic (fpu : FPU) : SameTraffic (ex.callWriteFPU fpu) :=
  fun _ w hw => (traffic_called w _ rfl rfl).trans hw

theorem fetchBytes_traffic (pc : Word) (len : Nat) : SameTraffic (ex.fetchBytes pc len) := by
  induction len with
  | zero => exact .throw _
  | succ len ih =>
      refine .get fun w => (callReadMem_traffic ex _ _ _ _).bind fun r => ?_
      refine SameTraffic.bind (fun _ _ hw => hw) fun _ => .ite (.pure _) ?_
      exact SameTraffic.bind (fun _ _ hw => hw) fun _ => ih

theorem decodeInstruction_traffic (numBytes : Nat) : SameTraffic (ex.decodeInstruction numBytes) := by
  refine .get fun w => ?_
  split
  · exact .throw _
  · exact .bind (.onGlobals fun _ => rfl) fun _ => .pure _

/-! ### memory and the FPU -/

theorem readMemory_traffic (inst : Inst) : SameTraffic (ex.readMemory inst) := by
  have hdisp (i : Fin 2) (g : Globals) : (ex.adjustDisplacement inst i g).2.marks = g.marks :=
    adjustDisplacement_unseen ex unseen_marks (fun _ _ => rfl) inst i g
  have hcell (hint : MemRequestHint) (i : Fin 2) : SameTraffic (ex.readCell hint i) := by
    refine .getGlobals fun g => (callReadMem_traffic ex _ _ _ _).bind fun r => ?_
    exact .bind (.onGlobals fun _ => rfl) fun _ => .check _ _
  have hoperand (op : Operand) (i : Fin 2) : SameTraffic (ex.readMemoryOperand inst op i) := by
    refine .bind (.onGlobals fun g => hdisp i g) fun _ => ?_
    refine .getGlobals fun g => (callComputeAddress_traffic ex _ _ _ _ _ _ _).bind fun addr => ?_
    refine .bind (.onGlobals fun _ => rfl) fun _ => ?_
    exact .ite (.pure _) (hcell _ _)
  refine .bind (.onGlobals fun _ => rfl) fun _ => .forM fun op => ?_
  unfold Executor.readMemoryAt
  split
  · exact hoperand op 0
  · exact hoperand op 0
  · exact hoperand op 1
  · exact .pure _

theorem readFPUState_traffic : SameTraffic ex.readFPUState := by
  refine .getGlobals fun g => .ite ((callReadFPU_traffic ex _).bind fun r => ?_) (.pure _)
  exact .bind (.onGlobals fun _ => rfl) fun _ => .check _ _

theorem readOperands_traffic (inst : Inst) : SameTraffic (ex.readOperands inst) := by
  refine (readFPUState_traffic ex).bind fun _ => ?_
  exact .bind (.onGlobals (whenMMX_unseen fun _ => rfl)) fun _ => readMemory_traffic ex inst

theorem writeOperands_traffic : SameTraffic ex.writeOperands := by
  have hcell (i : Fin 2) : SameTraffic (ex.writeCell i) := by
    refine .getGlobals fun g => .ite (.pure _) ?_
    exact (callWriteMem_traffic ex _ _ _).bind fun ok => .check _ _
  have hfpu : SameTraffic ex.writeFPUState := by
    refine .getGlobals fun g => .ite ?_ (.pure _)
    exact (callWriteFPU_traffic ex _).bind fun ok => .check _ _
  refine .bind ((hcell 0).bind fun _ => hcell 1) fun _ => hfpu.bind fun _ => ?_
  exact .onGlobals (whenMMX_unseen (copyMMXStateFromFPU_unseen unseen_marks))

end

/-! ## what is written back, and why -/

namespace Executor

/-- The widest flags register. -/
def flagsReg (ex : Executor σ) : Reg := ex.widestRegister .eflags

end Executor

/-- An instruction has a stack pseudo-register among its registers. -/
def Inst.UsesStackOp (inst : Inst) : Prop :=
  (∃ op ∈ inst.operands, ∃ r, op.name = .reg r ∧ (inst.reg r).isStackOp = true) ∨
    ∃ i, (inst.memOperand i).baseReg.isStackOp = true ∨ (inst.memOperand i).indexReg.isStackOp = true

/-- The reasons to write a register back, the program counter apart. -/
inductive WrittenBack (ex : Executor σ) (inst : Inst) : Reg → Prop where
  | operand {op : Operand} {r : RegOp} (hop : op ∈ inst.operands) (hw : op.written = true)
      (hname : op.name = .reg r) : WrittenBack ex inst (ex.widestRegister (inst.reg r))
  | stack (h : inst.UsesStackOp) : WrittenBack ex inst (ex.wide .rsp)
  | pointer {op : StringOp} {r : Reg} (hform : inst.iform.stringOp = some op)
      (hr : r ∈ ex.pointers op) : WrittenBack ex inst r

namespace Executor

variable (ex : Executor σ)

/-- A widest register that is a program counter is the widest one. -/
theorem isPC_widestRegister {r : Reg} (h : isPC (ex.widestRegister r) = true) :
    ex.widestRegister r = ex.pcReg := by
  revert h
  unfold isPC pcReg widestRegister
  cases ex.addrSize <;> cases ex.hasAVX <;> cases ex.hasAVX512 <;> cases r <;>
    simp [Reg.largestEnclosing, Reg.largestEnclosing32, Reg.withoutAVX, Reg.withoutAVX512]

/-- A widest register that is a flags register is the widest one. -/
theorem flags_widestRegister {r : Reg} (h : (ex.widestRegister r).largestEnclosing = .rflags) :
    ex.widestRegister r = ex.flagsReg := by
  revert h
  unfold flagsReg widestRegister
  cases ex.addrSize <;> cases ex.hasAVX <;> cases ex.hasAVX512 <;> cases r <;>
    simp [Reg.largestEnclosing, Reg.largestEnclosing32, Reg.withoutAVX, Reg.withoutAVX512]

end Executor

/-! ## reading registers -/

/-- What was asked for since `start` are these names, none of them twice.  Flags of `later` were
not asked for yet, and what is to be written back is `marked`. -/
structure Asked (ex : Executor σ) (start : Traffic) (marked : Reg → Prop) (later : List Flag)
    (names : List RegName) (τ : Traffic) : Prop where
  reads : τ.reads = start.reads ++ names
  writes : τ.writes = start.writes
  nodup : names.Nodup
  used_of_mem : ∀ r, RegName.reg r ∈ names → τ.used r = true
  /-- `ReadFlags` uses the flags register without asking for it. -/
  mem_of_used : ∀ r, τ.used r = true → RegName.reg r ∈ names ∨ r = ex.flagsReg
  widest : ∀ r, τ.used r = true → ∃ r', r = ex.widestRegister r'
  later : ∀ f ∈ later, RegName.flag f ∉ names
  marked : ∀ r, τ.modified r = true → marked r
  pc : τ.used ex.pcReg = true

/-- An instruction that read its program counter. -/
def Reading (ex : Executor σ) (start : Traffic) (marked : Reg → Prop) (later : List Flag)
    (τ : Traffic) : Prop :=
  ∃ names, Asked ex start marked later names τ

/-- An instruction that wrote no register. -/
def NotWriting (start τ : Traffic) : Prop :=
  ∃ names, τ.reads = start.reads ++ names ∧ names.Nodup ∧ τ.writes = start.writes

namespace Reading

variable {ex : Executor σ} {start τ : Traffic} {marked : Reg → Prop} {later : List Flag}

theorem notWriting (h : Reading ex start marked later τ) : NotWriting start τ := by
  obtain ⟨names, h⟩ := h
  exact ⟨names, h.reads, h.nodup, h.writes⟩

theorem mono {marked' : Reg → Prop} (h : Reading ex start marked later τ)
    (hm : ∀ r, marked r → marked' r) : Reading ex start marked' later τ := by
  obtain ⟨names, h⟩ := h
  exact ⟨names, { h with marked := fun r hr => hm r (h.marked r hr) }⟩

/-- A register is asked for at most once. -/
theorem request (h : Reading ex start marked later τ) (r : Reg) :
    Reading ex start marked later (τ.request (ex.widestRegister r)) := by
  unfold Traffic.request
  split
  · exact h
  case isFalse hused =>
    obtain ⟨names, h⟩ := h
    have hnot : RegName.reg (ex.widestRegister r) ∉ names := fun hmem => hused (h.used_of_mem _ hmem)
    refine ⟨names ++ [.reg (ex.widestRegister r)], ?_⟩
    constructor
    · simp [h.reads]
    · exact h.writes
    · simp [List.nodup_append, h.nodup]
      exact fun a ha heq => hnot (heq ▸ ha)
    · intro r' hr'
      by_cases heq : r' = ex.widestRegister r
      · simp [heq]
      · simp only [List.mem_append, List.mem_singleton, RegName.reg.injEq, heq, or_false] at hr'
        simp [heq, h.used_of_mem r' hr']
    · intro r' hr'
      by_cases heq : r' = ex.widestRegister r
      · simp [heq]
      · simp only [Function.update_of_ne heq] at hr'
        simpa [heq] using h.mem_of_used r' hr'
    · intro r' hr'
      by_cases heq : r' = ex.widestRegister r
      · exact ⟨r, heq⟩
      · simp only [Function.update_of_ne heq] at hr'
        exact h.widest r' hr'
    · intro f hf
      simp [h.later f hf]
    · exact h.marked
    · by_cases heq : ex.pcReg = ex.widestRegister r
      · simp [heq]
      · simp [heq, h.pc]

/-- A register is marked. -/
theorem note (h : Reading ex start marked later τ) (hint : RegRequestHint) (r : Reg)
    (hr : hint = .writeBack → marked r) : Reading ex start marked later (τ.note hint r) := by
  unfold Traffic.note
  split
  case isTrue hhint =>
    obtain ⟨names, h⟩ := h
    refine ⟨names, { h with marked := fun r' hr' => ?_ }⟩
    by_cases heq : r' = r
    · rw [heq]
      exact hr hhint
    · simp only [Function.update_of_ne heq] at hr'
      exact h.marked r' hr'
  · exact h

/-- A flag is asked for at most once. -/
theorem flag {f : Flag} (h : Reading ex start marked (f :: later) τ) (hf : f ∉ later) :
    Reading ex start marked later { τ with reads := τ.reads ++ [.flag f] } := by
  obtain ⟨names, h⟩ := h
  have hnot : RegName.flag f ∉ names := h.later f (by simp)
  refine ⟨names ++ [.flag f], ?_⟩
  constructor
  · simp [h.reads]
  · exact h.writes
  · simp [List.nodup_append, h.nodup]
    exact fun a ha heq => hnot (heq ▸ ha)
  · intro r hr
    exact h.used_of_mem r (by simpa using hr)
  · intro r hr
    simpa using h.mem_of_used r hr
  · exact h.widest
  · intro f' hf'
    have hne : f' ≠ f := fun heq => hf (heq ▸ hf')
    simp [h.later f' (by simp [hf']), hne]
  · exact h.marked
  · exact h.pc

theorem weaken (h : Reading ex start marked later τ) : Reading ex start marked [] τ := by
  obtain ⟨names, h⟩ := h
  exact ⟨names, { h with later := nofun }⟩

/-- `ReadFlags` marks the flags register. -/
theorem noteFlags {w : World σ} {rflags : RFlagsInfo} (h : Reading ex start marked later w.traffic)
    (hm : marked ex.flagsReg) :
    Reading ex start marked later (w.withGlobals (ex.noteFlags rflags)).traffic := by
  obtain ⟨names, h⟩ := h
  have hused : (w.withGlobals (ex.noteFlags rflags)).traffic.used =
      Function.update w.traffic.used ex.flagsReg true :=
    ex.noteFlags_usedRegs rflags w.globals
  refine ⟨names, ?_⟩
  constructor
  · exact h.reads
  · exact h.writes
  · exact h.nodup
  · intro r hr
    rw [hused, Function.update_apply]
    split
    · rfl
    · exact h.used_of_mem r hr
  · intro r hr
    rw [hused, Function.update_apply] at hr
    split at hr
    case isTrue heq => exact .inr heq
    · exact h.mem_of_used r hr
  · intro r hr
    rw [hused, Function.update_apply] at hr
    split at hr
    case isTrue heq => exact ⟨.eflags, heq⟩
    · exact h.widest r hr
  · exact h.later
  · intro r hr
    by_cases heq : r = ex.flagsReg
    · rw [heq]
      exact hm
    · refine h.marked r ?_
      simp only [World.traffic, World.withGlobals, Executor.noteFlags] at hr
      split at hr
      · exact (Function.update_of_ne heq _ _).symm.trans hr
      · exact hr
  · rw [hused, Function.update_apply]
    split
    · rfl
    · exact h.pc

theorem skip {f : Flag} (h : Reading ex start marked (f :: later) τ) :
    Reading ex start marked later τ := by
  obtain ⟨names, h⟩ := h
  exact ⟨names, { h with later := fun f' hf' => h.later f' (by simp [hf']) }⟩

end Reading

section

variable (ex : Executor σ)

/-- A change of the globals that may change the marks. -/
theorem onGlobals_traffic {f : Globals → Globals} (τ τ' : Traffic)
    (h : ∀ w : World σ, w.traffic = τ → (w.withGlobals f).traffic = τ')
    {E : ExecutorStatus → World σ → Prop} :
    Triple (Holds (· = τ)) (onGlobals f) (fun _ => Holds (· = τ')) E :=
  Triple.modify fun w hw => h w hw

theorem requestRegister_traffic (reg widestReg : Reg) (hint : RegRequestHint) {τ : Traffic}
    (hnew : ¬τ.used widestReg = true) :
    Triple (Holds (· = τ)) (ex.requestRegister reg widestReg hint)
      (fun _ => Holds (· = τ.request widestReg)) fun _ => Holds (· = τ.request widestReg) := by
  unfold Executor.requestRegister
  refine Triple.bind (Q := fun _ => Holds (· = τ)) (Triple.update fun w hw => hw) fun _ =>
    triple_readGlobals fun g => ?_
  refine Triple.bind (Q := fun _ => Holds (· = { τ with reads := τ.reads ++ [.reg widestReg] })) ?_
    fun r => Triple.bind (Q := fun _ => Holds (· = τ.request widestReg)) ?_ fun _ =>
      (SameTraffic.check r.1 _).preserves _
  · intro w hw
    have hw : w.traffic = τ := hw
    rw [← hw]
    exact traffic_readReg w _ _ _ _ _
  · refine onGlobals_traffic _ _ fun w hw => ?_
    rw [Traffic.request, if_neg hnew]
    rw [Traffic.mk.injEq] at hw ⊢
    obtain ⟨hused, hmodified, hreads, hwrites⟩ := hw
    refine ⟨?_, hmodified, hreads, hwrites⟩
    rw [← hused]
    rfl

theorem readWidest_traffic (reg : Reg) (hint : RegRequestHint) (τ : Traffic) :
    Triple (Holds (· = τ)) (ex.readWidest reg hint)
      (fun _ => Holds (· = (τ.note hint (ex.widestRegister reg)).request (ex.widestRegister reg)))
      fun _ => Holds (· = (τ.note hint (ex.widestRegister reg)).request (ex.widestRegister reg)) := by
  unfold Executor.readWidest
  refine Triple.bind (onGlobals_traffic τ (τ.note hint (ex.widestRegister reg)) ?_) fun _ =>
    triple_getGlobals fun w hw => ?_
  · rintro w rfl
    unfold Traffic.note Globals.noteHint World.traffic World.withGlobals
    split <;> simp [Globals.setModified, *]
  · have hused : w.globals.usedRegs = (τ.note hint (ex.widestRegister reg)).used :=
      congrArg Traffic.used hw
    rw [hused]
    split
    case isTrue h =>
      refine Triple.pure fun v hv => ?_
      rw [Traffic.request, if_pos h]
      exact hv ▸ hw
    case isFalse h => exact (requestRegister_traffic ex reg _ hint h).pre fun v hv => hv ▸ hw

theorem noteClass_marks (reg : Reg) (g : Globals) : (g.noteClass reg).marks = g.marks := by
  unfold Globals.noteClass
  split <;> rfl

theorem readRegister_reading {start : Traffic} {marked : Reg → Prop} {later : List Flag} {reg : Reg}
    {hint : RegRequestHint} (hmarked : hint = .writeBack → marked (ex.widestRegister reg))
    (hstack : reg.isStackOp = true → marked (ex.wide .rsp)) :
    Preserves (Reading ex start marked later) (ex.readRegister reg hint) := by
  have hread {r : Reg} {hint : RegRequestHint} (hr : hint = .writeBack → marked (ex.widestRegister r)) :
      Preserves (Reading ex start marked later) (ex.readWidest r hint) := by
    intro w hw
    have hnext := (Reading.note hw hint _ hr).request r
    refine (readWidest_traffic ex r hint w.traffic).conseq (fun _ h => h) (fun _ v hv => ?_)
      (fun _ v hv => ?_) w rfl
    · rwa [Holds, show v.traffic = _ from hv]
    · rwa [Holds, show v.traffic = _ from hv]
  unfold Executor.readRegister
  split
  · exact Triple.pure fun _ h => h
  · split
    · exact (SameTraffic.onGlobals fun _ => rfl).preserves _
    · refine Triple.bind ((SameTraffic.onGlobals (noteClass_marks reg)).preserves _) fun _ => ?_
      split
      case isTrue h => exact hread fun _ => hstack h
      · exact hread hmarked

/-! ### the program counter -/

/-- The program counter is the first register that is asked for. -/
theorem readPC_reading {start : Traffic} (hused : start.used = fun _ => false)
    (hmodified : start.modified = fun _ => false) :
    Triple (Holds (· = start)) ex.readPC
      (fun _ => Holds (Reading ex start (· = ex.pcReg) Flag.all))
      fun _ => Holds (Reading ex start (· = ex.pcReg) Flag.all) := by
  have hpc (hint : RegRequestHint) : ex.readRegister ex.pcReg hint = (do
      onGlobals (Globals.noteClass ex.pcReg)
      ex.readWidest ex.pcReg hint) := by
    rcases ex.pcReg_cases with h | h <;> rw [h.2] <;> rfl
  obtain ⟨τ, hτ⟩ : ∃ τ : Traffic, τ = { start with
    modified := Function.update (fun _ => false) ex.pcReg true } := ⟨_, rfl⟩
  have hread : Reading ex start (· = ex.pcReg) Flag.all (τ.request ex.pcReg) := by
    refine ⟨[.reg ex.pcReg], ?_⟩
    constructor
    all_goals simp [hτ, Traffic.request, hused, Function.update_apply]
    exact ⟨.eip, rfl⟩
  rw [Executor.readPC, hpc]
  refine Triple.bind (onGlobals_traffic start τ ?_) fun _ =>
    Triple.bind (onGlobals_traffic τ τ fun w hw => ?_) fun _ => ?_
  · rintro w rfl
    rw [hτ, ← hmodified]
    rfl
  · rw [traffic_withGlobals, noteClass_marks]
    exact hw
  · refine (readWidest_traffic ex ex.pcReg .programCounter τ).conseq (fun _ h => h) ?_ ?_
    all_goals
      intro _ v hv
      rw [Holds, show v.traffic = _ from hv, ex.widestRegister_pcReg]
      exact hread

theorem fetch_reading (w₀ : World σ) :
    Triple (· = w₀) ex.fetch (fun _ => Holds (Reading ex w₀.traffic (· = ex.pcReg) Flag.all))
      fun _ => Holds (NotWriting w₀.traffic) := by
  have hstart {τ : Traffic} (h : Reading ex { w₀.traffic with
      used := fun _ => false, modified := fun _ => false } (· = ex.pcReg) Flag.all τ) :
      Reading ex w₀.traffic (· = ex.pcReg) Flag.all τ := by
    obtain ⟨names, h⟩ := h
    exact ⟨names, { h with }⟩
  have hsame {α : Type} {m : ExecM σ α} (h : SameTraffic m) :
      Triple (Holds (Reading ex w₀.traffic (· = ex.pcReg) Flag.all)) m
        (fun _ => Holds (Reading ex w₀.traffic (· = ex.pcReg) Flag.all))
        fun _ => Holds (NotWriting w₀.traffic) :=
    (h.preserves _).conseq (fun _ h => h) (fun _ _ h => h) fun _ _ h => Reading.notWriting h
  unfold Executor.fetch
  refine Triple.bind (onGlobals_traffic w₀.traffic { w₀.traffic with
    used := fun _ => false, modified := fun _ => false } ?_ |>.pre ?_) fun _ => ?_
  · rintro w hw
    rw [← hw]
    rfl
  · rintro w rfl
    rfl
  refine Triple.bind ((readPC_reading ex rfl rfl).conseq (fun _ h => h) (fun _ _ h => hstart h)
    fun _ _ h => (hstart h).notWriting) fun _ => ?_
  refine hsame (.getGlobals fun g => (callComputeAddress_traffic ex _ _ _ _ _ _ _).bind fun pc => ?_)
  exact (fetchBytes_traffic ex pc 15).bind fun len => decodeInstruction_traffic ex len

/-! ### flags -/

theorem readFlagLoop_reading {start : Traffic} {marked : Reg → Prop} (mask : Word) (fs : List Flag) :
    fs.Nodup → ∀ data aflag, Triple (Holds (Reading ex start marked fs))
      (ex.readFlagLoop mask fs data aflag) (fun _ => Holds (Reading ex start marked []))
      fun _ => Holds (NotWriting start) := by
  induction fs with
  | nil => exact fun _ _ _ => Triple.pure fun _ h => h
  | cons f fs ih =>
      intro hnodup data aflag
      obtain ⟨hf, hfs⟩ := List.nodup_cons.mp hnodup
      unfold Executor.readFlagLoop
      split
      · refine Triple.bind (Q := fun _ => Holds (Reading ex start marked fs)) ?_ fun r => ?_
        · intro w hw
          have hflag := Reading.flag hw hf
          rw [← traffic_readReg] at hflag
          exact hflag
        · split
          · exact ih hfs _ _
          · exact Triple.throw fun _ h => Reading.notWriting h
      · exact (ih hfs _ _).pre fun _ h => Reading.skip h

theorem readFlags_reading {start : Traffic} {marked : Reg → Prop} (hmarked : marked ex.flagsReg)
    (inst : Inst) :
    Triple (Holds (Reading ex start marked Flag.all)) (ex.readFlags inst)
      (fun _ => Holds (Reading ex start marked [])) fun _ => Holds (NotWriting start) := by
  unfold Executor.readFlags
  refine Triple.bind (Q := fun _ => Holds (Reading ex start marked Flag.all))
    (Triple.update fun _ h => h) fun _ => ?_
  split
  · exact Triple.pure fun _ h => Reading.weaken h
  · refine Triple.bind (Q := fun _ => Holds (Reading ex start marked Flag.all)) ?_ fun _ => ?_
    · exact Triple.update fun w hw => Reading.noteFlags hw hmarked
    · refine Triple.bind (Q := fun _ => Holds (Reading ex start marked Flag.all)) (fun _ h => h)
        fun hostFlags => ?_
      refine Triple.bind (readFlagLoop_reading ex _ _ Flag.nodup_all _ _) fun _ => ?_
      exact Triple.update fun _ h => h

/-! ### operands -/

theorem readRegisters_reading {start : Traffic} {marked : Reg → Prop} (inst : Inst)
    (hmarked : ∀ r, WrittenBack ex inst r → marked r) :
    Preserves (Reading ex start marked []) (ex.readRegisters inst) := by
  have hmem (ops : List Operand) : ∀ i, Preserves (Reading ex start marked [])
      (ex.readMemRegisters inst i ops) := by
    induction ops with
    | nil => exact fun _ => Triple.pure fun _ h => h
    | cons op ops ih =>
        intro i
        unfold Executor.readMemRegisters
        split
        · refine Triple.bind (Q := fun _ => Holds (Reading ex start marked []))
            (Triple.bind (Q := fun _ => Holds (Reading ex start marked [])) ?_ fun _ => ?_)
            fun _ => ih (i + 1)
          · exact readRegister_reading ex (fun heq => by cases heq) fun h => hmarked _ (.stack (.inr ⟨_, .inl h⟩))
          · exact readRegister_reading ex (fun heq => by cases heq) fun h => hmarked _ (.stack (.inr ⟨_, .inr h⟩))
        · exact ih i
  have hop {hint : RegRequestHint} {op : Operand} (hop : op ∈ inst.operands)
      (hhint : hint = .writeBack → op.written = true) :
      Preserves (Reading ex start marked []) (ex.readOperandRegister inst hint op) := by
    unfold Executor.readOperandRegister
    split
    case h_1 r hname =>
      refine readRegister_reading ex (fun h => ?_) fun h => ?_
      · exact hmarked _ (.operand hop (hhint h) hname)
      · exact hmarked _ (.stack (.inl ⟨op, hop, r, hname, h⟩))
    · exact Triple.pure fun _ h => h
  refine Triple.bind (hmem _ 0) fun _ =>
    Triple.bind (Q := fun _ => Holds (Reading ex start marked [])) ?_ fun _ => ?_
  · refine Triple.forM fun op hmem => hop (List.mem_of_mem_filter hmem) fun heq => by cases heq
  · refine Triple.forM fun op hmem => hop (List.mem_of_mem_filter hmem) fun _ => ?_
    exact List.of_mem_filter hmem

/-! ### carrying out -/

theorem carryOut_reading {start : Traffic} {marked : Reg → Prop} {inst : Inst}
    (hmarked : ∀ r, WrittenBack ex inst r → marked r) (nextPC : Word) :
    Preserves (Reading ex start marked []) (ex.carryOut inst nextPC) := by
  refine triple_getGlobals fun w hw => ?_
  cases he : ex.emulate inst nextPC w.globals with
  | emulated pc g =>
      have hinv : Executor.UnaffectedBy marked fun g =>
          Reading ex start marked [] (w.withGlobals fun _ => g).traffic :=
        ⟨fun _ _ _ h => h, fun _ _ _ h => h, fun r g hr h => h.note .writeBack r fun _ => hr⟩
      have hg : Reading ex start marked [] (w.withGlobals fun _ => g).traffic :=
        hinv.emulate ex (fun op hform r hr => hmarked r (.pointer hform hr)) he hw
      refine Triple.bind (Q := fun _ => Holds (Reading ex start marked [])) (Triple.modify ?_)
        fun _ => Triple.pure fun _ h => h
      rintro v rfl
      exact hg
  | unsupported status => exact Triple.throw fun v hv => hv ▸ hw
  | notEmulated pc =>
      refine Triple.bind (Q := fun _ => Holds (Reading ex start marked [])) ?_
        fun _ => Triple.pure fun _ h => h
      refine (runNative_unseen ex unseen_marks _ (fun v v' _ htrace hmarks hv => ?_) inst).pre
        fun v hv => hv ▸ hw
      have hsame : v'.traffic = v.traffic := by
        rw [World.traffic, World.traffic, htrace, show v'.globals.usedRegs = _ from
          congrArg Prod.fst hmarks, show v'.globals.modifiedRegs = _ from congrArg Prod.snd hmarks]
        rfl
      rw [Holds, hsame]
      exact hv

theorem perform_reading {start : Traffic} {marked : Reg → Prop} {inst : Inst}
    (hmarked : ∀ r, WrittenBack ex inst r → marked r) :
    Preserves (Reading ex start marked []) (ex.perform inst) := by
  refine triple_readGlobals fun g => ?_
  dsimp only
  split
  · exact Triple.pure fun _ h => h
  · refine Triple.bind ((readOperands_traffic ex inst).preserves _) fun _ => ?_
    refine Triple.bind (carryOut_reading ex hmarked _) fun nextPC => ?_
    exact Triple.bind ((writeOperands_traffic ex).preserves _) fun _ => Triple.pure fun _ h => h

/-- The registers to write back are the program counter, the flags, and those there is a reason
for. -/
def Marked (inst : Inst) (r : Reg) : Prop :=
  r = ex.pcReg ∨ r = ex.flagsReg ∨ WrittenBack ex inst r

/-- Everything between the decoder and the first register that is written. -/
theorem readState_reading {start : Traffic} (inst : Inst) :
    Triple (Holds (Reading ex start (Marked ex inst) Flag.all)) (ex.readState inst)
      (fun _ => Holds (Reading ex start (Marked ex inst) [])) fun _ => Holds (NotWriting start) := by
  refine Triple.bind (((SameTraffic.check _ _).preserves _).conseq (fun _ h => h) (fun _ _ h => h)
    fun _ _ h => Reading.notWriting h) fun _ => ?_
  refine Triple.bind (readFlags_reading ex (.inr (.inl rfl)) inst) fun _ => ?_
  refine (readRegisters_reading ex inst fun r h => .inr (.inr h)).conseq (fun _ h => h)
    (fun _ _ h => h) fun _ _ h => Reading.notWriting h

end

/-! ## writing registers -/

/-- Of these names some were written, in order. -/
def Wrote (names : List RegName) (τ τ' : Traffic) : Prop :=
  τ'.reads = τ.reads ∧ ∃ done, done.Sublist names ∧ τ'.writes = τ.writes ++ done

theorem Wrote.append {names₁ names₂ : List RegName} {τ₁ τ₂ τ₃ : Traffic} (h : Wrote names₁ τ₁ τ₂)
    (h' : Wrote names₂ τ₂ τ₃) : Wrote (names₁ ++ names₂) τ₁ τ₃ := by
  obtain ⟨hreads, done, hdone, hwrites⟩ := h
  obtain ⟨hreads', more, hmore, hwrites'⟩ := h'
  exact ⟨hreads'.trans hreads, done ++ more, hdone.append hmore, by simp [hwrites, hwrites']⟩

theorem Wrote.stop {names₁ names₂ : List RegName} {τ₁ τ₂ : Traffic} (h : Wrote names₁ τ₁ τ₂) :
    Wrote (names₁ ++ names₂) τ₁ τ₂ := by
  obtain ⟨hreads, done, hdone, hwrites⟩ := h
  exact ⟨hreads, done, hdone.trans (List.sublist_append_left _ _), hwrites⟩

theorem Wrote.nothing {names : List RegName} {τ τ' : Traffic} (h : τ' = τ) : Wrote names τ τ' :=
  ⟨by rw [h], [], by simp, by simp [h]⟩

/-- A block that leaves the globals alone and writes some of these names, however it ends. -/
def Writes (g : Globals) (names : List RegName) (m : ExecM σ α) : Prop :=
  ∀ τ, Triple (fun w => w.globals = g ∧ w.traffic = τ) m
    (fun _ w => w.globals = g ∧ Wrote names τ w.traffic) fun _ w => Wrote names τ w.traffic

namespace Writes

variable {g : Globals} {names names₁ names₂ : List RegName}

theorem bind {m : ExecM σ α} {f : α → ExecM σ β} (hm : Writes g names₁ m)
    (hf : ∀ a, Writes g names₂ (f a)) : Writes g (names₁ ++ names₂) (m >>= f) := by
  intro τ
  refine Triple.bind ((hm τ).conseq (fun _ h => h) (fun _ _ h => h) fun _ _ h => h.stop)
    fun a w hw => ?_
  exact (hf a w.traffic).conseq (fun _ h => h) (fun _ _ h => ⟨h.1, hw.2.append h.2⟩)
    (fun _ _ h => hw.2.append h) w ⟨hw.1, rfl⟩

theorem pure (a : α) : Writes g [] (Pure.pure a : ExecM σ α) :=
  fun _ => Triple.pure fun _ h => ⟨h.1, .nothing h.2⟩

theorem check (ok : Bool) (status : ExecutorStatus) :
    Writes g [] (Executor.check ok status : ExecM σ Unit) := by
  cases ok with
  | true => exact pure _
  | false => exact fun _ => Triple.throw fun _ h => .nothing h.2

theorem getGlobals {f : Globals → ExecM σ β} (h : Writes g names (f g)) :
    Writes g names (Microx.getGlobals >>= f) := by
  refine fun τ => triple_getGlobals fun w hw => ?_
  rw [hw.1]
  exact (h τ).pre fun v hv => hv ▸ hw

end Writes

namespace Executor

variable (ex : Executor σ) (g : Globals)

/-- The registers that the loop of `WriteRegisters` writes. -/
def isWritten (r : Reg) : Bool := g.usedRegs r && !isPC r && g.modifiedRegs r

end Executor

section

variable (ex : Executor σ) {g : Globals}

theorem callWriteReg_writes (name : RegName) (size : Nat) (data : Data) :
    Writes g [name] (ex.callWriteReg name size data) := by
  rintro τ w ⟨hg, rfl⟩
  refine ⟨hg, ?_⟩
  rw [traffic_writeReg]
  exact ⟨rfl, [name], List.Sublist.refl _, rfl⟩

theorem writeFlag_writes (f : Flag) : Writes g [.flag f] (ex.writeFlag f) := by
  refine .getGlobals ?_
  split
  · exact (callWriteReg_writes ex _ _ _).bind fun ok => .check ok _
  · exact fun τ => Triple.pure fun _ h => ⟨h.1, .nothing h.2⟩

theorem writeRegister_writes (r : Reg) : Writes g [.reg r] (ex.writeRegister r) :=
  .getGlobals <| (callWriteReg_writes ex _ _ _).bind fun ok => .check ok _

/-- The loop of `WriteFlags`. -/
theorem writeFlagLoop_writes (fs : List Flag) :
    Writes g (fs.map .flag) (fs.forM ex.writeFlag) := by
  induction fs with
  | nil => exact .pure _
  | cons f fs ih => exact (writeFlag_writes ex f).bind fun _ => ih

/-- The loop of `WriteRegisters`. -/
theorem writeRegisterLoop_writes (regs : List Reg) :
    Writes g ((regs.filter (Executor.isWritten g)).map .reg) (regs.forM ex.writeModified) := by
  induction regs with
  | nil => exact .pure _
  | cons r regs ih =>
      have hround : Writes g (if Executor.isWritten g r then [.reg r] else [])
          (ex.writeModified r) := by
        refine .getGlobals ?_
        unfold Executor.isWritten
        split
        · exact writeRegister_writes ex r
        · exact .pure _
      have hcons := hround.bind fun _ => ih
      rw [List.filter_cons]
      split
      case isTrue h => simpa [h] using hcons
      case isFalse h => simpa [h] using hcons

end

/-! ### the whole of it -/

namespace Executor

variable (ex : Executor σ)

theorem isPC_flagsReg : isPC ex.flagsReg = false := by
  by_contra h
  have hpc := largestEnclosing_of_isPC (by simpa using h)
  have hflags : ex.flagsReg.largestEnclosing = .rflags := largestEnclosing_widestRegister rfl
  rw [hflags] at hpc
  contradiction

theorem isWritten_congr {g g' : Globals} (h : g'.marks = g.marks) : isWritten g' = isWritten g := by
  have hused : g'.usedRegs = g.usedRegs := congrArg Prod.fst h
  have hmodified : g'.modifiedRegs = g.modifiedRegs := congrArg Prod.snd h
  funext r
  simp [isWritten, hused, hmodified]

theorem usedPC_congr {g g' : Globals} (h : g'.marks = g.marks) : ex.usedPC g' = ex.usedPC g := by
  have hused : g'.usedRegs = g.usedRegs := congrArg Prod.fst h
  simp [usedPC, hused]

/-- The names that may be written at the end of an instruction, in order. -/
def commitNames (g : Globals) : List RegName :=
  Flag.all.map .flag ++
    ((ex.xed.regs.filter fun r => isWritten g r && decide (r ≠ ex.flagsReg)).map .reg ++
      (ex.usedPC g).toList.map .reg)

theorem dropAlias_marks (g : Globals) : (ex.dropAlias g).marks = g.marks := by
  unfold dropAlias
  split
  · exact unseen_marks.writeGPR ex _ _ g
  · rfl

theorem isWritten_forgetFlags (g : Globals) :
    isWritten (ex.forgetFlags g) = fun r => isWritten g r && decide (r ≠ ex.flagsReg) := by
  funext r
  by_cases hr : r = ex.flagsReg
  · simp [isWritten, forgetFlags, flagsReg, hr]
  · have hr' : r ≠ ex.widestRegister .eflags := hr
    simp [isWritten, forgetFlags, hr, hr']

theorem usedPC_forgetFlags (g : Globals) : ex.usedPC (ex.forgetFlags g) = ex.usedPC g := by
  unfold usedPC
  congr 1
  refine List.filter_congr fun r _ => ?_
  by_cases hr : r = ex.flagsReg
  · simp [hr, isPC_flagsReg]
  · have hr' : r ≠ ex.widestRegister .eflags := hr
    simp [forgetFlags, hr']

end Executor

section

variable (ex : Executor σ)

/-- After `WriteFlags` the flags register is not to be written back. -/
theorem writeFlags_wrote (w₀ : World σ) :
    Triple (· = w₀) ex.writeFlags
      (fun _ w => Wrote (Flag.all.map .flag) w₀.traffic w.traffic ∧
        Executor.isWritten w.globals =
          (fun r => Executor.isWritten w₀.globals r && decide (r ≠ ex.flagsReg)) ∧
        ex.usedPC w.globals = ex.usedPC w₀.globals)
      fun _ w => Wrote (Flag.all.map .flag) w₀.traffic w.traffic := by
  refine triple_getGlobals fun w hw => ?_
  subst hw
  split
  · refine Triple.bind (Q := fun _ v => v.globals = ex.forgetFlags w.globals ∧
      v.traffic = { w.traffic with
        used := (ex.forgetFlags w.globals).marks.1
        modified := (ex.forgetFlags w.globals).marks.2 }) (Triple.modify ?_) fun _ => ?_
    · rintro v rfl
      exact ⟨rfl, rfl⟩
    · refine Triple.bind (writeFlagLoop_writes ex Flag.all _) fun _ => Triple.modify fun v hv => ?_
      refine ⟨hv.2, ?_, ?_⟩
      · rw [← ex.isWritten_forgetFlags, ← hv.1]
        rfl
      · rw [← ex.usedPC_forgetFlags w.globals, ← hv.1]
        rfl
  case isFalse h =>
    refine Triple.pure ?_
    rintro v rfl
    refine ⟨.nothing rfl, ?_, rfl⟩
    funext r
    by_cases hr : r = ex.flagsReg
    · simp only [Bool.not_eq_true] at h
      simp [Executor.isWritten, hr, Executor.flagsReg, h]
    · simp [hr]

theorem writeRegisters_wrote (w₀ : World σ) :
    Triple (· = w₀) ex.writeRegisters
      (fun _ w => Wrote ((ex.xed.regs.filter (Executor.isWritten w₀.globals)).map .reg ++
        (ex.usedPC w₀.globals).toList.map .reg) w₀.traffic w.traffic)
      fun _ w => Wrote ((ex.xed.regs.filter (Executor.isWritten w₀.globals)).map .reg ++
        (ex.usedPC w₀.globals).toList.map .reg) w₀.traffic w.traffic := by
  have hmarks := ex.dropAlias_marks w₀.globals
  refine Triple.bind (Q := fun _ v => v.globals = ex.dropAlias w₀.globals ∧ v.traffic = w₀.traffic)
    (Triple.modify ?_) fun _ => ?_
  · rintro v rfl
    refine ⟨rfl, ?_⟩
    rw [traffic_withGlobals, hmarks]
    rfl
  · have hloop := writeRegisterLoop_writes ex (g := ex.dropAlias w₀.globals) ex.xed.regs
    rw [Executor.isWritten_congr hmarks] at hloop
    refine (Writes.bind hloop (fun _ => Writes.getGlobals ?_) w₀.traffic).post fun _ _ h => h.2
    rw [ex.usedPC_congr hmarks]
    cases ex.usedPC w₀.globals with
    | some reg => exact writeRegister_writes ex reg
    | none => exact .pure _

theorem commit_wrote (nextPC : Word) (w₀ : World σ) :
    Triple (· = w₀) (ex.commit nextPC)
      (fun _ w => Wrote (ex.commitNames w₀.globals) w₀.traffic w.traffic)
      fun _ w => Wrote (ex.commitNames w₀.globals) w₀.traffic w.traffic := by
  refine Triple.bind ((writeFlags_wrote ex w₀).conseq (fun _ h => h) (fun _ _ h => h)
    fun _ _ h => h.stop) fun _ w ⟨hwrote, hwritten, hpc⟩ => ?_
  have hmarks : (Executor.setNextPC nextPC w.globals).marks = w.globals.marks := rfl
  have hrest := writeRegisters_wrote ex (w.withGlobals (Executor.setNextPC nextPC))
  simp only [World.withGlobals] at hrest
  rw [Executor.isWritten_congr hmarks, ex.usedPC_congr hmarks, hwritten, hpc] at hrest
  exact hrest.conseq (fun _ h => h) (fun _ _ h => hwrote.append h) (fun _ _ h => hwrote.append h)
    _ rfl

/-- The callback of a register that was written. -/
theorem writeRegister_ok {w w' : World σ} {reg : Reg} (h : ex.writeRegister reg w = .ok () w') :
    w'.trace = w.trace ++ [.writeReg (.reg reg) (ex.width reg)
      (Bits.low (ex.width reg) (w.globals.regs reg.largestEnclosing)) true] := by
  obtain ⟨g, w₁, hg, h⟩ := bind_eq_ok.mp h
  cases hg
  obtain ⟨ok, w₂, hcall, hcheck⟩ := bind_eq_ok.mp h
  cases ok with
  | true =>
      cases hcheck
      cases hr : ex.writeReg (.reg reg) (ex.width reg) (w.globals.regs reg.largestEnclosing) w.env with
      | mk ok env =>
          simp only [Executor.callWriteReg, hr] at hcall
          cases hcall
          rfl
  | false => cases hcheck

/-- The next program counter survives until it is written. -/
theorem rip_dropAlias (nextPC : Word) (g : Globals) :
    (ex.dropAlias (Executor.setNextPC nextPC g)).regs .rip =
      Bits.put 0 64 (g.regs .rip) nextPC := by
  have hset : (Executor.setNextPC nextPC g).regs .rip = Bits.put 0 64 (g.regs .rip) nextPC := by
    simp [Executor.setNextPC, Globals.setReg]
  have hne : Reg.rip ≠ (Reg.gpr64 .rsp).largestEnclosing := by decide
  unfold Executor.dropAlias
  split
  · rw [← hset]
    exact ex.regs_writeGPR_of_ne hne (ex.readGPR (Executor.setNextPC nextPC g).stackPtrAlias
      (Executor.setNextPC nextPC g)) _
  · exact hset

/-- The last write of an instruction is the one of the program counter. -/
theorem commit_last {w w' : World σ} {nextPC : Word} (hpc : ex.usedPC w.globals = some ex.pcReg)
    (h : ex.commit nextPC w = .ok () w') :
    ∃ before, w'.trace = before ++ [.writeReg (.reg ex.pcReg) ex.addrSize.bits
      (Bits.low ex.addrSize.bits (nextPC.setWidth 512)) true] := by
  obtain ⟨_, w₁, hflags, h⟩ := bind_eq_ok.mp h
  obtain ⟨_, w₂, hnext, h⟩ := bind_eq_ok.mp h
  obtain ⟨_, w₃, halias, h⟩ := bind_eq_ok.mp h
  obtain ⟨_, w₄, hloop, h⟩ := bind_eq_ok.mp h
  obtain ⟨g, w₅, hg, h⟩ := bind_eq_ok.mp h
  cases hnext
  cases halias
  cases hg
  have hwrote := writeFlags_wrote ex w w rfl
  rw [hflags] at hwrote
  have hglobals := writeRegisterLoop_writes ex ex.xed.regs _
    ((w₁.withGlobals (Executor.setNextPC nextPC)).withGlobals ex.dropAlias) ⟨rfl, rfl⟩
  rw [hloop] at hglobals
  have hmarks : w₄.globals.marks = w₁.globals.marks := by
    rw [hglobals.1]
    exact ex.dropAlias_marks _
  rw [ex.usedPC_congr hmarks, hwrote.2.2, hpc] at h
  refine ⟨w₄.trace, ?_⟩
  rw [writeRegister_ok ex h, ex.width_pcReg, ex.largestEnclosing_pcReg, hglobals.1]
  have hdata := Bits.low_put_of_le ex.addrSize.bits_le (w₁.globals.regs .rip) nextPC
  rw [← hdata, ← rip_dropAlias]
  rfl

end

/-! ## the discipline -/

/-- The names that an instruction reads and writes. -/
structure Disciplined (ex : Executor σ) (w : World σ) (read written : List RegName) : Prop where
  read_once : read.Nodup
  written_once : written.Nodup
  written_read : ∀ r, RegName.reg r ∈ written → RegName.reg r ∈ read
  written_back : ∀ r, RegName.reg r ∈ written → r ≠ ex.pcReg →
    ∃ inst w₁, ex.fetch w = .ok inst w₁ ∧ WrittenBack ex inst r
  flags_apart : ∀ r, RegName.reg r ∈ written → r.largestEnclosing ≠ .rflags

/-- An instruction that ends well writes the program counter last. -/
def WritesPCLast (ex : Executor σ) (w w' : World σ) : Prop :=
  ∃ inst w₁ w₂ nextPC w₃ before, ex.fetch w = .ok inst w₁ ∧ ex.readState inst w₁ = .ok () w₂ ∧
    ex.perform inst w₂ = .ok nextPC w₃ ∧
    w'.trace = before ++ [.writeReg (.reg ex.pcReg) ex.addrSize.bits
      (Bits.low ex.addrSize.bits (nextPC.setWidth 512)) true]

section

variable {ex : Executor σ} {g : Globals} {r : Reg}

theorem used_of_usedPC (h : ex.usedPC g = some r) :
    g.usedRegs r = true ∧ Executor.isPC r = true := by
  have hmem := List.mem_of_getLast? h
  simpa using (List.mem_filter.mp hmem).2

theorem reg_mem_commitNames (h : RegName.reg r ∈ ex.commitNames g) :
    g.usedRegs r = true ∧ r ≠ ex.flagsReg ∧
      (Executor.isPC r = true ∨ g.modifiedRegs r = true) := by
  simp only [Executor.commitNames, List.mem_append, List.mem_map, List.mem_filter,
    Option.mem_toList, RegName.reg.injEq, exists_eq_right, reduceCtorEq, and_false, exists_false,
    false_or] at h
  rcases h with ⟨-, h⟩ | h
  · simp only [Executor.isWritten, Bool.and_eq_true, decide_eq_true_eq] at h
    exact ⟨h.1.1.1, h.2, .inr h.1.2⟩
  · obtain ⟨hused, hpc⟩ := used_of_usedPC h
    refine ⟨hused, ?_, .inl hpc⟩
    rintro rfl
    rw [ex.isPC_flagsReg] at hpc
    contradiction

theorem nodup_commitNames (g : Globals) : (ex.commitNames g).Nodup := by
  have hflags : (Flag.all.map RegName.flag).Nodup := by decide
  have hregs : ((ex.xed.regs.filter fun r => Executor.isWritten g r && decide (r ≠ ex.flagsReg)).map
      RegName.reg).Nodup := by
    refine List.Nodup.map (fun _ _ h => RegName.reg.inj h) ?_
    exact ex.xed.nodup_regs.filter _
  have hpc : ((ex.usedPC g).toList.map RegName.reg).Nodup := by
    cases ex.usedPC g <;> simp
  refine List.nodup_append.mpr ⟨hflags, List.nodup_append.mpr ⟨hregs, hpc, ?_⟩, ?_⟩
  · intro a ha b hb heq
    simp only [List.mem_map, List.mem_filter, Option.mem_toList] at ha hb
    obtain ⟨r, ⟨-, hr⟩, rfl⟩ := ha
    obtain ⟨r', hr', rfl⟩ := hb
    cases heq
    have hpc := (used_of_usedPC hr').2
    simp [Executor.isWritten, hpc] at hr
  · intro a ha b hb heq
    simp only [List.mem_append, List.mem_map] at ha hb
    obtain ⟨f, -, rfl⟩ := ha
    rcases hb with ⟨r, -, rfl⟩ | ⟨r, -, rfl⟩ <;> cases heq

/-- The only program counter in use is the widest one. -/
theorem Asked.usedPC {start : Traffic} {marked : Reg → Prop} {later : List Flag}
    {names : List RegName} {w : World σ} (h : Asked ex start marked later names w.traffic) :
    ex.usedPC w.globals = some ex.pcReg := by
  have hisPC : Executor.isPC ex.pcReg = true := by
    rcases ex.pcReg_cases with h | h <;> rw [h.2] <;> rfl
  cases hlast : ex.usedPC w.globals with
  | none =>
      have hnil := List.getLast?_eq_none_iff.mp hlast
      have hmem : ex.pcReg ∈ ex.xed.regs.filter fun r => w.globals.usedRegs r && Executor.isPC r := by
        have hused : w.globals.usedRegs ex.pcReg = true := h.pc
        simp [ex.xed.mem_regs, hused, hisPC]
      rw [hnil] at hmem
      contradiction
  | some r =>
      obtain ⟨hused, hpc⟩ := used_of_usedPC hlast
      obtain ⟨r', rfl⟩ := h.widest r hused
      rw [ex.isPC_widestRegister hpc]

/-- What is written at the end was read, for a reason. -/
theorem Asked.disciplined {start τ : Traffic} {names : List RegName} {w w₀ w₁ : World σ} {inst : Inst}
    (h : Asked ex start (Marked ex inst) [] names w.traffic) (hfetch : ex.fetch w₀ = .ok inst w₁)
    (hw : Wrote (ex.commitNames w.globals) w.traffic τ) :
    ∃ written, τ.reads = start.reads ++ names ∧ τ.writes = start.writes ++ written ∧
      Disciplined ex w₀ names written := by
  obtain ⟨hreads, written, hsub, hwrites⟩ := hw
  have hnames {r : Reg} (hr : RegName.reg r ∈ written) := reg_mem_commitNames (hsub.subset hr)
  refine ⟨written, by rw [hreads, h.reads], by rw [hwrites, h.writes], ?_⟩
  constructor
  · exact h.nodup
  · exact (nodup_commitNames w.globals).sublist hsub
  · intro r hr
    obtain ⟨hused, hflags, -⟩ := hnames hr
    exact (h.mem_of_used r hused).resolve_right hflags
  · intro r hr hpc
    obtain ⟨hused, hflags, hisPC | hmodified⟩ := hnames hr
    · obtain ⟨r', rfl⟩ := h.widest r hused
      exact absurd (ex.isPC_widestRegister hisPC) hpc
    · obtain hp | hf | hback := h.marked r hmodified
      · exact absurd hp hpc
      · exact absurd hf hflags
      · exact ⟨inst, w₁, hfetch, hback⟩
  · intro r hr henc
    obtain ⟨hused, hflags, -⟩ := hnames hr
    obtain ⟨r', rfl⟩ := h.widest r hused
    exact hflags (ex.flags_widestRegister henc)

/-- An instruction that wrote nothing. -/
theorem NotWriting.disciplined {start τ : Traffic} (h : NotWriting start τ) (w₀ : World σ) :
    ∃ read written, τ.reads = start.reads ++ read ∧ τ.writes = start.writes ++ written ∧
      Disciplined ex w₀ read written := by
  obtain ⟨names, hreads, hnodup, hwrites⟩ := h
  refine ⟨names, [], hreads, by simp [hwrites], ?_⟩
  constructor
  · exact hnodup
  all_goals simp

/-- The traffic of one instruction, and its end. -/
theorem executeInstruction_traffic (ex : Executor σ) (w₀ : World σ) :
    Triple (· = w₀) ex.executeInstruction
      (fun _ w => (∃ read written, w.traffic.reads = w₀.traffic.reads ++ read ∧
        w.traffic.writes = w₀.traffic.writes ++ written ∧ Disciplined ex w₀ read written) ∧
        WritesPCLast ex w₀ w)
      fun _ w => ∃ read written, w.traffic.reads = w₀.traffic.reads ++ read ∧
        w.traffic.writes = w₀.traffic.writes ++ written ∧ Disciplined ex w₀ read written := by
  intro w hw
  rw [show w = w₀ from hw]
  unfold Executor.executeInstruction
  have hfetch := fetch_reading ex w₀ w₀ rfl
  cases hf : ex.fetch w₀ with
  | error status w₁ =>
      rw [hf] at hfetch
      rw [run_bind_error hf]
      exact NotWriting.disciplined hfetch w₀
  | ok inst w₁ =>
      rw [hf] at hfetch
      rw [run_bind_ok hf]
      have hstate := readState_reading ex inst w₁ (Reading.mono hfetch fun _ h => .inl h)
      cases hs : ex.readState inst w₁ with
      | error status w₂ =>
          rw [hs] at hstate
          rw [run_bind_error hs]
          exact NotWriting.disciplined hstate w₀
      | ok u w₂ =>
          rw [hs] at hstate
          rw [run_bind_ok hs]
          have hperform := perform_reading ex (fun r h => .inr (.inr h)) w₂ hstate
          cases hp : ex.perform inst w₂ with
          | error status w₃ =>
              rw [hp] at hperform
              rw [run_bind_error hp]
              exact NotWriting.disciplined (Reading.notWriting hperform) w₀
          | ok nextPC w₃ =>
              rw [hp] at hperform
              rw [run_bind_ok hp]
              obtain ⟨names, hasked⟩ := hperform
              have hcommit := commit_wrote ex nextPC w₃ w₃ rfl
              cases hc : ex.commit nextPC w₃ with
              | error status w₄ =>
                  rw [hc] at hcommit
                  exact ⟨names, hasked.disciplined hf hcommit⟩
              | ok u' w₄ =>
                  rw [hc] at hcommit
                  refine ⟨⟨names, hasked.disciplined hf hcommit⟩, ?_⟩
                  obtain ⟨before, hbefore⟩ := commit_last ex hasked.usedPC hc
                  exact ⟨inst, w₁, w₂, nextPC, w₃, before, hf, hs, hp, hbefore⟩

/-- The callbacks are those made since. -/
theorem invariant_since (ex : Executor σ) (t : List Event) :
    Invariant ex (Since (fun _ => True) t) where
  reads :=
    { computeAddress := fun _ _ _ _ _ _ _ h => h.snoc trivial
      readReg := fun _ _ _ _ h => h.snoc trivial
      readMem := fun _ _ _ _ h => h.snoc trivial
      readFPU := fun _ h => h.snoc trivial
      clearError := fun h => h }
  commits :=
    { writeReg := fun _ _ _ h => h.snoc trivial
      writeFPU := fun _ h => h.snoc trivial }
  writeMem := fun _ _ _ h => h.snoc trivial

/-- From `w` to `w'` an instruction kept to the discipline. -/
def KeepsDiscipline (ex : Executor σ) (w w' : World σ) : Prop :=
  ∃ events, w'.trace = w.trace ++ events ∧
    Disciplined ex w (readNames events) (writtenNames events)

theorem keepsDiscipline_of_traffic {w w' : World σ} (h : Sat (Since (fun _ => True) w.trace) w')
    (ht : ∃ read written, w'.traffic.reads = w.traffic.reads ++ read ∧
      w'.traffic.writes = w.traffic.writes ++ written ∧ Disciplined ex w read written) :
    KeepsDiscipline ex w w' := by
  obtain ⟨events, htrace, -⟩ := h
  obtain ⟨read, written, hread, hwritten, hd⟩ := ht
  have hread' : readNames events = read := by
    simpa [World.traffic, htrace] using hread
  have hwritten' : writtenNames events = written := by
    simpa [World.traffic, htrace] using hwritten
  exact ⟨events, htrace, hread' ▸ hwritten' ▸ hd⟩

theorem executeInstruction_disciplined (ex : Executor σ) (w : World σ) :
    Meets (fun _ w' => KeepsDiscipline ex w w' ∧ WritesPCLast ex w w')
      (fun _ w' => KeepsDiscipline ex w w') (ex.executeInstruction w) := by
  have hevents := (invariant_since ex w.trace).executeInstruction w (Since.refl _ w)
  have htraffic := executeInstruction_traffic ex w w rfl
  cases hr : ex.executeInstruction w with
  | ok u w' =>
      rw [hr] at hevents htraffic
      exact ⟨keepsDiscipline_of_traffic hevents htraffic.1, htraffic.2⟩
  | error status w' =>
      rw [hr] at hevents htraffic
      exact keepsDiscipline_of_traffic hevents htraffic

/-- **The register traffic of one instruction**: no name is read twice or written twice; what is
written was read and is the program counter or has a reason; the flags register is not written as
a whole; and an instruction that ends well writes the next program counter last. -/
theorem execute_disciplined (ex : Executor σ) (w : World σ) :
    Meets (fun _ w' => KeepsDiscipline ex w w' ∧ WritesPCLast ex w w')
      (fun _ w' => KeepsDiscipline ex w w') (ex.execute 1 w) := by
  cases hinit : ex.isInitialized with
  | false =>
      rw [Executor.execute_of_not_initialized hinit (by decide)]
      exact ⟨[], by simp, by constructor <;> simp [readNames, writtenNames]⟩
  | true =>
      rw [Executor.execute_one hinit]
      exact executeInstruction_disciplined ex w

end

end Microx
