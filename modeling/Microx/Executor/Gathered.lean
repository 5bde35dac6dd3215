import Microx.Executor.Phases

/-!
# Microx.Executor.Gathered

The general-purpose registers that the reading half of an instruction has asked
for, as `gStoreRegs` and `gUsedRegs` have them: those that the decoded
instruction names, and no others.
-/

namespace Microx

open Hoare

variable {σ α β : Type}

/-! ## the registers of an instruction -/

/-- Where `ReadRegister` stores a register. -/
def Reg.stored (r : Reg) : Reg := if r.isStackOp then .gpr64 .rsp else r.largestEnclosing

namespace Inst

variable (inst : Inst)

/-- The registers of the memory operands, in the order of `ReadRegisters`; the counter is
`mem_index`. -/
def addressRegs : Nat → List Operand → List Reg
  | _, [] => []
  | memIndex, op :: ops =>
      if op.name.isMemory then
        (inst.memOperand (Fin.ofNat 2 memIndex)).baseReg ::
          (inst.memOperand (Fin.ofNat 2 memIndex)).indexReg :: addressRegs (memIndex + 1) ops
      else addressRegs memIndex ops

/-- The register of an operand that is one. -/
def operandRegs (op : Operand) : List Reg :=
  match op.name with
  | .reg r => [inst.reg r]
  | _ => []

/-- The registers that `ReadRegisters` reads, in order. -/
def readRegs : List Reg :=
  inst.addressRegs 0 inst.operands ++
    ((inst.operands.filter (!·.written)).flatMap inst.operandRegs ++
      (inst.operands.filter (·.written)).flatMap inst.operandRegs)

/-- The instruction reads a register of a family. -/
def Reads (x : Gpr) : Prop := ∃ r ∈ inst.readRegs, r.stored = .gpr64 x

variable {inst}

theorem operand_mem_readRegs {op : Operand} (hop : op ∈ inst.operands) {r : RegOp}
    (hname : op.name = .reg r) : inst.reg r ∈ inst.readRegs := by
  have hmem : inst.reg r ∈ inst.operandRegs op := by simp [operandRegs, hname]
  cases hw : op.written with
  | false =>
      have hfilter : op ∈ inst.operands.filter (!·.written) := List.mem_filter.mpr ⟨hop, by simp [hw]⟩
      exact List.mem_append_right _ (List.mem_append_left _ (List.mem_flatMap.mpr ⟨op, hfilter, hmem⟩))
  | true =>
      have hfilter : op ∈ inst.operands.filter (·.written) := List.mem_filter.mpr ⟨hop, hw⟩
      exact List.mem_append_right _ (List.mem_append_right _ (List.mem_flatMap.mpr ⟨op, hfilter, hmem⟩))

end Inst

/-! ## triples on the globals -/

/-- A block that leads from an assertion on the globals to another if it returns. -/
def Leads (P : Globals → Prop) (m : ExecM σ α) (Q : α → Globals → Prop) : Prop :=
  Triple (fun w => P w.globals) m (fun a w => Q a w.globals) fun _ _ => True

namespace Leads

variable {P P' : Globals → Prop} {Q Q' : α → Globals → Prop} {R : β → Globals → Prop}
  {m : ExecM σ α}

theorem bind {f : α → ExecM σ β} (hm : Leads P m Q) (hf : ∀ a, Leads (Q a) (f a) R) :
    Leads P (m >>= f) R :=
  Triple.bind hm hf

theorem conseq (h : Leads P m Q) (hp : ∀ g, P' g → P g) (hq : ∀ a g, Q a g → Q' a g) :
    Leads P' m Q' :=
  Triple.conseq h (fun _ => hp _) (fun a _ => hq a _) fun _ _ _ => trivial

theorem post (h : Leads P m Q) (hq : ∀ a g, Q a g → Q' a g) : Leads P m Q' :=
  h.conseq (fun _ hp => hp) hq

theorem pure {a : α} (h : ∀ g, P g → Q a g) : Leads P (Pure.pure a : ExecM σ α) Q :=
  Triple.pure fun _ => h _

theorem throw (status : ExecutorStatus) : Leads P (MonadExcept.throw status : ExecM σ α) Q :=
  Triple.throw fun _ _ => trivial

theorem check (ok : Bool) (status : ExecutorStatus) :
    Leads P (Executor.check ok status : ExecM σ Unit) fun _ => P := by
  cases ok with
  | true => exact pure fun _ h => h
  | false => exact throw status

theorem onGlobals {f : Globals → Globals} {Q : Globals → Prop} (h : ∀ g, P g → Q (f g)) :
    Leads P (Microx.onGlobals f : ExecM σ Unit) fun _ => Q :=
  Triple.modify fun _ => h _

/-- A block that leaves the globals alone, such as a callback. -/
theorem aside (h : ∀ w : World σ, Meets (fun _ w' => w'.globals = w.globals) (fun _ _ => True) (m w)) :
    Leads P m fun _ => P := by
  intro w hw
  have hm := h w
  cases hr : m w with
  | ok a w' =>
      rw [hr] at hm
      rw [meets_ok, show w'.globals = w.globals from hm]
      exact hw
  | error e w' => trivial

theorem getGlobals {f : Globals → ExecM σ β} (h : ∀ g, P g → Leads (· = g) (f g) R) :
    Leads P (Microx.getGlobals >>= f) R :=
  fun w hw => h w.globals hw w rfl

/-- Reading the globals, where what is read is all the same to the rest of the block. -/
theorem readGlobals {f : Globals → ExecM σ β} (h : ∀ g, Leads P (f g) R) :
    Leads P (Microx.getGlobals >>= f) R :=
  triple_readGlobals h

theorem get {f : World σ → ExecM σ β} (h : ∀ w, Leads P (f w) R) :
    Leads P (MonadState.get >>= f) R :=
  Triple.read h

theorem ite {c : Prop} [Decidable c] {n : ExecM σ α} (ht : c → Leads P m Q)
    (hf : ¬c → Leads P n Q) : Leads P (if c then m else n) Q :=
  Triple.ite ht hf

theorem forM {l : List α} {f : α → ExecM σ PUnit} (h : ∀ a ∈ l, Leads P (f a) fun _ => P) :
    Leads P (l.forM f) fun _ => P :=
  Triple.forM h

end Leads

/-- A block that keeps an assertion on the globals, however it ends. -/
def Throughout (P : Globals → Prop) (m : ExecM σ α) : Prop :=
  Triple (fun w => P w.globals) m (fun _ w => P w.globals) fun _ w => P w.globals

namespace Throughout

variable {P : Globals → Prop} {m : ExecM σ α}

theorem leads (h : Throughout P m) : Leads P m fun _ => P :=
  Triple.conseq h (fun _ hp => hp) (fun _ _ hp => hp) fun _ _ _ => trivial

theorem bind {f : α → ExecM σ β} (hm : Throughout P m) (hf : ∀ a, Throughout P (f a)) :
    Throughout P (m >>= f) :=
  Triple.bind hm hf

theorem pure (a : α) : Throughout P (Pure.pure a : ExecM σ α) :=
  Triple.pure fun _ h => h

theorem throw (status : ExecutorStatus) : Throughout P (MonadExcept.throw status : ExecM σ α) :=
  Triple.throw fun _ h => h

theorem check (ok : Bool) (status : ExecutorStatus) :
    Throughout P (Executor.check ok status : ExecM σ Unit) := by
  cases ok with
  | true => exact pure _
  | false => exact throw status

theorem onGlobals {f : Globals → Globals} (h : ∀ g, P g → P (f g)) :
    Throughout P (Microx.onGlobals f : ExecM σ Unit) :=
  Triple.update fun _ => h _

/-- A block that leaves the globals alone, such as a callback. -/
theorem aside (h : ∀ w : World σ, Meets (fun _ w' => w'.globals = w.globals)
    (fun _ w' => w'.globals = w.globals) (m w)) : Throughout P m := by
  intro w hw
  have hm := h w
  cases hr : m w with
  | ok a w' =>
      rw [hr] at hm
      rw [meets_ok, show w'.globals = w.globals from hm]
      exact hw
  | error e w' =>
      rw [hr] at hm
      rw [meets_error, show w'.globals = w.globals from hm]
      exact hw

theorem getGlobals {f : Globals → ExecM σ β} (h : ∀ g, P g → Throughout P (f g)) :
    Throughout P (Microx.getGlobals >>= f) :=
  fun w hw => h w.globals hw w hw

theorem ite {c : Prop} [Decidable c] {n : ExecM σ α} (ht : c → Throughout P m)
    (hf : ¬c → Throughout P n) : Throughout P (if c then m else n) :=
  Triple.ite ht hf

theorem forM {l : List α} {f : α → ExecM σ PUnit} (h : ∀ a ∈ l, Throughout P (f a)) :
    Throughout P (l.forM f) :=
  Triple.forM h

end Throughout

/-! ## reading operands -/

/-- An assertion that speaks neither of registers nor of the immediate or the cells. -/
structure BesideMemory (P : Globals → Prop) : Prop where
  setReg : ∀ r data g, P g → P (g.setReg r data)
  setImmediate : ∀ val (g : Globals), P g → P { g with immediate := val }
  setMemory : ∀ cells (g : Globals), P g → P { g with memory := cells }

namespace BesideMemory

variable {P : Globals → Prop} (h : BesideMemory P) (ex : Executor σ) (inst : Inst)

include h

theorem adjustDisplacement (i : Fin 2) {g : Globals} (hg : P g) :
    P (ex.adjustDisplacement inst i g).2 := by
  have hregs : Executor.UnaffectedBy (fun _ => False) P :=
    ⟨h.setReg, fun _ _ _ => h.setMemory _ _, fun _ _ hnone => hnone.elim⟩
  have hbit : P (ex.getBitOpByteOffset inst g).2 := by
    unfold Executor.getBitOpByteOffset
    split <;> first | exact hg | exact hregs.writeGPR ex _ _ hg | exact h.setImmediate _ _ hg
  unfold Executor.adjustDisplacement
  split <;> first | exact hg | exact hbit | (split <;> exact hg)

/-- `ReadMemory` keeps it, also where it fails. -/
theorem readMemory : Throughout P (ex.readMemory inst) := by
  have hoperand (op : Operand) (i : Fin 2) : Throughout P (ex.readMemoryOperand inst op i) := by
    refine .bind (.onGlobals fun g hg => ?_) fun _ => .getGlobals fun g _ => ?_
    · exact h.setMemory _ _ (h.adjustDisplacement ex inst i hg)
    · refine .bind (.aside fun _ => rfl) fun address => ?_
      refine .bind (.onGlobals fun g hg => h.setMemory _ _ hg) fun _ => ?_
      refine .ite (fun _ => .pure _) fun _ => .getGlobals fun g _ => .bind (.aside fun _ => rfl) fun r => ?_
      exact .bind (.onGlobals fun g hg => h.setMemory _ _ hg) fun _ => .check _ _
  refine .bind (.onGlobals fun g hg => h.setMemory _ _ hg) fun _ => .forM fun op _ => ?_
  unfold Executor.readMemoryAt
  split
  · exact hoperand op 0
  · exact hoperand op 0
  · exact hoperand op 1
  · exact .pure _

/-- What does not speak of the FPU either is kept while all operands are read. -/
theorem readOperands (hfpu : ∀ fpu (g : Globals), P g → P { g with fpu := fpu }) :
    Throughout P (ex.readOperands inst) := by
  refine .bind (.getGlobals fun g _ => ?_) fun _ => .bind (.onGlobals fun g hg => ?_) fun _ => ?_
  · refine .ite (fun _ => .bind (.aside fun _ => rfl) fun r => ?_) fun _ => .pure _
    exact .bind (.onGlobals fun g hg => hfpu _ _ hg) fun _ => .check _ _
  · unfold Executor.whenMMX
    split
    · exact hfpu _ _ hg
    · exact hg
  · exact h.readMemory ex inst

end BesideMemory

/-! ## asking for registers -/

/-- The general-purpose registers asked for are those of the list. -/
structure Gathered (regs : List Reg) (g : Globals) : Prop where
  noAlias : g.stackPtrAlias = .invalid
  stored : ∀ x, g.storeRegs (.gpr64 x) = true ↔ ∃ r ∈ regs, r.stored = .gpr64 x
  used : ∀ r x, g.usedRegs r = true → r.largestEnclosing = .gpr64 x → g.storeRegs (.gpr64 x) = true

namespace Gathered

variable {regs : List Reg} {g g' : Globals}

theorem congr (h : Gathered regs g) (halias : g'.stackPtrAlias = g.stackPtrAlias)
    (hused : g'.usedRegs = g.usedRegs) (hstore : g'.storeRegs = g.storeRegs) :
    Gathered regs g' := by
  constructor
  · exact halias.trans h.noAlias
  · rw [hstore]
    exact h.stored
  · rw [hused, hstore]
    exact h.used

/-- A register that is not general-purpose makes no difference. -/
theorem append_of_ne {r : Reg} (h : Gathered regs g) (hr : ∀ x, r.stored ≠ .gpr64 x) :
    Gathered (regs ++ [r]) g := by
  refine ⟨h.noAlias, fun x => ?_, h.used⟩
  rw [h.stored x]
  simp only [List.mem_append, List.mem_singleton, or_and_right, exists_or, exists_eq_left]
  exact ⟨.inl, fun hx => hx.resolve_right (hr x)⟩

/-- A register whose family was asked for already. -/
theorem append_of_used {r : Reg} (h : Gathered regs g)
    (hr : ∀ x, r.stored = .gpr64 x → g.storeRegs (.gpr64 x) = true) : Gathered (regs ++ [r]) g := by
  refine ⟨h.noAlias, fun x => ?_, h.used⟩
  simp only [List.mem_append, List.mem_singleton, or_and_right, exists_or, exists_eq_left]
  exact ⟨fun hx => .inl ((h.stored x).mp hx), fun hx => hx.elim (h.stored x).mpr (hr x)⟩

end Gathered

namespace Executor

variable (ex : Executor σ)

/-- The widest register around a register is of the same family. -/
theorem widestRegister_gpr (r : Reg) (x : Gpr) :
    (ex.widestRegister r).largestEnclosing = .gpr64 x ↔ r.largestEnclosing = .gpr64 x := by
  unfold widestRegister
  cases ex.addrSize <;> cases ex.hasAVX <;> cases ex.hasAVX512 <;> cases r <;>
    simp [Reg.largestEnclosing, Reg.largestEnclosing32, Reg.withoutAVX, Reg.withoutAVX512]

theorem readWidest_gathered {regs : List Reg} {reg : Reg} {r : Reg}
    (hr : r.stored = reg.largestEnclosing) (hint : RegRequestHint) :
    Leads (Gathered regs) (ex.readWidest reg hint) fun _ => Gathered (regs ++ [r]) := by
  refine .bind (Q := fun _ => Gathered regs) (.onGlobals fun g h => ?_) fun _ => ?_
  · unfold Globals.noteHint
    split
    · exact h.congr rfl rfl rfl
    · exact h
  · refine .getGlobals fun g h => .ite (fun hused => .pure ?_) fun _ => ?_
    · rintro _ rfl
      refine h.append_of_used fun x hx => h.used _ x hused ?_
      rw [ex.widestRegister_gpr, ← hr]
      exact hx
    · refine .bind (Q := fun _ => Gathered regs) (.onGlobals ?_) fun _ => ?_
      · rintro _ rfl
        exact h.congr rfl rfl rfl
      · refine .readGlobals fun g' => .bind (.aside fun _ => rfl) fun data => ?_
        refine .bind (.onGlobals fun g h => ⟨h.noAlias, fun x => ?_, fun r' x hused hx => ?_⟩)
          fun _ => .check _ _
        · change Function.update g.storeRegs reg.largestEnclosing true (.gpr64 x) = true ↔ _
          simp only [List.mem_append, List.mem_singleton, or_and_right, exists_or, exists_eq_left,
            Function.update_apply, hr, ← h.stored x]
          split
          case isTrue heq => exact ⟨fun _ => .inr heq.symm, fun _ => rfl⟩
          case isFalse hne => exact ⟨.inl, fun h => h.resolve_right fun heq => hne heq.symm⟩
        · change Function.update g.storeRegs reg.largestEnclosing true (.gpr64 x) = true
          change Function.update g.usedRegs (ex.widestRegister reg) true r' = true at hused
          rw [Function.update_apply] at hused ⊢
          split
          · rfl
          case isFalse hne =>
            split at hused
            case isTrue heq =>
              rw [heq, ex.widestRegister_gpr] at hx
              exact absurd hx.symm hne
            · exact h.used r' x hused hx

theorem readRegister_gathered {regs : List Reg} (reg : Reg) (hint : RegRequestHint) :
    Leads (Gathered regs) (ex.readRegister reg hint) fun _ => Gathered (regs ++ [reg]) := by
  unfold readRegister
  refine .ite (fun hinvalid => .pure fun g h => ?_) fun _ => .ite (fun hx87 => ?_) fun _ => ?_
  · exact h.append_of_ne fun x hx => by simp [hinvalid, Reg.stored, Reg.isStackOp, Reg.largestEnclosing] at hx
  · refine .onGlobals fun g h => ?_
    have hkept : Gathered regs { g with usesFPU := true } := h.congr rfl rfl rfl
    refine hkept.append_of_ne fun x hx => ?_
    cases reg <;> simp [Reg.isX87] at hx87 <;> simp [Reg.stored, Reg.isStackOp, Reg.largestEnclosing] at hx
  · refine .bind (Q := fun _ => Gathered regs) (.onGlobals fun g h => ?_) fun _ => ?_
    · unfold Globals.noteClass
      split
      · exact h.congr rfl rfl rfl
      · exact h
    · refine .ite (fun hstack => ?_) fun hstack => ?_
      · exact ex.readWidest_gathered (by simp [Reg.stored, hstack, Reg.largestEnclosing]) _
      · exact ex.readWidest_gathered (by simp [Reg.stored, hstack]) _

variable (inst : Inst)

theorem readMemRegisters_gathered (ops : List Operand) : ∀ {regs : List Reg} (i : Nat),
    Leads (Gathered regs) (ex.readMemRegisters inst i ops)
      fun _ => Gathered (regs ++ inst.addressRegs i ops) := by
  induction ops with
  | nil => exact fun _ => .pure fun g h => by simpa [Inst.addressRegs] using h
  | cons op ops ih =>
      intro regs i
      unfold readMemRegisters Inst.addressRegs
      split
      · refine .bind (.bind (ex.readRegister_gathered _ _) fun _ => ex.readRegister_gathered _ _) fun _ => ?_
        refine (ih (i + 1)).post fun _ g h => ?_
        simpa only [List.append_assoc, List.cons_append, List.nil_append] using h
      · exact ih i

theorem readOperandRegisters_gathered (hint : RegRequestHint) (ops : List Operand) :
    ∀ {regs : List Reg}, Leads (Gathered regs) (ops.forM (ex.readOperandRegister inst hint))
      fun _ => Gathered (regs ++ ops.flatMap inst.operandRegs) := by
  induction ops with
  | nil => exact .pure fun g h => by simpa using h
  | cons op ops ih =>
      intro regs
      have hop : Leads (Gathered regs) (ex.readOperandRegister inst hint op)
          fun _ => Gathered (regs ++ inst.operandRegs op) := by
        unfold readOperandRegister Inst.operandRegs
        cases op.name with
        | reg r => exact ex.readRegister_gathered _ _
        | _ => exact .pure fun g h => by simpa using h
      refine .bind hop fun _ => ih.post fun _ g h => ?_
      simpa only [List.flatMap_cons, List.append_assoc] using h

theorem readRegisters_gathered :
    Leads (Gathered []) (ex.readRegisters inst) fun _ => Gathered inst.readRegs := by
  refine .bind (ex.readMemRegisters_gathered inst _ 0) fun _ => ?_
  refine .bind (ex.readOperandRegisters_gathered inst _ _) fun _ => ?_
  refine (ex.readOperandRegisters_gathered inst _ _).post fun _ g h => ?_
  simpa only [Inst.readRegs, List.nil_append, List.append_assoc] using h

theorem readFlags_gathered {regs : List Reg} :
    Leads (Gathered regs) (ex.readFlags inst) fun _ => Gathered regs := by
  have hloop (mask : Word) (fs : List Flag) : ∀ data aflag,
      Leads (Gathered regs) (ex.readFlagLoop mask fs data aflag) fun _ => Gathered regs := by
    induction fs with
    | nil => exact fun _ _ => .pure fun _ h => h
    | cons f fs ih =>
        intro data aflag
        refine .ite (fun _ => ?_) fun _ => ih _ _
        exact .bind (.aside fun _ => rfl) fun r => .ite (fun _ => ih _ _) fun _ => .throw _
  refine .bind (Q := fun _ => Gathered regs) (.onGlobals fun g h => h.congr rfl rfl rfl) fun _ => ?_
  split
  · exact .pure fun _ h => h
  case h_2 rflags _ =>
    refine .bind (Q := fun _ => Gathered regs) (.onGlobals fun g h => ?_) fun _ => ?_
    · have hstore : (ex.noteFlags rflags g).storeRegs = g.storeRegs := by
        unfold noteFlags
        dsimp only
        split <;> rfl
      have halias : (ex.noteFlags rflags g).stackPtrAlias = g.stackPtrAlias := by
        unfold noteFlags
        dsimp only
        split <;> rfl
      refine ⟨halias.trans h.noAlias, by rw [hstore]; exact h.stored, fun r x hr hx => ?_⟩
      rw [hstore]
      rw [ex.noteFlags_usedRegs, Function.update_apply] at hr
      split at hr
      case isTrue heq =>
        rw [heq, ex.widestRegister_gpr] at hx
        cases hx
      · exact h.used r x hr hx
    · refine .bind (.aside fun _ => rfl) fun host => .bind (hloop _ _ _ _) fun aflag => ?_
      exact .onGlobals fun g h => h.congr rfl rfl rfl

theorem readState_gathered :
    Leads (Gathered []) (ex.readState inst) fun _ => Gathered inst.readRegs := by
  refine .bind (.check _ _) fun _ => .bind (ex.readFlags_gathered inst) fun _ => ?_
  exact ex.readRegisters_gathered inst

/-- The fetch asks for the program counter only, and its result was decoded from some bytes. -/
theorem fetch_gathered : Leads (fun _ => True) ex.fetch fun inst g =>
    Gathered [] g ∧ ∃ bytes, ex.xed.decode ex.addrSize bytes = some inst := by
  have hbytes (pc : Word) (len : Nat) :
      Leads (Gathered []) (ex.fetchBytes pc len) fun _ => Gathered [] := by
    induction len with
    | zero => exact .throw _
    | succ len ih =>
        refine .get fun w => .bind (.aside fun _ => rfl) fun r => ?_
        refine .bind (.aside fun _ => rfl) fun _ => .ite (fun _ => .pure fun _ h => h) fun _ => ?_
        exact .bind (.aside fun _ => rfl) fun _ => ih
  have hpc (x : Gpr) : ex.pcReg.stored ≠ .gpr64 x := by
    unfold pcReg widestRegister
    cases ex.addrSize <;> cases ex.hasAVX <;> cases ex.hasAVX512 <;>
      simp [Reg.stored, Reg.isStackOp, Reg.largestEnclosing, Reg.largestEnclosing32,
        Reg.withoutAVX, Reg.withoutAVX512]
  refine .bind (Q := fun _ => Gathered []) (.onGlobals fun g _ => ?_) fun _ => ?_
  · exact ⟨rfl, fun x => by simp [resetGlobals], fun r x hr => by simp [resetGlobals] at hr⟩
  · refine .bind (Q := fun _ => Gathered []) ?_ fun _ => .readGlobals fun g => ?_
    · refine .bind (Q := fun _ => Gathered []) (.onGlobals fun g h => h.congr rfl rfl rfl) fun _ => ?_
      refine (ex.readRegister_gathered ex.pcReg _).post fun _ g h => ⟨h.noAlias, fun x => ?_, h.used⟩
      rw [h.stored x]
      simp [hpc x]
    · refine .bind (.aside fun _ => rfl) fun pc => .bind (hbytes pc 15) fun len => ?_
      refine .get fun w => ?_
      split
      · exact .throw _
      case h_2 inst hdecode =>
        refine .bind (.onGlobals fun g h => h.congr rfl rfl rfl) fun _ => ?_
        exact .pure fun _ h => ⟨h, _, hdecode⟩

/-- Reading the operands asks for no register, also where it fails. -/
theorem readOperands_throughout {regs : List Reg} :
    Throughout (Gathered regs) (ex.readOperands inst) := by
  have hbeside : BesideMemory (Gathered regs) :=
    ⟨fun _ _ _ h => h.congr rfl rfl rfl, fun _ _ h => h.congr rfl rfl rfl,
      fun _ _ h => h.congr rfl rfl rfl⟩
  exact hbeside.readOperands ex inst fun _ _ h => h.congr rfl rfl rfl

theorem readOperands_gathered {regs : List Reg} :
    Leads (Gathered regs) (ex.readOperands inst) fun _ => Gathered regs :=
  (ex.readOperands_throughout inst).leads

end Executor

end Microx
