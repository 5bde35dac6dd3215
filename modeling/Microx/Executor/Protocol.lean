import Microx.Executor.Gathered
import Microx.Executor.Traffic
import Microx.Lib.Emits

/-!
# Microx.Executor.Protocol

The callbacks that `Execute` makes, as a language.

An instruction asks for the program counter, its bytes, flags, registers, the
FPU and memory, in this order, and then tells memory, the FPU, flags, registers
and the program counter.  A callback that fails is the last one of `Execute`,
apart from attempts at fetching bytes, and the status says which it was.  Each
status has its own language (`aborted`), and `session` is the language of an
instruction that is completed.
-/

namespace Microx

open Hoare

variable {σ α β : Type}

/-! ## single callbacks -/

namespace Executor

section

variable (ex : Executor σ)

/-- `ReadReg` for the program counter. -/
def asksPC (ok : Bool) : Language Event :=
  letter (· = .readReg (.reg ex.pcReg) (ex.width ex.pcReg) .programCounter ok)

/-- `ComputeAddress` for the program counter. -/
def asksCode : Language Event :=
  letter fun e => ∃ pc, e = .computeAddress (.reg (.seg .cs)) pc 0 0 0 8 .readExecutable

/-- An attempt to read `n` instruction bytes. -/
def asksBytes (addr : Word) (n : Nat) (ok : Bool) : Language Event :=
  letter (· = .readMem addr (n * 8) .readExecutable ok)

/-- `ReadReg` for a flag. -/
def asksFlag (ok : Bool) (f : Flag) : Language Event :=
  letter (· = .readReg (.flag f) 1 .conditionCode ok)

/-- The register that `ReadRegister` asks for. -/
def askedReg (r : Reg) : Reg := ex.widestRegister (if r.isStackOp then .gpr32 .rsp else r)

/-- `ReadReg` for a register of the instruction. -/
def asksReg (ok : Bool) (r : Reg) : Language Event :=
  letter fun e => ∃ hint, e = .readReg (.reg (ex.askedReg r)) (ex.width (ex.askedReg r)) hint ok

/-- `ReadFPU`. -/
def asksFPU (ok : Bool) : Language Event := letter (· = .readFPU ok)

/-- `ComputeAddress` for a memory operand. -/
def asksAddress (op : Operand) : Language Event :=
  letter fun e => ∃ seg base index scale disp size,
    e = .computeAddress (.reg seg) base index scale disp size (memHint op)

/-- `ReadMem` for a memory operand. -/
def asksCell (inst : Inst) (op : Operand) (i : Fin 2) (ok : Bool) : Language Event :=
  letter fun e => ∃ addr, e = .readMem addr (8 * (inst.memOperand i).length) (memHint op) ok

/-- `WriteMem`. -/
def tellsCell (ok : Bool) : Language Event :=
  letter fun e => ∃ addr size data, e = .writeMem addr size data ok

/-- `WriteFPU`. -/
def tellsFPU (ok : Bool) : Language Event := letter fun e => ∃ fpu, e = .writeFPU fpu ok

/-- `WriteReg` for a flag. -/
def tellsFlag (ok : Bool) (f : Flag) : Language Event :=
  letter fun e => ∃ data, e = .writeReg (.flag f) 1 data ok

/-- `WriteReg` for a register. -/
def tellsReg (ok : Bool) (r : Reg) : Language Event :=
  letter fun e => ∃ data, e = .writeReg (.reg r) (ex.width r) data ok

end

/-! ## parts of an instruction -/

section

variable (ex : Executor σ) (inst : Inst)

/-- Attempts at fetching fewer and fewer bytes, the last of them a success. -/
def fetchesBytes (addr : Word) : Nat → Language Event
  | 0 => 0
  | n + 1 => asksBytes addr (n + 1) true + asksBytes addr (n + 1) false * fetchesBytes addr n

/-- Attempts that all fail. -/
def missesBytes (addr : Word) : Nat → Language Event
  | 0 => 1
  | n + 1 => asksBytes addr (n + 1) false * missesBytes addr n

/-- Fetching an instruction. -/
def fetches : Language Event := ex.asksPC true * (asksCode * ⨆ addr, fetchesBytes addr 15)

/-- The flags that `ReadFlags` asks for. -/
def askedFlags : List Flag :=
  match inst.rflags with
  | none => []
  | some rflags => Flag.all.filter fun f => f.get (readMask rflags)

/-- Asking for flags. -/
def asksFlags : Language Event := ((askedFlags inst).map (asksFlag true)).prod

/-- Asking for registers, each of which may be known already. -/
def asksRegs : Language Event := (inst.readRegs.map fun r => 1 + ex.asksReg true r).prod

/-- Asking for the FPU, if the instruction uses it. -/
def asksFPUIf (usesFPU : Bool) : Language Event := if usesFPU then asksFPU true else 1

/-- Asking for a memory operand; nothing is read where an address is only generated. -/
def asksOperand (op : Operand) : Language Event :=
  match op.name with
  | .agen => asksAddress op
  | .mem0 => asksAddress op * asksCell inst op 0 true
  | .mem1 => asksAddress op * asksCell inst op 1 true
  | _ => 1

/-- A memory operand that cannot be read. -/
def missesOperand (op : Operand) : Language Event :=
  match op.name with
  | .mem0 => asksAddress op * asksCell inst op 0 false
  | .mem1 => asksAddress op * asksCell inst op 1 false
  | _ => 0

/-- Asking for memory operands. -/
def asksOperands : Language Event := (inst.operands.map (asksOperand inst)).prod

/-- Telling memory, one cell or both. -/
def tellsCells : Language Event := (1 + tellsCell true) * (1 + tellsCell true)

/-- Telling the FPU, if the instruction uses it. -/
def tellsFPUIf (usesFPU : Bool) : Language Event := if usesFPU then tellsFPU true else 1

/-- Telling flags. -/
def tellsFlags : Language Event := (Flag.all.map fun f => 1 + tellsFlag true f).prod

/-- The registers that the loop of `WriteRegisters` may tell. -/
def toldRegs : List Reg := ex.xed.regs.filter fun r => !isPC r

/-- Telling registers. -/
def tellsRegs : Language Event := (ex.toldRegs.map fun r => 1 + ex.tellsReg true r).prod

/-- What is between the registers that are read and the flags that are written. -/
def performs : Language Event :=
  if isNop inst then 1
  else ⨆ usesFPU, asksFPUIf usesFPU * asksOperands inst * (tellsCells * tellsFPUIf usesFPU)

/-- The instructions that XED decodes. -/
def Decodable : Prop := ∃ bytes, ex.xed.decode ex.addrSize bytes = some inst

end

/-! ## instructions -/

section

variable (ex : Executor σ)

/-- An instruction that is completed. -/
def session : Language Event :=
  ex.fetches * ⨆ (inst) (_ : ex.Decodable inst), asksFlags inst * ex.asksRegs inst *
    (performs inst * (tellsFlags * (ex.tellsRegs * ex.tellsReg true ex.pcReg)))

/-- The callbacks up to a status that `Execute` ends with before there is an instruction. -/
def abortedFetch : ExecutorStatus → Language Event
  | .errorNotInitialized => 1
  | .errorReadReg => ex.asksPC false
  | .errorReadInstMem => ex.asksPC true * (asksCode * ⨆ addr, missesBytes addr 15)
  | .errorDecode => ex.fetches
  | _ => 0

/-- The same for a status that it ends with while it reads flags and registers. -/
def abortedState (inst : Inst) : ExecutorStatus → Language Event
  | .errorUnsupportedFeatures => 1
  | .errorReadFlags => cut (asksFlag true) (asksFlag false) (askedFlags inst)
  | .errorReadReg =>
      asksFlags inst * cut (fun r => 1 + ex.asksReg true r) (ex.asksReg false) inst.readRegs
  | _ => 0

/-- The same for a status that it ends with between its registers and its flags. -/
def abortedOperands (inst : Inst) (usesFPU : Bool) : ExecutorStatus → Language Event
  | .errorReadFPU => if usesFPU then asksFPU false else 0
  | .errorReadMem =>
      asksFPUIf usesFPU * cut (asksOperand inst) (missesOperand inst) inst.operands
  | .errorUnsupportedCFI | .errorUnsupportedStack | .errorExecute | .errorFault
  | .errorFloatingPointException => asksFPUIf usesFPU * asksOperands inst
  | .errorWriteMem =>
      asksFPUIf usesFPU * asksOperands inst * (tellsCell false + (1 + tellsCell true) * tellsCell false)
  | .errorWriteFPU =>
      asksFPUIf usesFPU * asksOperands inst * (tellsCells * if usesFPU then tellsFPU false else 0)
  | _ => 0

/-- The same for a status that it ends with while it writes flags and registers. -/
def abortedCommit : ExecutorStatus → Language Event
  | .errorWriteFlags => cut (fun f => 1 + tellsFlag true f) (tellsFlag false) Flag.all
  | .errorWriteReg => tellsFlags *
      (cut (fun r => 1 + ex.tellsReg true r) (ex.tellsReg false) ex.toldRegs +
        ex.tellsRegs * ex.tellsReg false ex.pcReg)
  | _ => 0

/-- An instruction that ends with a status. -/
def aborted (status : ExecutorStatus) : Language Event :=
  ex.abortedFetch status + ex.fetches * ⨆ (inst) (_ : ex.Decodable inst),
    (ex.abortedState inst status + asksFlags inst * ex.asksRegs inst *
      ((if isNop inst then 0 else ⨆ usesFPU, abortedOperands inst usesFPU status) +
        performs inst * ex.abortedCommit status))

end

end Executor

/-! ## blocks -/

/-- A block that leads from an assertion on the globals to another, and the callbacks it makes. -/
def Makes (p : Globals → Prop) (m : ExecM σ α) (L : Language Event) (q : α → Globals → Prop)
    (E : ExecutorStatus → Language Event) : Prop :=
  Emits World.trace (fun w => p w.globals) m L (fun a w => q a w.globals) E

/-- A callback with an answer. -/
abbrev AnsweredBy (p : Globals → Prop) (m : ExecM σ α) (ok : α → Bool) (L : Bool → Language Event) :
    Prop :=
  Answered World.trace (fun w => p w.globals) m ok (L true) (L false) fun _ w => p w.globals

namespace Makes

variable {p p' : Globals → Prop} {q : α → Globals → Prop} {r : β → Globals → Prop}
  {L L' L₁ L₂ : Language Event} {E E' E₁ E₂ : ExecutorStatus → Language Event} {m : ExecM σ α}

theorem mono (h : Makes p m L q E) (hl : L ≤ L') (he : ∀ e, E e ≤ E' e) : Makes p m L' q E' :=
  Emits.mono h hl he

theorem pre (h : Makes p m L q E) (hp : ∀ g, p' g → p g) : Makes p' m L q E :=
  Emits.pre h fun _ => hp _

theorem post {q' : α → Globals → Prop} (h : Makes p m L q E) (hq : ∀ a g, q a g → q' a g) :
    Makes p m L q' E :=
  Emits.conseq h (fun _ hw => hw) le_rfl (fun _ _ => hq _ _) fun _ => le_rfl

theorem pure {a : α} (h : ∀ g, p g → q a g) : Makes p (Pure.pure a : ExecM σ α) 1 q E :=
  Emits.pure fun _ => h _

theorem throw (status : ExecutorStatus) :
    Makes p (MonadExcept.throw status : ExecM σ α) L q (only status 1) :=
  Emits.throw status

theorem bind {f : α → ExecM σ β} (hm : Makes p m L₁ q E₁) (hf : ∀ a, Makes (q a) (f a) L₂ r E₂) :
    Makes p (m >>= f) (L₁ * L₂) r fun e => E₁ e + L₁ * E₂ e :=
  Emits.bind hm hf

/-- A block that makes no callback, first. -/
theorem quiet {f : α → ExecM σ β} (hm : Makes p m 1 q fun _ => 0)
    (hf : ∀ a, Makes (q a) (f a) L r E) : Makes p (m >>= f) L r E :=
  Emits.quiet hm hf

/-- A block that makes no callback, last. -/
theorem quiet_last {f : α → ExecM σ β} (hm : Makes p m L q E)
    (hf : ∀ a, Makes (q a) (f a) 1 r fun _ => 0) : Makes p (m >>= f) L r E :=
  Emits.quiet_last hm hf

theorem ite {c : Prop} [Decidable c] {n : ExecM σ α} (ht : c → Makes p m L q E)
    (hf : ¬c → Makes p n L q E) : Makes p (if c then m else n) L q E :=
  Emits.ite ht hf

theorem forM {status : ExecutorStatus} {L F : β → Language Event} {f : β → ExecM σ PUnit} {l : List β}
    (h : ∀ b ∈ l, Makes p (f b) (L b) (fun _ => p) (only status (F b))) :
    Makes p (l.forM f) (l.map L).prod (fun _ => p) (only status (cut L F l)) :=
  Emits.forM h

theorem onGlobals {f : Globals → Globals} {q : Globals → Prop} (h : ∀ g, p g → q (f g)) :
    Makes p (Microx.onGlobals f : ExecM σ Unit) 1 (fun _ => q) E :=
  Emits.modify (fun _ => rfl) fun w => h w.globals

/-- A change of the globals that the assertion does not see, first. -/
theorem after {f : Globals → Globals} (h : Makes p m L q E) (hf : ∀ g, p g → p (f g)) :
    Makes p (do
      Microx.onGlobals f
      m) L q E :=
  (onGlobals hf).quiet fun _ => h

/-- Any change of the globals, first. -/
theorem afterAny {f : Globals → Globals} (h : Makes (fun _ => True) m L q E) :
    Makes (fun _ => True) (do
      Microx.onGlobals f
      m) L q E :=
  h.after fun _ _ => trivial

theorem getGlobals {f : Globals → ExecM σ α} (h : ∀ g, p g → Makes (· = g) (f g) L q E) :
    Makes p (Microx.getGlobals >>= f) L q E :=
  fun w hw => h w.globals hw w rfl

/-- Reading the globals, where what is read is all the same to the rest of the block. -/
theorem readGlobals {f : Globals → ExecM σ α} (h : ∀ g, Makes p (f g) L q E) :
    Makes p (Microx.getGlobals >>= f) L q E :=
  fun w hw => h w.globals w hw

theorem get {f : World σ → ExecM σ α} (h : ∀ w, Makes p (f w) L q E) :
    Makes p (MonadState.get >>= f) L q E :=
  fun w hw => h w w hw

end Makes

section

variable {p : Globals → Prop}

/-- A call and the check of its answer, with a change of the globals in between. -/
theorem AnsweredBy.check {m : ExecM σ α} {ok : α → Bool} {L : Bool → Language Event}
    {q : Globals → Prop} {f : α → Globals → Globals} {status : ExecutorStatus}
    (h : AnsweredBy p m ok L) (hf : ∀ a g, p g → q (f a g)) :
    Makes p (do
      let a ← m
      onGlobals (f a)
      Executor.check (ok a) status) (L true) (fun _ => q) (only status (L false)) := by
  refine Answered.check_last h (fun a ha => ?_) fun a ha => ?_
  · rw [ha]
    exact Makes.quiet (Makes.onGlobals (hf a)) fun _ => .pure fun _ h => h
  · rw [ha]
    exact Makes.quiet (Makes.onGlobals (hf a)) fun _ => .throw status

/-- A call and the check of its answer. -/
theorem AnsweredBy.checked {m : ExecM σ Bool} {L : Bool → Language Event} {status : ExecutorStatus}
    (h : AnsweredBy p m id L) :
    Makes p (do
      let ok ← m
      Executor.check ok status) (L true) (fun _ => p) (only status (L false)) := by
  refine Answered.check_last h (fun a ha => ?_) fun a ha => ?_
  · rw [show a = true from ha]
    exact Emits.pure fun _ hw => hw
  · rw [show a = false from ha]
    exact Emits.throw status

/-- The callback that was made is the one of its answer. -/
theorem extends_called {w : World σ} {env : σ} {e : Bool → Event} {L : Bool → Language Event}
    (ok : Bool) (h : ∀ ok, [e ok] ∈ L ok) :
    Extends World.trace (if ok then L true else L false) w (w.called env (e ok)) := by
  cases ok with
  | true => exact ⟨_, h true, rfl⟩
  | false => exact ⟨_, h false, rfl⟩

variable (ex : Executor σ)

theorem callReadReg_answered {L : Bool → Language Event} {name : RegName} {size : Nat}
    {hint : RegRequestHint} {data : Data} (h : ∀ ok, [.readReg name size hint ok] ∈ L ok) :
    AnsweredBy p (ex.callReadReg name size hint data) (·.1) L :=
  fun _ hw => ⟨_, _, rfl, hw, extends_called _ h⟩

theorem callReadMem_answered {L : Bool → Language Event} {addr : Word} {size : Nat}
    {hint : MemRequestHint} {data : Data} (h : ∀ ok, [.readMem addr size hint ok] ∈ L ok) :
    AnsweredBy p (ex.callReadMem addr size hint data) (·.1) L :=
  fun _ hw => ⟨_, _, rfl, hw, extends_called _ h⟩

theorem callReadFPU_answered {L : Bool → Language Event} {fpu : FPU}
    (h : ∀ ok, [.readFPU ok] ∈ L ok) : AnsweredBy p (ex.callReadFPU fpu) (·.1) L :=
  fun _ hw => ⟨_, _, rfl, hw, extends_called _ h⟩

theorem callWriteReg_answered {L : Bool → Language Event} {name : RegName} {size : Nat} {data : Data}
    (h : ∀ ok, [.writeReg name size (Bits.low size data) ok] ∈ L ok) :
    AnsweredBy p (ex.callWriteReg name size data) id L :=
  fun _ hw => ⟨_, _, rfl, hw, extends_called _ h⟩

theorem callWriteMem_answered {L : Bool → Language Event} {addr : Word} {size : Nat} {data : Data}
    (h : ∀ ok, [.writeMem addr size (Bits.low size data) ok] ∈ L ok) :
    AnsweredBy p (ex.callWriteMem addr size data) id L :=
  fun _ hw => ⟨_, _, rfl, hw, extends_called _ h⟩

theorem callWriteFPU_answered {L : Bool → Language Event} {fpu : FPU}
    (h : ∀ ok, [.writeFPU fpu ok] ∈ L ok) : AnsweredBy p (ex.callWriteFPU fpu) id L :=
  fun _ hw => ⟨_, _, rfl, hw, extends_called _ h⟩

theorem callComputeAddress_makes {L : Language Event} {seg : RegName} {base index scale disp : Word}
    {size : Nat} {hint : MemRequestHint} {E : ExecutorStatus → Language Event}
    (h : [.computeAddress seg base index scale disp size hint] ∈ L) :
    Makes p (ex.callComputeAddress seg base index scale disp size hint) L (fun _ => p) E :=
  fun _ hw => ⟨hw, _, h, rfl⟩

end

/-! ## the reading half -/

namespace Executor

section

variable (ex : Executor σ) {p : Globals → Prop}

/-- `ReadRegister` asks for one register at most. -/
theorem readRegister_makes (reg : Reg) (hint : RegRequestHint) :
    Makes (fun _ => True) (ex.readRegister reg hint) (1 + ex.asksReg true reg) (fun _ _ => True)
      (only .errorReadReg (ex.asksReg false reg)) := by
  have hquiet {m : ExecM σ Unit} (h : Makes (fun _ => True) m 1 (fun _ _ => True) fun _ => 0) :
      Makes (fun _ => True) m (1 + ex.asksReg true reg) (fun _ _ => True)
        (only .errorReadReg (ex.asksReg false reg)) :=
    h.mono le_self_add fun _ => bot_le
  have hwidest {reg' : Reg} (hasked : ex.widestRegister reg' = ex.askedReg reg) (hint : RegRequestHint) :
      Makes (fun _ => True) (ex.readWidest reg' hint) (1 + ex.asksReg true reg) (fun _ _ => True)
        (only .errorReadReg (ex.asksReg false reg)) := by
    unfold readWidest
    refine .afterAny (.readGlobals fun g => .ite (fun _ => ?_) fun _ => ?_)
    · exact hquiet (.pure fun _ _ => trivial)
    · rw [hasked]
      refine Makes.mono (L := ex.asksReg true reg) ?_ le_add_self fun _ => le_rfl
      refine .afterAny (.readGlobals fun g => ?_)
      have hcall (data : Data) : AnsweredBy (fun _ => True) (ex.callReadReg (.reg (ex.askedReg reg))
          (ex.width (ex.askedReg reg)) hint data) (·.1) fun ok => ex.asksReg ok reg :=
        callReadReg_answered ex fun ok => mem_letter ⟨hint, rfl⟩
      exact (hcall _).check fun _ _ _ => trivial
  unfold readRegister
  refine .ite (fun _ => hquiet (.pure fun _ _ => trivial)) fun _ => .ite (fun _ => ?_) fun _ => ?_
  · exact hquiet (.onGlobals fun _ _ => trivial)
  · refine .afterAny (.ite (fun hstack => ?_) fun hstack => ?_)
    · exact hwidest (by rw [askedReg, if_pos hstack]) _
    · exact hwidest (by rw [askedReg, if_neg hstack]) _

/-- A block that asks for some registers, each of them at most once. -/
def AsksRegs (regs : List Reg) (m : ExecM σ Unit) : Prop :=
  Makes (fun _ => True) m (regs.map fun r => 1 + ex.asksReg true r).prod (fun _ _ => True)
    (only .errorReadReg (cut (fun r => 1 + ex.asksReg true r) (ex.asksReg false) regs))

variable {ex}

theorem AsksRegs.nil : ex.AsksRegs [] (pure ()) := Makes.pure fun _ _ => trivial

theorem AsksRegs.append {regs regs' : List Reg} {m m' : ExecM σ Unit} (h : ex.AsksRegs regs m)
    (h' : ex.AsksRegs regs' m') : ex.AsksRegs (regs ++ regs') (do m; m') := by
  refine (Makes.bind h fun _ => h').mono ?_ fun status => ?_
  · rw [List.map_append, List.prod_append]
  · rw [cut_append]
    unfold only
    split
    · rfl
    · rw [mul_zero, add_zero]

variable (ex)

theorem readRegister_asks (reg : Reg) (hint : RegRequestHint) :
    ex.AsksRegs [reg] (ex.readRegister reg hint) := by
  refine (ex.readRegister_makes reg hint).mono ?_ fun status => ?_
  · rw [List.map_singleton, List.prod_singleton]
  · rw [cut, cut, mul_zero, add_zero]

variable (inst : Inst)

theorem readRegisters_asks : ex.AsksRegs inst.readRegs (ex.readRegisters inst) := by
  have hmem (ops : List Operand) : ∀ i, ex.AsksRegs (inst.addressRegs i ops)
      (ex.readMemRegisters inst i ops) := by
    induction ops with
    | nil => exact fun _ => .nil
    | cons op ops ih =>
        intro i
        unfold readMemRegisters Inst.addressRegs
        split
        · exact ((ex.readRegister_asks _ _).append (ex.readRegister_asks _ _)).append (ih (i + 1))
        · exact ih i
  have hoperand (hint : RegRequestHint) (ops : List Operand) :
      ex.AsksRegs (ops.flatMap inst.operandRegs) (ops.forM (ex.readOperandRegister inst hint)) := by
    induction ops with
    | nil => exact .nil
    | cons op ops ih =>
        have hone : ex.AsksRegs (inst.operandRegs op) (ex.readOperandRegister inst hint op) := by
          unfold readOperandRegister Inst.operandRegs
          cases op.name with
          | reg r => exact ex.readRegister_asks _ _
          | _ => exact .nil
        exact hone.append ih
  exact (hmem _ 0).append ((hoperand _ _).append (hoperand _ _))

theorem readFlagLoop_makes (mask : Word) (fs : List Flag) : ∀ data aflag,
    Makes (fun _ => True) (ex.readFlagLoop mask fs data aflag)
      ((fs.filter fun f => f.get mask).map (asksFlag true)).prod (fun _ _ => True)
      (only .errorReadFlags (cut (asksFlag true) (asksFlag false) (fs.filter fun f => f.get mask))) := by
  induction fs with
  | nil => exact fun _ _ => .pure fun _ _ => trivial
  | cons f fs ih =>
      intro data aflag
      unfold readFlagLoop
      cases hf : f.get mask with
      | false =>
          have hfilter : (f :: fs).filter (fun f => f.get mask) = fs.filter fun f => f.get mask :=
            List.filter_cons_of_neg (by simp [hf])
          rw [hfilter, if_neg Bool.false_ne_true]
          exact ih data aflag
      | true =>
          have hfilter : (f :: fs).filter (fun f => f.get mask) = f :: fs.filter fun f => f.get mask :=
            List.filter_cons_of_pos hf
          rw [hfilter, if_pos rfl, List.map_cons, List.prod_cons]
          have hcall : AnsweredBy (fun _ => True) (ex.callReadReg (.flag f) 1 .conditionCode data) (·.1)
              fun ok => asksFlag ok f := callReadReg_answered ex fun ok => mem_letter rfl
          refine Answered.check hcall (fun r hr => ?_) fun r hr => ?_
          · rw [hr, if_pos rfl]
            exact ih _ _
          · rw [hr, if_neg Bool.false_ne_true]
            exact Emits.throw _

theorem readFlags_makes : Makes (fun _ => True) (ex.readFlags inst) (asksFlags inst) (fun _ _ => True)
    (only .errorReadFlags (cut (asksFlag true) (asksFlag false) (askedFlags inst))) := by
  unfold readFlags
  refine .afterAny ?_
  cases hrflags : inst.rflags with
  | none =>
      have hnone : askedFlags inst = [] := by rw [askedFlags, hrflags]
      rw [asksFlags, hnone]
      exact .pure fun _ _ => trivial
  | some rflags =>
      have hsome : askedFlags inst = Flag.all.filter fun f => f.get (readMask rflags) := by
        rw [askedFlags, hrflags]
      rw [asksFlags, hsome]
      have hpush : Makes (fun _ => True) (pushHostFlags : ExecM σ Word) 1 (fun _ _ => True) fun _ => 0 :=
        fun w _ => ⟨trivial, [], rfl, (List.append_nil w.trace).symm⟩
      refine .afterAny (.quiet hpush fun host => ?_)
      exact .quiet_last (ex.readFlagLoop_makes _ _ _ _) fun _ => .onGlobals fun _ _ => trivial

theorem check_makes {p : Globals → Prop} (ok : Bool) (status : ExecutorStatus) :
    Makes p (check ok status : ExecM σ Unit) 1 (fun _ => p) (only status 1) := by
  cases ok with
  | true => exact .pure fun _ h => h
  | false => exact .throw status

theorem readState_makes : Makes (fun _ => True) (ex.readState inst)
    (asksFlags inst * ex.asksRegs inst) (fun _ _ => True) (ex.abortedState inst) := by
  refine (Makes.bind (check_makes _ _) fun _ => .bind (ex.readFlags_makes inst) fun _ =>
    ex.readRegisters_asks inst).mono ?_ fun status => ?_
  · rw [one_mul]
    rfl
  · cases status <;> simp [only, abortedState]

/-! ### fetching -/

theorem readPC_makes : Makes (fun g => g.usedRegs ex.pcReg = false) ex.readPC (ex.asksPC true)
    (fun _ _ => True) (only .errorReadReg (ex.asksPC false)) := by
  have hinvalid : ex.pcReg ≠ .invalid := by rcases ex.pcReg_cases with h | h <;> rw [h.2] <;> decide
  have hx87 : ¬ex.pcReg.isX87 = true := by rcases ex.pcReg_cases with h | h <;> rw [h.2] <;> decide
  have hstack : ¬ex.pcReg.isStackOp = true := by
    rcases ex.pcReg_cases with h | h <;> rw [h.2] <;> decide
  have hclass (g : Globals) : (g.noteClass ex.pcReg).usedRegs = g.usedRegs := by
    unfold Globals.noteClass
    split <;> rfl
  unfold readPC readRegister readWidest
  rw [if_neg hinvalid, if_neg hx87, if_neg hstack, ex.widestRegister_pcReg]
  refine .after (.after (.after (.getGlobals fun g hg => ?_) fun _ h => h) fun g h => ?_) fun _ h => h
  · rw [if_neg (Bool.eq_false_iff.mp hg)]
    have hcall (data : Data) : AnsweredBy (fun _ => True) (ex.callReadReg (.reg ex.pcReg)
        (ex.width ex.pcReg) .programCounter data) (·.1) ex.asksPC :=
      callReadReg_answered ex fun ok => mem_letter rfl
    have hrequest : Makes (fun _ => True) (ex.requestRegister ex.pcReg ex.pcReg .programCounter)
        (ex.asksPC true) (fun _ _ => True) (only .errorReadReg (ex.asksPC false)) :=
      .afterAny (.readGlobals fun g => (hcall _).check fun _ _ _ => trivial)
    exact hrequest.pre fun _ _ => trivial
  · rw [hclass]
    exact h

theorem fetchBytes_makes (pc : Word) (len : Nat) :
    Makes (fun _ => True) (ex.fetchBytes pc len) (fetchesBytes pc len) (fun _ _ => True)
      (only .errorReadInstMem (missesBytes pc len)) := by
  induction len with
  | zero => exact .throw _
  | succ len ih =>
      have hcall (data : Data) : AnsweredBy (fun _ => True)
          (ex.callReadMem pc ((len + 1) * 8) .readExecutable data) (·.1) (asksBytes pc (len + 1)) :=
        callReadMem_answered ex fun ok => mem_letter rfl
      have hdata (data : Data) : Makes (fun _ => True) (modify (World.withIdata data) : ExecM σ PUnit) 1
          (fun _ _ => True) fun _ => 0 := Emits.modify (fun _ => rfl) fun _ _ => trivial
      have hclear : Makes (fun _ => True) ex.callClearError 1 (fun _ _ => True) fun _ => 0 :=
        Emits.modify (fun _ => rfl) fun _ _ => trivial
      refine .get fun w => ?_
      refine Answered.retry (hcall _) (fun r hr => ?_) fun r hr => ?_
      · refine Emits.quiet (hdata r.2) fun _ => ?_
        rw [hr, if_pos rfl]
        exact .pure fun _ _ => trivial
      · refine Emits.quiet (hdata r.2) fun _ => ?_
        rw [hr, if_neg Bool.false_ne_true]
        exact .quiet hclear fun _ => ih

theorem decodeInstruction_makes (numBytes : Nat) :
    Makes (fun _ => True) (ex.decodeInstruction numBytes) 1 (fun inst _ => ex.Decodable inst)
      (only .errorDecode 1) := by
  refine .get fun w => ?_
  split
  · exact .throw _
  case h_2 inst hdecode => exact .after (.pure fun _ _ => ⟨_, hdecode⟩) fun _ h => h

theorem fetch_makes : Makes (fun _ => True) ex.fetch ex.fetches (fun inst _ => ex.Decodable inst)
    ex.abortedFetch := by
  have hbytes (pc : Word) : Makes (fun _ => True) (ex.fetchBytes pc 15) (⨆ addr, fetchesBytes addr 15)
      (fun _ _ => True) (only .errorReadInstMem (⨆ addr, missesBytes addr 15)) := by
    refine (ex.fetchBytes_makes pc 15).mono (le_iSup (fun addr => fetchesBytes addr 15) pc) fun status => ?_
    unfold only
    split
    · exact le_iSup (fun addr => missesBytes addr 15) pc
    · exact le_rfl
  have haddress (pc : Word) {E : ExecutorStatus → Language Event} : Makes (fun _ => True)
      (ex.callComputeAddress (.reg (.seg .cs)) pc 0 0 0 8 .readExecutable) asksCode (fun _ _ => True) E :=
    callComputeAddress_makes ex (mem_letter ⟨pc, rfl⟩)
  have hreset : Makes (fun _ => True) (onGlobals resetGlobals : ExecM σ Unit) 1
      (fun _ g => g.usedRegs ex.pcReg = false) fun _ => 0 := .onGlobals fun _ _ => rfl
  refine (Makes.quiet hreset fun _ => .bind ex.readPC_makes fun _ => .readGlobals fun g =>
    .bind (haddress _ (E := fun _ => 0)) fun pc => .bind (hbytes pc) fun len =>
      ex.decodeInstruction_makes len).mono ?_ fun status => ?_
  · rw [mul_one]
    rfl
  · cases status <;> simp [only, abortedFetch, fetches]

/-! ### between registers and flags -/

variable {u : Bool}

theorem readFPUState_makes : Makes (·.usesFPU = u) ex.readFPUState (asksFPUIf u)
    (fun _ g => g.usesFPU = u) (only .errorReadFPU (if u then asksFPU false else 0)) := by
  refine .getGlobals fun g hg => ?_
  rw [hg]
  cases u with
  | true =>
      have hcall : AnsweredBy (· = g) (ex.callReadFPU g.fpu) (·.1) asksFPU :=
        callReadFPU_answered ex fun ok => mem_letter rfl
      exact hcall.check fun _ g' h => (congrArg Globals.usesFPU h).trans hg
  | false => exact .pure fun g' h => (congrArg Globals.usesFPU h).trans hg

theorem readCell_makes (op : Operand) (i : Fin 2) :
    Makes (fun g => g.usesFPU = u ∧ (g.memory i).size = 8 * (inst.memOperand i).length)
      (ex.readCell (memHint op) i) (asksCell inst op i true) (fun _ g => g.usesFPU = u)
      (only .errorReadMem (asksCell inst op i false)) := by
  refine .getGlobals fun g hg => ?_
  have hcall (data : Data) : AnsweredBy (· = g) (ex.callReadMem (g.memory i).address
      (g.memory i).size (memHint op) data) (·.1) (asksCell inst op i) :=
    callReadMem_answered ex fun ok => mem_letter ⟨_, by rw [hg.2]⟩
  exact (hcall _).check fun _ g' h => (congrArg Globals.usesFPU h).trans hg.1

/-- A memory operand, up to its address. -/
theorem readMemoryOperand_makes (op : Operand) (i : Fin 2) {L : Language Event}
    {E : ExecutorStatus → Language Event}
    (h : Makes (fun g => g.usesFPU = u ∧ (g.memory i).size = 8 * (inst.memOperand i).length)
      (if op.name = .agen then pure () else ex.readCell (memHint op) i) L (fun _ g => g.usesFPU = u) E) :
    Makes (·.usesFPU = u) (ex.readMemoryOperand inst op i) (asksAddress op * L)
      (fun _ g => g.usesFPU = u) fun e => asksAddress op * E e := by
  have hadjust (g : Globals) : (ex.adjustDisplacement inst i g).2.usesFPU = g.usesFPU :=
    adjustDisplacement_unseen ex unseen_usesFPU (fun _ _ => rfl) inst i g
  refine .after (.readGlobals fun g => ?_) fun g hg => (hadjust g).trans hg
  have hcall {size : Nat} {E : ExecutorStatus → Language Event} : Makes (·.usesFPU = u)
      (ex.callComputeAddress (.reg (g.memory i).segReg) (g.memory i).base (g.memory i).index
        (g.memory i).scale (g.memory i).displacement size (memHint op)) (asksAddress op)
      (fun _ g => g.usesFPU = u) E :=
    callComputeAddress_makes ex (mem_letter ⟨_, _, _, _, _, _, rfl⟩)
  refine (Makes.bind (hcall (E := fun _ => 0)) fun address => .quiet (.onGlobals fun g hg =>
    ⟨hg, ?_⟩) fun _ => h).mono le_rfl fun e => (zero_add _).le
  simp [placeCell, Globals.setCell]

theorem readMemoryAt_makes (op : Operand) : Makes (·.usesFPU = u) (ex.readMemoryAt inst op)
    (asksOperand inst op) (fun _ g => g.usesFPU = u) (only .errorReadMem (missesOperand inst op)) := by
  have hcell (i : Fin 2) (hname : op.name ≠ .agen) : Makes (·.usesFPU = u)
      (ex.readMemoryOperand inst op i) (asksAddress op * asksCell inst op i true)
      (fun _ g => g.usesFPU = u) (only .errorReadMem (asksAddress op * asksCell inst op i false)) := by
    refine (ex.readMemoryOperand_makes inst op i ?_).mono le_rfl fun e => (mul_only _ _ _ e).le
    rw [if_neg hname]
    exact ex.readCell_makes inst op i
  unfold readMemoryAt asksOperand missesOperand
  cases hname : op.name with
  | agen =>
      refine (ex.readMemoryOperand_makes inst op 0 (L := 1) (E := fun _ => 0) ?_).mono (mul_one _).le
        fun e => (mul_zero _).le.trans bot_le
      rw [if_pos hname]
      exact .pure fun _ h => h.1
  | mem0 => exact hcell 0 (by rw [hname]; decide)
  | mem1 => exact hcell 1 (by rw [hname]; decide)
  | _ => exact .pure fun _ h => h

theorem readOperands_makes : Makes (·.usesFPU = u) (ex.readOperands inst)
    (asksFPUIf u * asksOperands inst) (fun _ g => g.usesFPU = u) fun status =>
      only .errorReadFPU (if u then asksFPU false else 0) status +
        only .errorReadMem (asksFPUIf u * cut (asksOperand inst) (missesOperand inst) inst.operands)
          status := by
  have hmemory : Makes (·.usesFPU = u) (ex.readMemory inst) (asksOperands inst)
      (fun _ g => g.usesFPU = u)
      (only .errorReadMem (cut (asksOperand inst) (missesOperand inst) inst.operands)) :=
    .after (.forM fun op _ => ex.readMemoryAt_makes inst op) fun _ h => h
  have hcopy (g : Globals) : (copyMMXStateToFPU g).usesFPU = g.usesFPU := rfl
  have hmmx (g : Globals) (h : g.usesFPU = u) : (whenMMX copyMMXStateToFPU g).usesFPU = u :=
    (whenMMX_unseen hcopy g).trans h
  refine (Makes.bind ex.readFPUState_makes fun _ => hmemory.after hmmx).mono le_rfl fun status => ?_
  rw [mul_only]

theorem carryOut_makes (nextPC : Word) : Makes (·.usesFPU = u) (ex.carryOut inst nextPC) 1
    (fun _ g => g.usesFPU = u) fun status => if status.isOwn then 1 else 0 := by
  intro w hw
  have h := carryOut_ends ex (I := fun fpu _ t => fpu = u ∧ t = w.trace)
    (E := fun status _ t => status.isOwn = true ∧ t = w.trace)
    (fun status hs h => ⟨hs, h.2⟩) inst nextPC w ⟨hw, rfl⟩
  cases hr : ex.carryOut inst nextPC w with
  | ok pc w' =>
      rw [hr] at h
      exact ⟨h.1, [], rfl, h.2.trans (List.append_nil _).symm⟩
  | error status w' =>
      rw [hr] at h
      obtain ⟨hown, htrace⟩ := h
      refine ⟨[], ?_, htrace.trans (List.append_nil _).symm⟩
      change [] ∈ if status.isOwn = true then (1 : Language Event) else 0
      rw [if_pos hown]
      exact rfl

theorem writeCell_makes (i : Fin 2) : Makes (·.usesFPU = u) (ex.writeCell i) (1 + tellsCell true)
    (fun _ g => g.usesFPU = u) (only .errorWriteMem (tellsCell false)) := by
  refine .readGlobals fun g => .ite (fun _ => ?_) fun _ => ?_
  · exact Makes.mono (.pure fun _ h => h) le_self_add fun _ => bot_le
  · have hcall : AnsweredBy (·.usesFPU = u) (ex.callWriteMem (g.memory i).address (g.memory i).size
        (g.memory i).data) id tellsCell :=
      callWriteMem_answered ex fun ok => mem_letter ⟨_, _, _, rfl⟩
    exact hcall.checked.mono le_add_self fun _ => le_rfl

theorem writeFPUState_makes : Makes (·.usesFPU = u) ex.writeFPUState (tellsFPUIf u)
    (fun _ g => g.usesFPU = u) (only .errorWriteFPU (if u then tellsFPU false else 0)) := by
  refine .getGlobals fun g hg => ?_
  rw [hg]
  cases u with
  | true =>
      have hcall : AnsweredBy (·.usesFPU = true) (ex.callWriteFPU g.fpu) id tellsFPU :=
        callWriteFPU_answered ex fun ok => mem_letter ⟨_, rfl⟩
      exact hcall.checked.pre fun g' h => (congrArg Globals.usesFPU h).trans hg
  | false => exact .pure fun g' h => (congrArg Globals.usesFPU h).trans hg

theorem writeOperands_makes : Makes (·.usesFPU = u) ex.writeOperands (tellsCells * tellsFPUIf u)
    (fun _ g => g.usesFPU = u) fun status =>
      only .errorWriteMem (tellsCell false + (1 + tellsCell true) * tellsCell false) status +
        only .errorWriteFPU (tellsCells * if u then tellsFPU false else 0) status := by
  have hmmx (g : Globals) (h : g.usesFPU = u) : (whenMMX copyMMXStateFromFPU g).usesFPU = u :=
    (whenMMX_unseen (copyMMXStateFromFPU_unseen unseen_usesFPU) g).trans h
  have hmemory : Makes (·.usesFPU = u) ex.writeMemory tellsCells (fun _ g => g.usesFPU = u)
      (only .errorWriteMem (tellsCell false + (1 + tellsCell true) * tellsCell false)) := by
    refine (Makes.bind (ex.writeCell_makes 0) fun _ => ex.writeCell_makes 1).mono le_rfl fun e => ?_
    rw [mul_only]
    unfold only
    split
    · rfl
    · rw [add_zero]
  have hfpu : Makes (·.usesFPU = u) (do
      ex.writeFPUState
      onGlobals (whenMMX copyMMXStateFromFPU)) (tellsFPUIf u) (fun _ g => g.usesFPU = u)
      (only .errorWriteFPU (if u then tellsFPU false else 0)) :=
    .quiet_last ex.writeFPUState_makes fun _ => .onGlobals hmmx
  refine (Makes.bind hmemory fun _ => hfpu).mono le_rfl fun e => ?_
  rw [mul_only]

theorem perform_makes : Makes (fun _ => True) (ex.perform inst) (performs inst) (fun _ _ => True)
    fun status => if isNop inst then 0 else ⨆ usesFPU, abortedOperands inst usesFPU status := by
  refine .readGlobals fun g => ?_
  cases hnop : isNop inst with
  | true =>
      simp only [performs, hnop, if_true]
      exact .pure fun _ h => h
  | false =>
      simp only [performs, hnop, Bool.false_eq_true, if_false]
      refine Emits.iSup (g := fun w => w.globals.usesFPU) fun u => ?_
      refine Emits.pre (P := fun w => w.globals.usesFPU = u) ?_ fun w hw => hw.2
      have hrest := Makes.bind (ex.carryOut_makes inst (u := u) (ex.getNextPC inst g)) fun nextPC =>
        Makes.quiet_last (r := fun _ _ => True) ex.writeOperands_makes fun _ =>
          Makes.pure (a := nextPC) fun _ _ => trivial
      refine Makes.mono (Makes.bind (ex.readOperands_makes inst) fun _ => hrest) ?_ fun status => ?_
      · rw [one_mul]
      · cases status <;> simp [only, abortedOperands, ExecutorStatus.isOwn]

/-! ### the end of an instruction -/

theorem writeFlag_makes {p : Globals → Prop} (f : Flag) :
    Makes p (ex.writeFlag f) (1 + tellsFlag true f) (fun _ => p)
      (only .errorWriteFlags (tellsFlag false f)) := by
  refine .readGlobals fun g => .ite (fun _ => ?_) fun _ => ?_
  · have hcall (data : Data) : AnsweredBy p (ex.callWriteReg (.flag f) 1 data) id
        fun ok => tellsFlag ok f := callWriteReg_answered ex fun ok => mem_letter ⟨_, rfl⟩
    exact (hcall _).checked.mono le_add_self fun _ => le_rfl
  · exact Makes.mono (.pure fun _ h => h) le_self_add fun _ => bot_le

theorem writeFlags_makes : Makes (fun g => ex.usedPC g = some ex.pcReg) ex.writeFlags tellsFlags
    (fun _ g => ex.usedPC g = some ex.pcReg)
    (only .errorWriteFlags (cut (fun f => 1 + tellsFlag true f) (tellsFlag false) Flag.all)) := by
  refine .readGlobals fun g => .ite (fun _ => ?_) fun _ => ?_
  · refine .after ?_ fun g h => (ex.usedPC_forgetFlags g).trans h
    exact .quiet_last (.forM fun f _ => ex.writeFlag_makes f) fun _ => .onGlobals fun _ h => h
  · exact Makes.mono (.pure fun _ h => h) (one_le_optionals _ _) fun _ => bot_le

theorem writeRegister_makes {p : Globals → Prop} (reg : Reg) :
    Makes p (ex.writeRegister reg) (ex.tellsReg true reg) (fun _ => p)
      (only .errorWriteReg (ex.tellsReg false reg)) := by
  refine .readGlobals fun g => ?_
  have hcall (data : Data) : AnsweredBy p (ex.callWriteReg (.reg reg) (ex.width reg) data) id
      fun ok => ex.tellsReg ok reg := callWriteReg_answered ex fun ok => mem_letter ⟨_, rfl⟩
  exact (hcall _).checked

theorem writeModified_makes {p : Globals → Prop} (reg : Reg) :
    Makes p (ex.writeModified reg) (1 + ex.tellsReg true reg) (fun _ => p)
      (only .errorWriteReg (ex.tellsReg false reg)) := by
  refine .readGlobals fun g => .ite (fun _ => ?_) fun _ => ?_
  · exact (ex.writeRegister_makes reg).mono le_add_self fun _ => le_rfl
  · exact Makes.mono (.pure fun _ h => h) le_self_add fun _ => bot_le

/-- The loop of `WriteRegisters` passes over program counters. -/
theorem writeModified_pc {reg : Reg} (h : isPC reg = true) : ex.writeModified reg = pure () := by
  funext w
  change (if w.globals.usedRegs reg && !isPC reg && w.globals.modifiedRegs reg then
    ex.writeRegister reg else pure ()) w = _
  rw [h, Bool.not_true, Bool.and_false, Bool.false_and, if_neg Bool.false_ne_true]

theorem writeRegisters_makes : Makes (fun g => ex.usedPC g = some ex.pcReg) ex.writeRegisters
    (ex.tellsRegs * ex.tellsReg true ex.pcReg) (fun _ _ => True) (only .errorWriteReg
      (cut (fun r => 1 + ex.tellsReg true r) (ex.tellsReg false) ex.toldRegs +
        ex.tellsRegs * ex.tellsReg false ex.pcReg)) := by
  have hskip : ex.xed.regs.forM ex.writeModified = ex.toldRegs.forM ex.writeModified :=
    forM_filter (fun r hr => ex.writeModified_pc (by simpa using hr)) ex.xed.regs
  have hloop : Makes (fun g => ex.usedPC g = some ex.pcReg) (ex.xed.regs.forM ex.writeModified)
      ex.tellsRegs (fun _ g => ex.usedPC g = some ex.pcReg) (only .errorWriteReg
        (cut (fun r => 1 + ex.tellsReg true r) (ex.tellsReg false) ex.toldRegs)) := by
    rw [hskip]
    exact .forM fun r _ => ex.writeModified_makes r
  refine .after ?_ fun g h => (ex.usedPC_congr (ex.dropAlias_marks g)).trans h
  refine (Makes.bind hloop fun _ => .getGlobals (L := ex.tellsReg true ex.pcReg) (q := fun _ _ => True)
    (E := only .errorWriteReg (ex.tellsReg false ex.pcReg)) fun g hg => ?_).mono le_rfl fun e => ?_
  · rw [hg]
    exact (ex.writeRegister_makes ex.pcReg).post fun _ _ _ => trivial
  · rw [mul_only]
    unfold only
    split
    · rfl
    · rw [add_zero]

theorem commit_makes (nextPC : Word) : Makes (fun g => ex.usedPC g = some ex.pcReg)
    (ex.commit nextPC) (tellsFlags * (ex.tellsRegs * ex.tellsReg true ex.pcReg)) (fun _ _ => True)
    ex.abortedCommit := by
  refine (Makes.bind ex.writeFlags_makes fun _ => ex.writeRegisters_makes.after
    (f := setNextPC nextPC) fun _ h => h).mono le_rfl fun e => ?_
  cases e <;> simp [only, abortedCommit]

/-! ## whole runs -/

/-- What is after the decoder, in an instruction that asked for its program counter. -/
theorem rest_makes (start : Traffic) :
    Emits World.trace (Holds (Reading ex start (· = ex.pcReg) Flag.all))
      (do
        ex.readState inst
        let nextPC ← ex.perform inst
        ex.commit nextPC)
      (asksFlags inst * ex.asksRegs inst *
        (performs inst * (tellsFlags * (ex.tellsRegs * ex.tellsReg true ex.pcReg))))
      (fun _ _ => True) fun status =>
        ex.abortedState inst status + asksFlags inst * ex.asksRegs inst *
          ((if isNop inst then 0 else ⨆ usesFPU, abortedOperands inst usesFPU status) +
            performs inst * ex.abortedCommit status) := by
  have hmarked (r : Reg) (h : WrittenBack ex inst r) : Marked ex inst r := .inr (.inr h)
  have hstate : Emits World.trace (Holds (Reading ex start (· = ex.pcReg) Flag.all))
      (ex.readState inst) (asksFlags inst * ex.asksRegs inst)
      (fun _ v => True ∧ Holds (Reading ex start (Marked ex inst) []) v) (ex.abortedState inst) :=
    (Emits.pre (ex.readState_makes inst) fun _ _ => trivial).and
      ((readState_reading ex inst).pre fun _ h => Reading.mono h fun _ h => .inl h)
  have hperform : Emits World.trace (Holds (Reading ex start (Marked ex inst) [])) (ex.perform inst)
      (performs inst) (fun _ v => True ∧ Holds (Reading ex start (Marked ex inst) []) v) _ :=
    (Emits.pre (ex.perform_makes inst) fun _ _ => trivial).and (perform_reading ex hmarked)
  refine hstate.bind fun _ => (hperform.pre fun _ h => h.2).bind fun nextPC => ?_
  refine Emits.pre (ex.commit_makes nextPC) fun v hv => ?_
  obtain ⟨names, hasked⟩ := hv.2
  exact hasked.usedPC

theorem executeInstruction_makes :
    Makes (fun _ => True) ex.executeInstruction ex.session (fun _ _ => True) ex.aborted := by
  intro w _
  have hfetch : Emits World.trace (· = w) ex.fetch ex.fetches (fun inst v => ex.Decodable inst ∧
      Holds (Reading ex w.traffic (· = ex.pcReg) Flag.all) v) ex.abortedFetch :=
    (Emits.pre ex.fetch_makes fun _ _ => trivial).and (fetch_reading ex w)
  exact hfetch.bind_iSup (fun inst _ => ex.rest_makes inst w.traffic) w rfl

/-- The callbacks of a call, from those of one instruction. -/
theorem execute_makes {L : Language Event} {E : ExecutorStatus → Language Event}
    (h : Makes (fun _ => True) ex.executeInstruction L (fun _ _ => True) E)
    (hnone : [] ∈ E .errorNotInitialized) (n : Nat) (w : World σ) :
    Meets (fun _ w' => Extends World.trace (L ^ n) w w')
      (fun status w' => Extends World.trace (fewer n L (E status)) w w') (ex.execute n w) := by
  have hloop : Makes (fun _ => True) (ex.executeLoop n) (L ^ n) (fun _ _ => True)
      fun status => fewer n L (E status) := Emits.repeated rfl (fun _ => rfl) h n
  cases hinit : ex.isInitialized with
  | true =>
      rw [execute_of_initialized hinit]
      have hw := hloop w trivial
      cases hr : ex.executeLoop n w with
      | ok a w' => rw [hr] at hw; exact hw.2
      | error status w' => rw [hr] at hw; exact hw
  | false =>
      cases n with
      | zero => exact ⟨[], rfl, (List.append_nil _).symm⟩
      | succ n =>
          rw [execute_of_not_initialized hinit n.succ_ne_zero]
          refine ⟨[], mem_fewer.mpr ⟨0, n.succ_pos, ?_⟩, (List.append_nil _).symm⟩
          rwa [pow_zero, one_mul]

/-- **The protocol of `Execute`**: the callbacks it makes are those of complete instructions if it
succeeds, and of fewer complete instructions and the beginning of another one if it fails; then
the status tells where the last instruction ends. -/
theorem execute_protocol (n : Nat) (w : World σ) :
    Meets (fun _ w' => Extends World.trace (ex.session ^ n) w w')
      (fun status w' => Extends World.trace (fewer n ex.session (ex.aborted status)) w w')
      (ex.execute n w) :=
  ex.execute_makes ex.executeInstruction_makes (.inl rfl) n w

end

end Executor

end Microx
