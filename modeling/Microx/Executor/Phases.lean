import Microx.Executor.Execute

/-!
# Microx.Executor.Phases

Rules for the reading half and the writing half of an instruction, with one
assertion where a half goes on and another where it ends early.

An assertion speaks of the environment, of the callbacks made so far, and of
whether the FPU is in use.  A callback keeps it, or the half ends with the
status for that callback, and then the other assertion holds.  Between the
computation of an address and the read that follows it a third one may hold.
-/

namespace Microx

open Hoare

variable {σ α β : Type}

/-! ## assertions -/

/-- An assertion on the environment and the callbacks made so far. -/
abbrev Observation (σ : Type) := σ → List Event → Prop

/-- A world where an observation holds. -/
def Sat (I : Observation σ) (w : World σ) : Prop := I w.env w.trace

/-- An observation for either value of `gUsesFPU`. -/
abbrev PhaseObservation (σ : Type) := Bool → Observation σ

/-- An observation for each status a block may end with. -/
abbrev EndObservation (σ : Type) := ExecutorStatus → Observation σ

/-- A world where the observation for its `gUsesFPU` holds. -/
def Seen (I : PhaseObservation σ) (w : World σ) : Prop := I w.globals.usesFPU w.env w.trace

/-- A block keeps an observation, or ends early. -/
abbrev Stays (I : PhaseObservation σ) (E : EndObservation σ) (m : ExecM σ α) : Prop :=
  Triple (Seen I) m (fun _ => Seen I) fun status => Sat (E status)

/-- What is known after a callback: one observation if it succeeded, another for any status but
that of the fetch loop if it failed. -/
def Answers (I : PhaseObservation σ) (E : EndObservation σ) (ok : Bool) : PhaseObservation σ :=
  fun u s t => (ok = true → I u s t) ∧
    (ok = false → ∀ status, status ≠ .errorReadInstMem → E status s t)

/-- The number of bits a register or flag is asked for with. -/
def Executor.requestSize (ex : Executor σ) : RegName → Nat
  | .reg r => ex.width r
  | .flag _ => 1

/-! ## registers of the FPU -/

/-- A register that belongs to the FPU. -/
def Reg.isFPU (reg : Reg) : Bool := reg.isX87 || reg.isMMX

/-- An instruction has a register of the FPU among its registers. -/
def Inst.NamesFPU (inst : Inst) : Prop :=
  (∃ op ∈ inst.operands, ∃ r, op.name = .reg r ∧ (inst.reg r).isFPU = true) ∨
    ∃ i, (inst.memOperand i).baseReg.isFPU = true ∨ (inst.memOperand i).indexReg.isFPU = true

/-- An instruction generates an address without reading from it. -/
def Inst.HasAgen (inst : Inst) : Prop := ∃ op ∈ inst.operands, op.name = .agen

/-! ## pieces of a block -/

section

variable {I J : PhaseObservation σ} {E : EndObservation σ}

theorem Stays.bind {m : ExecM σ α} {f : α → ExecM σ β} (hm : Stays I E m)
    (hf : ∀ a, Stays I E (f a)) : Stays I E (m >>= f) :=
  Triple.bind hm hf

theorem Stays.pure (a : α) : Stays I E (Pure.pure a : ExecM σ α) := Triple.pure fun _ h => h

/-- A change of the globals that `gUsesFPU` has no part in. -/
theorem Stays.onGlobals {f : Globals → Globals} (h : ∀ g, (f g).usesFPU = g.usesFPU) :
    Stays I E (Microx.onGlobals f : ExecM σ Unit) := by
  refine Triple.update fun w hw => ?_
  change I (f w.globals).usesFPU _ _
  rw [h]
  exact hw

/-- A block that reads the globals first and is fine for all of them. -/
theorem triple_readGlobals {P : World σ → Prop} {Q : β → World σ → Prop}
    {E : ExecutorStatus → World σ → Prop} {f : Globals → ExecM σ β}
    (h : ∀ g, Triple P (f g) Q E) : Triple P (getGlobals >>= f) Q E :=
  fun w hw => h w.globals w hw

/-- Reading the globals fixes the world for the rest of the block. -/
theorem triple_getGlobals {P : World σ → Prop} {Q : β → World σ → Prop}
    {E : ExecutorStatus → World σ → Prop} {f : Globals → ExecM σ β}
    (h : ∀ w, P w → Triple (· = w) (f w.globals) Q E) : Triple P (getGlobals >>= f) Q E :=
  fun w hw => h w hw w rfl

/-- The check after a callback, with what it is known to have answered. -/
theorem check_answers (ok : Bool) {status : ExecutorStatus} (h : status ≠ .errorReadInstMem) :
    Triple (Seen (Answers I E ok)) (Executor.check ok status : ExecM σ Unit) (fun _ => Seen I)
      fun status => Sat (E status) := by
  cases ok with
  | true => exact Triple.pure fun _ hw => hw.1 rfl
  | false => exact Triple.throw fun _ hw => hw.2 rfl status h

end

/-! ## what a block leaves alone -/

section

variable {f : Globals → α}

/-- What a bit operation does to its operands on the way to an address. -/
theorem adjustDisplacement_unseen (ex : Executor σ) (hf : Executor.Unseen f)
    (himm : ∀ val (g : Globals), f { g with immediate := val } = f g) (inst : Inst) (i : Fin 2)
    (g : Globals) : f (ex.adjustDisplacement inst i g).2 = f g := by
  have hbit : f (ex.getBitOpByteOffset inst g).2 = f g := by
    unfold Executor.getBitOpByteOffset
    split <;> first | rfl | exact hf.writeGPR ex _ _ g | exact himm _ g
  unfold Executor.adjustDisplacement
  split <;> first | rfl | exact hbit | (split <;> rfl)

theorem copyMMXStateFromFPU_unseen (hf : Executor.Unseen f) (g : Globals) :
    f (Executor.copyMMXStateFromFPU g) = f g := by
  have hone (g : Globals) (i : Fin 8) : f (Executor.copyToMMX g i) = f g := by
    unfold Executor.copyToMMX
    split
    · exact hf.setReg _ _ g
    · rfl
  unfold Executor.copyMMXStateFromFPU
  generalize List.finRange 8 = l
  induction l generalizing g with
  | nil => rfl
  | cons i l ih => exact (ih _).trans (hone g i)

theorem whenMMX_unseen {copy : Globals → Globals} (h : ∀ g, f (copy g) = f g) (g : Globals) :
    f (Executor.whenMMX copy g) = f g := by
  unfold Executor.whenMMX
  split
  · exact h g
  · rfl

end

/-- Running an instruction does not start to use the FPU. -/
theorem unseen_usesFPU : Executor.Unseen Globals.usesFPU :=
  ⟨fun _ _ _ => rfl, fun _ _ => rfl, fun _ _ => rfl, fun _ _ => rfl⟩

/-! ## asking for registers -/

/-- What `ReadReg` does to the observations. -/
structure RegRules (ex : Executor σ) (I : PhaseObservation σ) (E : EndObservation σ) : Prop where
  readReg : ∀ {u s t} name hint data, I u s t →
    let r := ex.readReg name (ex.requestSize name) hint data s
    Answers I E r.1 u r.2.2 (t ++ [.readReg name (ex.requestSize name) hint r.1])

namespace RegRules

variable {ex : Executor σ} {I : PhaseObservation σ} {E : EndObservation σ} (h : RegRules ex I E)

include h

theorem callReadReg (name : RegName) (hint : RegRequestHint) (data : Data) :
    Triple (Seen I) (ex.callReadReg name (ex.requestSize name) hint data)
      (fun r => Seen (Answers I E r.1)) fun status => Sat (E status) :=
  fun _ hw => h.readReg name hint data hw

theorem requestRegister (reg widestReg : Reg) (hint : RegRequestHint) :
    Stays I E (ex.requestRegister reg widestReg hint) := by
  unfold Executor.requestRegister
  refine Stays.bind (Stays.onGlobals fun _ => rfl) fun _ => triple_readGlobals fun g => ?_
  refine Triple.bind (h.callReadReg (.reg widestReg) hint _) fun r => ?_
  exact Triple.bind (Stays.onGlobals fun _ => rfl) fun _ => check_answers r.1 (by decide)

theorem readWidest (reg : Reg) (hint : RegRequestHint) : Stays I E (ex.readWidest reg hint) := by
  unfold Executor.readWidest
  refine Stays.bind (Stays.onGlobals fun g => ?_) fun _ => triple_readGlobals fun g => ?_
  · unfold Globals.noteHint
    split <;> rfl
  · exact Triple.ite (fun _ => Stays.pure _) fun _ => h.requestRegister _ _ _

/-- A register that may be one of the FPU only where its use makes no difference. -/
theorem readRegister {reg : Reg} (hreg : reg.isFPU = true → ∀ {u s t}, I u s t → I true s t)
    (hint : RegRequestHint) : Stays I E (ex.readRegister reg hint) := by
  have huses (hfpu : reg.isFPU = true) {f : Globals → Globals} (hf : ∀ g, (f g).usesFPU = true) :
      Stays I E (onGlobals f : ExecM σ Unit) := by
    refine Triple.update fun w hw => ?_
    change I (f w.globals).usesFPU _ _
    rw [hf]
    exact hreg hfpu hw
  unfold Executor.readRegister
  refine Triple.ite (fun _ => Stays.pure _) fun _ => Triple.ite (fun hx87 => ?_) fun _ => ?_
  · exact huses (by simp [Reg.isFPU, hx87]) fun _ => rfl
  · refine Stays.bind ?_ fun _ => ?_
    · cases hmmx : reg.isMMX with
      | true => exact huses (by simp [Reg.isFPU, hmmx]) fun g => by simp [Globals.noteClass, hmmx]
      | false => exact Stays.onGlobals fun g => by simp [Globals.noteClass, hmmx]
    · exact Triple.ite (fun _ => h.readWidest _ _) fun _ => h.readWidest _ _

theorem readPC : Stays I E ex.readPC := by
  have hpc : ex.pcReg.isFPU = false := by
    unfold Executor.pcReg Executor.widestRegister
    cases ex.addrSize <;> cases ex.hasAVX <;> cases ex.hasAVX512 <;> rfl
  refine Stays.bind (Stays.onGlobals fun _ => rfl) fun _ => h.readRegister (fun hfpu => ?_) _
  rw [hpc] at hfpu
  cases hfpu

theorem readFlagLoop (mask : Word) (fs : List Flag) :
    ∀ data aflag, Stays I E (ex.readFlagLoop mask fs data aflag) := by
  induction fs with
  | nil => exact fun _ _ => Stays.pure _
  | cons f fs ih =>
      intro data aflag
      refine Triple.ite (fun _ => ?_) fun _ => ih _ _
      refine Triple.bind (h.callReadReg (.flag f) .conditionCode data) fun r => ?_
      cases hr : r.1 with
      | true => exact (ih _ _).pre fun _ hw => hw.1 rfl
      | false => exact Triple.throw fun _ hw => hw.2 rfl _ (by decide)

theorem readFlags (inst : Inst) : Stays I E (ex.readFlags inst) := by
  unfold Executor.readFlags
  refine Stays.bind (Stays.onGlobals fun _ => rfl) fun _ => ?_
  split
  · exact Stays.pure _
  · refine Stays.bind (Stays.onGlobals fun g => ?_) fun _ => ?_
    · unfold Executor.noteFlags
      dsimp only
      split <;> rfl
    · refine Stays.bind (fun _ hw => hw) fun flags => ?_
      exact (h.readFlagLoop _ _ _ _).bind fun _ => Stays.onGlobals fun _ => rfl

end RegRules

/-! ## fetching the instruction -/

/-- What the callbacks of the fetch do to the observations: `M` holds from the computation of the
address on, until a read succeeds. -/
structure FetchRules (ex : Executor σ) (I M : PhaseObservation σ) (E : EndObservation σ) : Prop
    extends RegRules ex I E where
  computeAddress : ∀ {u s t} seg base index scale disp size, I u s t →
    M u (ex.computeAddress seg base index scale disp size .readExecutable s).2
      (t ++ [.computeAddress seg base index scale disp size .readExecutable])
  readMem : ∀ {u s t} addr size data, M u s t →
    let r := ex.readMem addr size .readExecutable data s
    (r.1 = true → I u r.2.2 (t ++ [.readMem addr size .readExecutable r.1])) ∧
      (r.1 = false → M u r.2.2 (t ++ [.readMem addr size .readExecutable r.1]))
  clearError : ∀ {u s t}, M u s t → M u (ex.clearError s) t
  unread : ∀ {u s t}, M u s t → E .errorReadInstMem s t
  undecoded : ∀ {u s t}, I u s t → E .errorDecode s t

namespace FetchRules

variable {ex : Executor σ} {I M : PhaseObservation σ} {E : EndObservation σ}
  (h : FetchRules ex I M E)

include h

theorem fetchBytes (pc : Word) (len : Nat) :
    Triple (Seen M) (ex.fetchBytes pc len) (fun _ => Seen I) fun status => Sat (E status) := by
  induction len with
  | zero => exact Triple.throw fun _ hw => h.unread hw
  | succ len ih =>
      refine Triple.read fun w => ?_
      refine Triple.bind (Q := fun (r : Bool × Data) w => (r.1 = true → Seen I w) ∧
        (r.1 = false → Seen M w)) (fun _ hw => h.readMem _ _ _ hw) fun r => ?_
      refine Triple.bind (Triple.update fun _ hw => hw) fun _ => Triple.ite (fun hr => ?_) fun hr => ?_
      · exact Triple.pure fun _ hw => hw.1 hr
      · refine Triple.bind (Q := fun _ => Seen M) (Triple.modify fun _ hw => ?_) fun _ => ih
        exact h.clearError (hw.2 (by simpa using hr))

/-- What was decoded is what XED decodes from some bytes. -/
theorem decodeInstruction (numBytes : Nat) :
    Triple (Seen I) (ex.decodeInstruction numBytes)
      (fun inst w => Seen I w ∧ ∃ bytes, ex.xed.decode ex.addrSize bytes = some inst)
      fun status => Sat (E status) := by
  refine Triple.read fun w => ?_
  split
  · exact Triple.throw fun _ hw => h.undecoded hw
  case h_2 inst hdecode =>
    refine Triple.bind (Q := fun _ => Seen I) (Stays.onGlobals fun _ => rfl) fun _ => ?_
    exact Triple.pure fun _ hw => ⟨hw, _, hdecode⟩

/-- The fetch starts with the FPU not in use. -/
theorem fetch :
    Triple (Sat (I false)) ex.fetch
      (fun inst w => Seen I w ∧ ∃ bytes, ex.xed.decode ex.addrSize bytes = some inst)
      fun status => Sat (E status) := by
  unfold Executor.fetch
  refine Triple.bind (Q := fun _ => Seen I) (Triple.modify fun _ hw => hw) fun _ => ?_
  refine Triple.bind h.readPC fun _ => triple_readGlobals fun g => ?_
  refine Triple.bind (Q := fun _ => Seen M) (fun _ hw => ?_) fun pc => ?_
  · exact h.computeAddress _ _ _ _ _ _ hw
  · exact Triple.bind (h.fetchBytes pc 15) fun len => h.decodeInstruction len

end FetchRules

/-! ## the reading half -/

theorem readFPUState_stays {ex : Executor σ} {I : PhaseObservation σ} {E : EndObservation σ}
    (h : ∀ {u s t} fpu, I u s t → Answers I E (ex.readFPU fpu s).1 u (ex.readFPU fpu s).2.2
      (t ++ [.readFPU (ex.readFPU fpu s).1])) : Stays I E ex.readFPUState := by
  unfold Executor.readFPUState
  refine triple_readGlobals fun g => Triple.ite (fun _ => ?_) fun _ => Stays.pure _
  refine Triple.bind (Q := fun r : Bool × FPU => Seen (Answers I E r.1))
    (fun _ hw => h _ hw) fun r => ?_
  exact Triple.bind (Stays.onGlobals fun _ => rfl) fun _ => check_answers r.1 (by decide)

/-- What the callbacks of the reading half do to the observations: `I` between two operands, `M`
between the computation of an address and the read from it. -/
structure ReadRules (ex : Executor σ) (inst : Inst) (I M : PhaseObservation σ)
    (E : EndObservation σ) : Prop extends RegRules ex I E where
  ends : ∀ {u s t} status, status ≠ .errorReadInstMem → I u s t → E status s t
  usesFPU : inst.NamesFPU → ∀ {u s t}, I u s t → I true s t
  computeAddress : ∀ {u s t} seg base index scale disp size hint, I u s t →
    M u (ex.computeAddress seg base index scale disp size hint s).2
      (t ++ [.computeAddress seg base index scale disp size hint])
  generated : inst.HasAgen → ∀ {u s t}, M u s t → I u s t
  readMem : ∀ {u s t} addr bytes hint data, hint ≠ .readExecutable → M u s t →
    let r := ex.readMem addr (8 * bytes) hint data s
    Answers I E r.1 u r.2.2 (t ++ [.readMem addr (8 * bytes) hint r.1])
  readFPU : ∀ {u s t} fpu, I u s t →
    Answers I E (ex.readFPU fpu s).1 u (ex.readFPU fpu s).2.2 (t ++ [.readFPU (ex.readFPU fpu s).1])

namespace ReadRules

variable {ex : Executor σ} {inst : Inst} {I M : PhaseObservation σ} {E : EndObservation σ}
  (h : ReadRules ex inst I M E)

include h

theorem throw {status : ExecutorStatus} (hs : status ≠ .errorReadInstMem) :
    Stays I E (MonadExcept.throw status : ExecM σ α) :=
  Triple.throw fun _ hw => h.ends status hs hw

theorem check (ok : Bool) {status : ExecutorStatus} (hs : status ≠ .errorReadInstMem) :
    Stays I E (Executor.check ok status : ExecM σ Unit) := by
  cases ok with
  | true => exact Stays.pure _
  | false => exact h.throw hs

/-! ### registers -/

theorem readRegister {reg : Reg} (hreg : reg.isFPU = true → inst.NamesFPU) (hint : RegRequestHint) :
    Stays I E (ex.readRegister reg hint) :=
  h.toRegRules.readRegister (fun hfpu => h.usesFPU (hreg hfpu)) hint

theorem readMemRegisters (ops : List Operand) :
    ∀ i, Stays I E (ex.readMemRegisters inst i ops) := by
  induction ops with
  | nil => exact fun _ => Stays.pure _
  | cons op ops ih =>
      intro i
      refine Triple.ite (fun _ => ?_) fun _ => ih i
      refine Stays.bind ?_ fun _ => ih (i + 1)
      exact (h.readRegister (fun hb => .inr ⟨_, .inl hb⟩) _).bind fun _ =>
        h.readRegister (fun hi => .inr ⟨_, .inr hi⟩) _

theorem readOperandRegister {op : Operand} (hop : op ∈ inst.operands) (hint : RegRequestHint) :
    Stays I E (ex.readOperandRegister inst hint op) := by
  unfold Executor.readOperandRegister
  split
  case h_1 r hname => exact h.readRegister (fun hr => .inl ⟨op, hop, r, hname, hr⟩) _
  case h_2 => exact Stays.pure _

theorem readRegisters : Stays I E (ex.readRegisters inst) := by
  unfold Executor.readRegisters
  refine (h.readMemRegisters _ 0).bind fun _ => Stays.bind ?_ fun _ => ?_
  · exact Triple.forM fun op hop => h.readOperandRegister (List.mem_of_mem_filter hop) .general
  · exact Triple.forM fun op hop => h.readOperandRegister (List.mem_of_mem_filter hop) .writeBack

theorem readState : Stays I E (ex.readState inst) := by
  unfold Executor.readState
  refine (h.check _ (by decide)).bind fun _ => (h.readFlags inst).bind fun _ => ?_
  exact h.readRegisters

/-! ### memory and the FPU -/

/-- The read from a cell whose address was computed. -/
theorem readCell {hint : MemRequestHint} (hhint : hint ≠ .readExecutable) (i : Fin 2) (bytes : Nat) :
    Triple (fun w => Seen M w ∧ (w.globals.memory i).size = 8 * bytes) (ex.readCell hint i)
      (fun _ => Seen I) fun status => Sat (E status) := by
  unfold Executor.readCell
  refine triple_getGlobals fun w hw => ?_
  refine Triple.bind (Q := fun r : Bool × Data => Seen (Answers I E r.1)) ?_ fun r => ?_
  · rintro v rfl
    have hread := h.readMem (v.globals.memory i).address bytes hint (v.globals.memory i).data hhint hw.1
    rw [← hw.2] at hread
    exact hread
  · exact Triple.bind (Stays.onGlobals fun _ => rfl) fun _ => check_answers r.1 (by decide)

theorem readMemoryOperand {op : Operand} (hop : op ∈ inst.operands) (i : Fin 2) :
    Stays I E (ex.readMemoryOperand inst op i) := by
  have hhint : Executor.memHint op ≠ .readExecutable := by
    unfold Executor.memHint
    split_ifs <;> decide
  have hdescribe (g : Globals) : (ex.describeCell inst op i g).usesFPU = g.usesFPU :=
    adjustDisplacement_unseen ex unseen_usesFPU (fun _ _ => rfl) inst i g
  unfold Executor.readMemoryOperand
  refine Stays.bind (Stays.onGlobals hdescribe) fun _ => triple_readGlobals fun g => ?_
  refine Triple.bind (Q := fun _ => Seen M) (fun w hw => ?_) fun address => ?_
  · exact h.computeAddress _ _ _ _ _ _ _ hw
  · refine Triple.bind (Q := fun _ w => Seen M w ∧
      (w.globals.memory i).size = 8 * (inst.memOperand i).length) ?_ fun _ => ?_
    · refine Triple.modify fun w hw => ⟨hw, ?_⟩
      simp [World.withGlobals, Executor.placeCell, Globals.setCell]
    · refine Triple.ite (fun hagen => ?_) fun _ => h.readCell hhint i _
      exact Triple.pure fun w hw => h.generated ⟨op, hop, hagen⟩ hw.1

theorem readMemory : Stays I E (ex.readMemory inst) := by
  unfold Executor.readMemory
  refine Stays.bind (Stays.onGlobals fun _ => rfl) fun _ => Triple.forM fun op hop => ?_
  unfold Executor.readMemoryAt
  split
  · exact h.readMemoryOperand hop 0
  · exact h.readMemoryOperand hop 0
  · exact h.readMemoryOperand hop 1
  · exact Stays.pure _

theorem readFPUState : Stays I E ex.readFPUState := readFPUState_stays h.readFPU

theorem readOperands : Stays I E (ex.readOperands inst) := by
  unfold Executor.readOperands
  refine h.readFPUState.bind fun _ => Stays.bind (Stays.onGlobals ?_) fun _ => h.readMemory
  exact whenMMX_unseen fun _ => rfl

end ReadRules

/-! ## carrying out -/

/-- The statuses of an instruction that is refused, or fails when it is run. -/
def ExecutorStatus.isOwn : ExecutorStatus → Bool
  | .errorUnsupportedCFI | .errorUnsupportedStack | .errorExecute | .errorFault
  | .errorFloatingPointException => true
  | _ => false

theorem ExecutorStatus.ne_of_isOwn {status : ExecutorStatus} (h : status.isOwn = true) :
    status ≠ .errorReadInstMem := by
  rintro rfl
  cases h

section

variable (ex : Executor σ)

/-- Running an instruction makes no callback, leaves alone what it does not affect, and ends with
a status of its own. -/
theorem runNative_ends {f : Globals → β} (hf : Executor.Unseen f) (P : World σ → Prop)
    (hP : ∀ w w' : World σ, w'.env = w.env → w'.trace = w.trace → f w'.globals = f w.globals →
      P w → P w') (inst : Inst) :
    Triple P (ex.runNative inst) (fun _ => P) fun status w => status.isOwn = true ∧ P w := by
  have hthrow {α : Type} {status : ExecutorStatus} (hs : status.isOwn = true) :
      Triple P (throw status : ExecM σ α) (fun _ => P) fun status w => status.isOwn = true ∧ P w :=
    Triple.throw fun _ h => ⟨hs, h⟩
  have hcheck (ok : Bool) : Triple P (Executor.check ok .errorExecute : ExecM σ Unit) (fun _ => P)
      fun status w => status.isOwn = true ∧ P w := by
    cases ok with
    | true => exact Triple.pure fun _ h => h
    | false => exact hthrow rfl
  unfold Executor.runNative Executor.encodeInstruction
  refine Triple.bind (Q := fun _ => P) ?_ fun enc => triple_getGlobals fun w hw => ?_
  · refine triple_getGlobals fun w hw => ?_
    refine Triple.bind (Q := fun _ => P) (Triple.modify ?_) fun _ => ?_
    · rintro v rfl
      exact hP v _ rfl rfl (hf.encodableOperands ex inst _ _ _) hw
    · refine (hcheck _).bind fun _ => ?_
      split
      · exact (hcheck _).bind fun _ => Triple.pure fun _ h => h
      · exact Triple.pure fun _ h => h
  · refine Triple.bind (Q := fun _ => P) (Triple.modify ?_) fun _ => ?_
    · rintro v rfl
      exact hP v _ rfl rfl (hf.executeNative ex enc _) hw
    · unfold Executor.checkSignal
      split
      · exact Triple.pure fun _ h => h
      · exact hthrow rfl
      · exact hthrow rfl
      · exact hthrow rfl
      · exact hthrow rfl

/-- What cannot be emulated is refused with a status of its own. -/
theorem emulate_unsupported {inst : Inst} {nextPC : Word} {g : Globals} {status : ExecutorStatus}
    (he : ex.emulate inst nextPC g = .unsupported status) : status.isOwn = true := by
  have hbranch {c : Bool} {g : Globals} (h : ex.branchIf inst c nextPC g = .unsupported status) :
      False := by
    unfold Executor.branchIf at h
    split at h <;> cases h
  have hrepeated {again : Word → Bool} {body : Globals → Globals} {pc : Word}
      (h : ex.repeated again body pc g = .unsupported status) : False := by
    unfold Executor.repeated at h
    dsimp only at h
    split at h
    · split at h <;> cases h
    · cases h
  unfold Executor.emulate at he
  cases hf : inst.iform with
  | jcc | jcxzRELBRb | jecxzRELBRb | jrcxzRELBRb | loopneRELBRb | loopeRELBRb | loopRELBRb =>
      rw [hf] at he
      exact (hbranch he).elim
  | rep | repe | repne => rw [hf] at he; exact (hrepeated he).elim
  | popSeg s => rw [hf] at he; cases s <;> cases he
  | _ => rw [hf] at he; cases he <;> rfl

/-- An instruction is carried out without any callback. -/
theorem carryOut_ends {I : PhaseObservation σ} {E : EndObservation σ}
    (h : ∀ {u s t} status, status.isOwn = true → I u s t → E status s t) (inst : Inst)
    (nextPC : Word) : Stays I E (ex.carryOut inst nextPC) := by
  unfold Executor.carryOut
  refine triple_getGlobals fun w hw => ?_
  cases he : ex.emulate inst nextPC w.globals with
  | emulated pc g =>
      have hfpu : g.usesFPU = w.globals.usesFPU :=
        Executor.emulate_unaffected ex (fun _ _ _ => rfl) (fun _ _ _ => rfl) (fun _ _ => rfl) he
      refine Triple.bind (Q := fun _ => Seen I) (Triple.modify ?_) fun _ => Stays.pure _
      rintro v rfl
      change I g.usesFPU _ _
      rw [hfpu]
      exact hw
  | unsupported status => exact Triple.throw fun v hv => h status (emulate_unsupported ex he) (hv ▸ hw)
  | notEmulated pc =>
      refine Triple.bind (Q := fun _ => Seen I) ?_ fun _ => Stays.pure _
      refine (runNative_ends ex unseen_usesFPU (Seen I) (fun v v' henv htrace hfpu hv => ?_) inst).conseq
        (fun v hv => hv ▸ hw) (fun _ _ hv => hv) fun status v hv => h status hv.1 hv.2
      rw [Seen, henv, htrace, hfpu]
      exact hv

theorem carryOut_stays {I : PhaseObservation σ} {E : EndObservation σ}
    (h : ∀ {u s t} status, status ≠ .errorReadInstMem → I u s t → E status s t) (inst : Inst)
    (nextPC : Word) : Stays I E (ex.carryOut inst nextPC) :=
  carryOut_ends ex (I := I) (E := E)
    (fun status hs => h status (ExecutorStatus.ne_of_isOwn hs)) inst nextPC

end

/-! ## the writing half -/

/-- What writing registers and the FPU does to the observations. -/
structure CommitRules (ex : Executor σ) (I : PhaseObservation σ) (E : EndObservation σ) : Prop where
  writeReg : ∀ {u s t} name size data, I u s t →
    I u (ex.writeReg name size data s).2
      (t ++ [.writeReg name size (Bits.low size data) (ex.writeReg name size data s).1])
  writeFPU : ∀ {s t} fpu, I true s t →
    I true (ex.writeFPU fpu s).2 (t ++ [.writeFPU fpu (ex.writeFPU fpu s).1])
  ends : ∀ {u s t} status,
    status = .errorWriteFPU ∨ status = .errorWriteFlags ∨ status = .errorWriteReg →
      I u s t → E status s t

section

variable {ex : Executor σ} {I : PhaseObservation σ} {E : EndObservation σ}

/-- A callback that is known not to disturb, and its check. -/
theorem check_ends (ok : Bool) {status : ExecutorStatus} (h : ∀ {u s t}, I u s t → E status s t) :
    Stays I E (Executor.check ok status : ExecM σ Unit) := by
  cases ok with
  | true => exact Stays.pure _
  | false => exact Triple.throw fun _ hw => h hw

/-- `WriteMemory` writes memory only, and ends with its own status. -/
theorem writeMemory_stays (hwrite : ∀ {u s t} addr size data, I u s t →
      I u (ex.writeMem addr size data s).2
        (t ++ [.writeMem addr size (Bits.low size data) (ex.writeMem addr size data s).1]))
    (hends : ∀ {u s t}, I u s t → E .errorWriteMem s t) : Stays I E ex.writeMemory := by
  have hcell (i : Fin 2) : Stays I E (ex.writeCell i) := by
    refine triple_readGlobals fun g => Triple.ite (fun _ => Stays.pure _) fun _ => ?_
    refine Triple.bind (Q := fun _ => Seen I) (fun _ hw => hwrite _ _ _ hw) fun ok => ?_
    exact check_ends ok hends
  exact (hcell 0).bind fun _ => hcell 1

namespace CommitRules

variable (h : CommitRules ex I E)

include h

theorem callWriteReg (name : RegName) (size : Nat) (data : Data) :
    Stays I E (ex.callWriteReg name size data) :=
  fun _ hw => h.writeReg name size data hw

theorem writeFPUState : Stays I E ex.writeFPUState := by
  unfold Executor.writeFPUState
  refine triple_getGlobals fun w hw => Triple.ite (fun huses => ?_) fun _ => ?_
  · refine Triple.bind (Q := fun _ => Seen I) ?_ fun ok => check_ends ok (h.ends _ (.inl rfl))
    rintro v rfl
    have hv : I true v.env v.trace := huses ▸ hw
    have hwritten := h.writeFPU v.globals.fpu hv
    rw [← huses] at hwritten
    exact hwritten
  · exact Triple.pure fun v hv => hv ▸ hw

theorem writeFlags : Stays I E ex.writeFlags := by
  unfold Executor.writeFlags
  refine triple_readGlobals fun g => Triple.ite (fun _ => ?_) fun _ => Stays.pure _
  refine Stays.bind (Stays.onGlobals fun _ => rfl) fun _ =>
    Stays.bind ?_ fun _ => Stays.onGlobals fun _ => rfl
  refine Triple.forM fun f _ => triple_readGlobals fun g => ?_
  refine Triple.ite (fun _ => ?_) fun _ => Stays.pure _
  exact (h.callWriteReg _ _ _).bind fun ok => check_ends ok (h.ends _ (.inr (.inl rfl)))

theorem writeRegister (reg : Reg) : Stays I E (ex.writeRegister reg) := by
  unfold Executor.writeRegister
  refine triple_readGlobals fun g => (h.callWriteReg _ _ _).bind fun ok => ?_
  exact check_ends ok (h.ends _ (.inr (.inr rfl)))

theorem writeRegisters : Stays I E ex.writeRegisters := by
  have hdrop (g : Globals) : (ex.dropAlias g).usesFPU = g.usesFPU := by
    unfold Executor.dropAlias
    split
    · exact unseen_usesFPU.writeGPR ex _ _ g
    · rfl
  unfold Executor.writeRegisters
  refine Stays.bind (Stays.onGlobals hdrop) fun _ => Stays.bind ?_ fun _ => ?_
  · refine Triple.forM fun reg _ => triple_readGlobals fun g => ?_
    exact Triple.ite (fun _ => h.writeRegister reg) fun _ => Stays.pure _
  · refine triple_readGlobals fun g => ?_
    split
    · exact h.writeRegister _
    · exact Stays.pure _

theorem commit (nextPC : Word) : Stays I E (ex.commit nextPC) := by
  unfold Executor.commit
  refine h.writeFlags.bind fun _ => Stays.bind (Stays.onGlobals fun _ => rfl) fun _ => ?_
  exact h.writeRegisters

end CommitRules

end

end Microx
