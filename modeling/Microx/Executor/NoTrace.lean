import Microx.Executor.Reads

/-!
# Microx.Executor.NoTrace

Failed steps leave no trace: a step of `Execute` that ends in an error has
written nothing, or, when it was writing memory that failed, nothing but memory.

An instruction has a reading half, which ends in any of the errors before the
first write, and a writing half, whose steps each end in their own error.
-/

namespace Microx

open Hoare

variable {σ α : Type}

/-! ## writes among the callbacks -/

/-- `WriteReg`, `WriteMem` or `WriteFPU`. -/
def Event.isWrite : Event → Bool
  | .writeReg .. | .writeMem .. | .writeFPU .. => true
  | _ => false

/-- `WriteReg` or `WriteFPU`: a register, a flag, the program counter or the FPU. -/
def Event.isStateWrite : Event → Bool
  | .writeReg .. | .writeFPU .. => true
  | _ => false

/-- The errors that `Execute` returns before it writes anything. -/
def ExecutorStatus.isBeforeWrites : ExecutorStatus → Bool
  | .errorReadInstMem | .errorDecode | .errorUnsupportedFeatures | .errorUnsupportedCFI
  | .errorUnsupportedStack | .errorReadFlags | .errorReadReg | .errorReadFPU | .errorReadMem
  | .errorExecute | .errorFault | .errorFloatingPointException => true
  | _ => false

/-- Since the callbacks `t`, only callbacks satisfying `p` were made. -/
def Since (p : Event → Prop) (t : List Event) : Observation σ := fun _ t' =>
  ∃ events, t' = t ++ events ∧ ∀ e ∈ events, p e

theorem Since.refl (p : Event → Prop) (w : World σ) : Sat (Since p w.trace) w :=
  ⟨[], by simp⟩

theorem Since.snoc {p : Event → Prop} {t t' : List Event} {s s' : σ} {e : Event}
    (h : Since p t s t') (he : p e) : Since p t s' (t' ++ [e]) := by
  obtain ⟨events, rfl, hp⟩ := h
  refine ⟨events ++ [e], by simp, fun e' he' => ?_⟩
  simp only [List.mem_append, List.mem_singleton] at he'
  cases he' with
  | inl hmem => exact hp e' hmem
  | inr heq => rw [heq]; exact he

/-- A callback that is allowed. -/
theorem Since.called {p : Event → Prop} {t : List Event} {w : World σ} {env : σ} {e : Event}
    (h : Sat (Since p t) w) (he : p e) : Sat (Since p t) (w.called env e) := by
  have hs : Since p t w.env w.trace := h
  exact hs.snoc he

theorem Since.mono {p q : Event → Prop} {t : List Event} {w : World σ} (hpq : ∀ e, p e → q e)
    (h : Sat (Since p t) w) : Sat (Since q t) w := by
  obtain ⟨events, ht, hp⟩ := h
  exact ⟨events, ht, fun e he => hpq e (hp e he)⟩

/-- No callback that writes was made since. -/
abbrev NoWrite (t : List Event) : Observation σ := Since (fun e => e.isWrite = false) t

/-- No register, flag, program counter or FPU was written since. -/
abbrev OnlyMemWritten (t : List Event) : Observation σ :=
  Since (fun e => e.isStateWrite = false) t

theorem readInvariant_noWrite (ex : Executor σ) (t : List Event) :
    ReadInvariant ex (NoWrite t) where
  computeAddress _ _ _ _ _ _ _ h := h.snoc rfl
  readReg _ _ _ _ h := h.snoc rfl
  readMem _ _ _ _ h := h.snoc rfl
  readFPU _ h := h.snoc rfl
  clearError h := h

/-! ## the writing half -/

/-- What the callbacks of a failed instruction were, by its status. -/
def LeavesNoTrace (t : List Event) (status : ExecutorStatus) (w : World σ) : Prop :=
  (status.isBeforeWrites → Sat (NoWrite t) w) ∧
    (status = .errorWriteMem → Sat (OnlyMemWritten t) w)

theorem leavesNoTrace_of_noWrite {t : List Event} {w : World σ} (status : ExecutorStatus)
    (h : Sat (NoWrite t) w) : LeavesNoTrace t status w := by
  constructor
  · intro _
    exact h
  · intro _
    refine Since.mono (fun e he => ?_) h
    cases e <;> simp_all [Event.isWrite, Event.isStateWrite]

/-- The errors of the last writes promise nothing. -/
theorem leavesNoTrace_of_late {t : List Event} {w : World σ} {status : ExecutorStatus}
    (h : status = .errorWriteFPU ∨ status = .errorWriteFlags ∨ status = .errorWriteReg) :
    LeavesNoTrace t status w := by
  obtain rfl | rfl | rfl := h <;> simp [LeavesNoTrace, ExecutorStatus.isBeforeWrites]

/-- A block that only fails late. -/
abbrev FailsLate (m : ExecM σ α) : Prop :=
  Triple (fun _ => True) m (fun _ _ => True) fun status _ =>
    status = .errorWriteFPU ∨ status = .errorWriteFlags ∨ status = .errorWriteReg

section

variable (ex : Executor σ)

/-- The end of an instruction fails late, whatever is known. -/
theorem commitRules_late : CommitRules ex (fun _ _ _ => True) fun status _ _ =>
    status = .errorWriteFPU ∨ status = .errorWriteFlags ∨ status = .errorWriteReg where
  writeReg _ _ _ h := h
  writeFPU _ h := h
  ends _ h _ := h

theorem writeFPUState_failsLate : FailsLate ex.writeFPUState := (commitRules_late ex).writeFPUState

theorem commit_failsLate (nextPC : Word) : FailsLate (ex.commit nextPC) :=
  (commitRules_late ex).commit nextPC

/-- `WriteMemory` writes memory only, and fails with its own error. -/
theorem writeMemory_onlyMem (t : List Event) :
    Triple (Sat (OnlyMemWritten t)) ex.writeMemory (fun _ => Sat (OnlyMemWritten t))
      fun status w => status = .errorWriteMem ∧ Sat (OnlyMemWritten t) w :=
  writeMemory_stays (I := fun _ => OnlyMemWritten t)
    (E := fun status s t' => status = .errorWriteMem ∧ OnlyMemWritten t s t')
    (fun _ _ _ hs => hs.snoc rfl) fun hs => ⟨rfl, hs⟩

end

/-! ## one instruction -/

/-- A block that keeps from writing leaves no trace when it fails. -/
theorem Keeps.leavesNoTrace {t : List Event} {m : ExecM σ α} (h : Keeps (NoWrite t) m) :
    Triple (Sat (NoWrite t)) m (fun _ => Sat (NoWrite t)) (LeavesNoTrace t) :=
  h.conseq (fun _ hw => hw) (fun _ _ hw => hw) fun status _ hw => leavesNoTrace_of_noWrite status hw

theorem FailsLate.leavesNoTrace {t : List Event} {m : ExecM σ α} {P : World σ → Prop}
    (h : FailsLate m) : Triple P m (fun _ _ => True) (LeavesNoTrace t) :=
  h.conseq (fun _ _ => trivial) (fun _ _ h => h) fun _ _ he => leavesNoTrace_of_late he

theorem writeOperands_leavesNoTrace (ex : Executor σ) (t : List Event) :
    Triple (Sat (NoWrite t)) ex.writeOperands (fun _ _ => True) (LeavesNoTrace t) := by
  unfold Executor.writeOperands
  refine Triple.bind (Q := fun _ => Sat (OnlyMemWritten t)) ?_ fun _ => ?_
  · refine (writeMemory_onlyMem ex t).conseq (fun w hw => ?_) (fun _ _ hw => hw) ?_
    · exact (leavesNoTrace_of_noWrite .errorWriteMem hw).2 rfl
    · rintro status w ⟨rfl, hw⟩
      exact ⟨fun h => absurd h (by decide), fun _ => hw⟩
  · refine FailsLate.leavesNoTrace ?_
    exact Triple.bind (writeFPUState_failsLate ex) fun _ => Triple.modify fun _ _ => trivial

theorem perform_leavesNoTrace (ex : Executor σ) (inst : Inst) (t : List Event) :
    Triple (Sat (NoWrite t)) (ex.perform inst) (fun _ _ => True) (LeavesNoTrace t) := by
  have hreads := readInvariant_noWrite ex t
  intro w hw
  unfold Executor.perform
  change Meets _ _ ((if _ then _ else _ : ExecM σ Word) w)
  split
  · trivial
  · refine Triple.bind (hreads.readOperands inst).leavesNoTrace (fun _ => ?_) w hw
    refine Triple.bind (carryOut_keeps ex inst _).leavesNoTrace fun nextPC => ?_
    exact Triple.bind (writeOperands_leavesNoTrace ex t) fun _ => Triple.pure fun _ _ => trivial

/-- One instruction that fails leaves no trace. -/
theorem executeInstruction_leavesNoTrace (ex : Executor σ) (t : List Event) :
    Triple (Sat (NoWrite t)) ex.executeInstruction (fun _ _ => True) (LeavesNoTrace t) := by
  have hreads := readInvariant_noWrite ex t
  unfold Executor.executeInstruction
  refine Triple.bind hreads.fetch.leavesNoTrace fun inst => ?_
  refine Triple.bind (hreads.readState inst).leavesNoTrace fun _ => ?_
  refine Triple.bind (perform_leavesNoTrace ex inst t) fun nextPC => ?_
  exact (commit_failsLate ex nextPC).leavesNoTrace

/-! ## a whole call -/

namespace Executor

variable (ex : Executor σ)

/-- `k` successful calls of `Execute(1)`. -/
def Steps : Nat → World σ → World σ → Prop
  | 0, w, w' => w = w'
  | k + 1, w, w' => ∃ w₁, ex.execute 1 w = .ok () w₁ ∧ Steps k w₁ w'

variable {ex}

/-- A loop that fails got through a number of rounds first. -/
theorem executeLoop_error (hinit : ex.isInitialized = true) {status : ExecutorStatus}
    {w' : World σ} (n : Nat) :
    ∀ {w}, ex.executeLoop n w = .error status w' →
      ∃ k < n, ∃ w₁, ex.Steps k w w₁ ∧ ex.execute 1 w₁ = .error status w' := by
  induction n with
  | zero =>
      intro w h
      contradiction
  | succ n ih =>
      intro w h
      cases hr : ex.executeInstruction w with
      | error e s =>
          have hloop : ex.executeLoop (n + 1) w = .error e s := run_bind_error hr
          rw [hloop] at h
          exact ⟨0, Nat.zero_lt_succ n, w, rfl, by rw [execute_one hinit, hr, h]⟩
      | ok a s =>
          have hloop : ex.executeLoop (n + 1) w = ex.executeLoop n s := run_bind_ok hr
          rw [hloop] at h
          obtain ⟨k, hk, w₁, hsteps, herr⟩ := ih h
          refine ⟨k + 1, Nat.succ_lt_succ hk, w₁, ⟨s, ?_, hsteps⟩, herr⟩
          rw [execute_one hinit, hr]

/-- After `k` successful instructions comes the next one. -/
theorem execute_succ_of_steps (hinit : ex.isInitialized = true) (k : Nat) :
    ∀ {w w' : World σ}, ex.Steps k w w' → ex.execute (k + 1) w = ex.executeInstruction w' := by
  induction k with
  | zero =>
      rintro w _ rfl
      rw [execute_one hinit]
  | succ k ih =>
      rintro w w' ⟨w₁, hone, hsteps⟩
      rw [execute_one hinit] at hone
      have hloop : ex.executeLoop (k + 1 + 1) w = ex.executeLoop (k + 1) w₁ := run_bind_ok hone
      rw [← ih hsteps, execute_of_initialized hinit, execute_of_initialized hinit, hloop]

/-- A failing `Execute(n)` is a number of successful `Execute(1)` and one that fails; the one
that fails has written nothing, or nothing but memory when it is the memory that failed. -/
theorem execute_error {n : Nat} {w w' : World σ} {status : ExecutorStatus}
    (h : ex.execute n w = .error status w') :
    ∃ k < n, ∃ w₁, ex.Steps k w w₁ ∧ ex.execute 1 w₁ = .error status w' ∧
      (status.isBeforeWrites → Sat (NoWrite w₁.trace) w') ∧
      (status = .errorWriteMem → Sat (OnlyMemWritten w₁.trace) w') := by
  have hn : n ≠ 0 := by
    rintro rfl
    contradiction
  by_cases hinit : ex.isInitialized = true
  · rw [execute_of_initialized hinit] at h
    obtain ⟨k, hk, w₁, hsteps, herr⟩ := executeLoop_error hinit n h
    have hone : ex.executeInstruction w₁ = .error status w' := by rw [← execute_one hinit, herr]
    have hmeets := executeInstruction_leavesNoTrace ex w₁.trace w₁ (Since.refl _ w₁)
    rw [hone] at hmeets
    exact ⟨k, hk, w₁, hsteps, herr, hmeets.1, hmeets.2⟩
  · have hfalse : ex.isInitialized = false := by simpa using hinit
    rw [execute_of_not_initialized hfalse hn] at h
    cases h
    refine ⟨0, Nat.pos_of_ne_zero hn, w, rfl, execute_of_not_initialized hfalse one_ne_zero w, ?_⟩
    simp [ExecutorStatus.isBeforeWrites]

/-- An instruction of the processor's on `RAX`. -/
def onRax : Inst :=
  .scalar (.other 0) 3 64 [.register .reg0 true] (fun _ => .gpr64 .rax) (fun _ => .none) 0

/-- An executor whose environment grants a number of requests for registers, and all others. -/
def grudging : Executor Nat where
  xed := Xed.ofDecoder (fun _ _ => some onRax) fun _ => true
  cpu := { native := fun _ s => (.none, s), stackPointer := 0, fpu := 0 }
  isInitialized := true
  addrSize := .x64
  hasAVX := false
  hasAVX512 := false
  computeAddress _ base _ _ _ _ _ left := (base, left)
  readReg _ _ _ data left := (decide (0 < left), data, left - 1)
  writeReg _ _ _ left := (true, left)
  readMem _ _ _ data left := (true, data, left)
  writeMem _ _ _ left := (true, left)
  readFPU fpu left := (true, fpu, left)
  writeFPU _ left := (true, left)
  clearError left := left

/-- Two requests for the first instruction, and one for the second. -/
def threeRequests : World Nat := .start 3

/-- How a call ends. -/
def ending : EStateM.Result ExecutorStatus (World Nat) Unit → Option ExecutorStatus
  | .ok _ _ => none
  | .error status _ => some status

/-- The first instruction ends well, and the second is refused its second register. -/
theorem execute_error_threeRequests : ∃ w₁ w', grudging.Steps 1 threeRequests w₁ ∧
    grudging.execute 3 threeRequests = .error .errorReadReg w' ∧
    grudging.execute 1 w₁ = .error .errorReadReg w' ∧ Sat (NoWrite w₁.trace) w' := by
  have hone : ending (grudging.execute 1 threeRequests) = none := by decide +kernel
  have htwo : ending (grudging.execute 2 threeRequests) = some .errorReadReg := by decide +kernel
  have hthree : ending (grudging.execute 3 threeRequests) = some .errorReadReg := by decide +kernel
  have hinit : grudging.isInitialized = true := rfl
  generalize threeRequests = w at hone htwo hthree ⊢
  generalize grudging = ex at hone htwo hthree hinit ⊢
  cases hrun : ex.execute 3 w with
  | ok _ w' =>
      rw [hrun] at hthree
      contradiction
  | error status w' =>
      rw [hrun] at hthree
      obtain rfl : status = .errorReadReg := Option.some.inj hthree
      obtain ⟨k, hk, w₁, hsteps, herr, hnone, -⟩ := execute_error hrun
      have hlast := execute_succ_of_steps hinit k hsteps
      rw [← execute_one hinit, herr] at hlast
      obtain rfl | rfl | rfl : k = 0 ∨ k = 1 ∨ k = 2 := by omega
      · rw [hlast] at hone
        contradiction
      · exact ⟨w₁, w', hsteps, rfl, herr, hnone rfl⟩
      · obtain ⟨v, hv, v', hv', rfl⟩ := hsteps
        have hok := execute_succ_of_steps hinit 1 ⟨v, hv, rfl⟩
        rw [← execute_one hinit, hv'] at hok
        rw [hok] at htwo
        contradiction

end Executor

end Microx
