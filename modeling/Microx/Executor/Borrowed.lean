import Microx.Executor.Gathered
import Microx.Executor.Guard
import Microx.Executor.Traffic

/-!
# Microx.Executor.Borrowed

The register that stands for the stack pointer is borrowed: the instruction
does not read it, and whatever its buffer holds afterwards is not written to
the environment.
-/

namespace Microx

open Hoare

variable {σ : Type}

/-! ## which register is borrowed -/

/-- The registers an alias is looked for among. -/
def Gpr.aliases : List Gpr := [.rax, .rcx, .rdx, .rbx]

/-- A register that serves as an alias is not among those of the instruction. -/
def Borrows (inst : Inst) (g : Globals) : Prop :=
  ∀ x, g.stackPtrAlias = .gpr64 x → ¬inst.Reads x

/-- While an instruction is carried out: what was asked for, and what is borrowed. -/
structure Lends (inst : Inst) (g : Globals) : Prop where
  stored : ∀ x, g.storeRegs (.gpr64 x) = true ↔ inst.Reads x
  borrows : Borrows inst g

section

variable {inst : Inst} {g g' : Globals}

theorem Gathered.lends (h : Gathered inst.readRegs g) : Lends inst g := by
  refine ⟨h.stored, fun x hx => ?_⟩
  rw [h.noAlias] at hx
  cases hx

theorem Lends.congr (h : Lends inst g) (halias : g'.stackPtrAlias = g.stackPtrAlias)
    (hstore : g'.storeRegs = g.storeRegs) : Lends inst g' := by
  refine ⟨fun x => ?_, fun x hx => h.borrows x ?_⟩
  · rw [hstore]
    exact h.stored x
  · rw [← halias]
    exact hx

theorem Executor.freeRegister_spec {x : Gpr} (h : Executor.freeRegister g = .gpr64 x) :
    x ∈ Gpr.aliases ∧ g.storeRegs (.gpr64 x) = false := by
  unfold Executor.freeRegister at h
  split_ifs at h with hrax hrcx hrdx hrbx <;> cases h <;> simp_all [Gpr.aliases]

end

/-! ## carrying out -/

namespace Executor

variable (ex : Executor σ) {inst : Inst}

theorem unseen_storeRegs : Unseen Globals.storeRegs :=
  ⟨fun _ _ _ => rfl, fun _ _ => rfl, fun _ _ => rfl, fun _ _ => rfl⟩

theorem writeGPR_lends (reg : Reg) (val : Word) {g : Globals} (h : Lends inst g) :
    Lends inst (ex.writeGPR reg val g) := by
  refine h.congr ?_ (unseen_storeRegs.writeGPR ex reg val g)
  simp only [Executor.writeGPR, Globals.writeGPR, Globals.writeValue]
  split_ifs <;> rfl

theorem takeAlias_lends {g : Globals} (h : Lends inst g) : Lends inst (ex.takeAlias g) := by
  unfold takeAlias
  split
  · refine ex.writeGPR_lends _ _ ⟨h.stored, fun x hx hread => ?_⟩
    exact Bool.false_ne_true ((freeRegister_spec hx).2.symm.trans ((h.stored x).mpr hread))
  · exact h

theorem encodableOperands_lends (ops : List Operand) : ∀ encoded {g : Globals}, Lends inst g →
    Lends inst (ex.encodableOperands inst ops encoded g).2 := by
  have hone (op : Operand) (i : Nat) {g : Globals} (h : Lends inst g) :
      Lends inst (ex.encodableOperand inst op i g).2 := by
    have hreg (r : Reg) : Lends inst (ex.decodeRegN r g).2 := by
      unfold decodeRegN
      split
      · exact ex.takeAlias_lends h
      · exact h
    unfold encodableOperand
    split
    · exact h.congr rfl rfl
    · split
      · exact hreg _
      · exact h
    all_goals exact h
  induction ops with
  | nil => exact fun _ _ h => h
  | cons op ops ih =>
      intro encoded g h
      unfold encodableOperands
      split
      · exact ih _ h
      · exact ih _ (hone op _ h)

theorem runNative_lends : Throughout (Lends inst) (ex.runNative inst) := by
  have hencode : Throughout (Lends inst) (ex.encodeInstruction inst) := by
    refine .getGlobals fun g h => ?_
    have hcreate : Lends inst (ex.createEncodableInstruction inst g).2 :=
      ex.encodableOperands_lends inst.operands [] h
    refine .bind (.onGlobals fun _ _ => hcreate) fun _ => .bind (.check _ _) fun _ => ?_
    exact .ite (fun _ => .bind (.check _ _) fun _ => .pure _) fun _ => .pure _
  refine .bind hencode fun enc => .getGlobals fun g h => ?_
  have hnative : Lends inst (ex.executeNative enc g).2 := by
    unfold executeNative
    split
    · exact h
    · exact h.congr rfl rfl
  refine .bind (.onGlobals fun _ _ => hnative) fun _ => ?_
  cases (ex.executeNative enc g).1 with
  | none => exact .pure _
  | segv | bus | fpe | ill => exact .throw _

theorem carryOut_lends (nextPC : Word) : Throughout (Lends inst) (ex.carryOut inst nextPC) := by
  refine .getGlobals fun g h => ?_
  cases hemulate : ex.emulate inst nextPC g with
  | emulated pc g₁ =>
      have hg₁ : Lends inst g₁ := h.congr
        (ex.emulate_unaffected (fun _ _ _ => rfl) (fun _ _ _ => rfl) (fun _ _ => rfl) hemulate)
        (ex.emulate_unaffected (fun _ _ _ => rfl) (fun _ _ _ => rfl) (fun _ _ => rfl) hemulate)
      exact .bind (.onGlobals fun _ _ => hg₁) fun _ => .pure _
  | unsupported status => exact .throw _
  | notEmulated pc => exact .bind ex.runNative_lends fun _ => .pure _

theorem copyMMXStateFromFPU_lends {g : Globals} (h : Lends inst g) :
    Lends inst (copyMMXStateFromFPU g) := by
  unfold copyMMXStateFromFPU
  generalize List.finRange 8 = l
  induction l generalizing g with
  | nil => exact h
  | cons i l ih =>
      refine ih (g := copyToMMX g i) ?_
      unfold copyToMMX
      split
      · exact h.congr rfl rfl
      · exact h

theorem writeOperands_lends : Throughout (Lends inst) ex.writeOperands := by
  have hcell (i : Fin 2) : Throughout (Lends inst) (ex.writeCell i) := by
    refine .getGlobals fun g _ => .ite (fun _ => .pure _) fun _ => ?_
    exact .bind (.aside fun _ => rfl) fun ok => .check _ _
  have hfpu : Throughout (Lends inst) ex.writeFPUState := by
    refine .getGlobals fun g _ => .ite (fun _ => ?_) fun _ => .pure _
    exact .bind (.aside fun _ => rfl) fun ok => .check _ _
  refine .bind (.bind (hcell 0) fun _ => hcell 1) fun _ => .bind hfpu fun _ => .onGlobals fun g h => ?_
  unfold whenMMX
  split
  · exact copyMMXStateFromFPU_lends h
  · exact h

/-- An alias may be left behind by an instruction that fails. -/
theorem perform_lends :
    Triple (fun w : World σ => Gathered inst.readRegs w.globals) (ex.perform inst)
      (fun _ w => Lends inst w.globals) fun _ w => Lends inst w.globals := by
  refine triple_readGlobals fun g => Triple.ite (fun _ => Triple.pure fun _ h => h.lends) fun _ => ?_
  refine Triple.bind (Triple.conseq (ex.readOperands_throughout inst) (fun _ h => h)
    (fun _ _ h => h.lends) fun _ _ h => h.lends) fun _ => ?_
  exact Throughout.bind (ex.carryOut_lends _) fun _ => .bind ex.writeOperands_lends fun _ => .pure _

end Executor

/-! ## what is read and written -/

section

variable {ex : Executor σ} {inst : Inst} {w w₁ w₂ : World σ}

/-- The registers of the instruction are there after its state was read. -/
theorem readState_run_gathered (hfetch : ex.fetch w = .ok inst w₁)
    (hstate : ex.readState inst w₁ = .ok () w₂) : Gathered inst.readRegs w₂.globals := by
  have hgathered := ex.fetch_gathered w trivial
  rw [hfetch] at hgathered
  replace hgathered := ex.readState_gathered inst w₁ hgathered.1
  rw [hstate] at hgathered
  exact hgathered

/-- What is asked for until then is what the instruction reads. -/
theorem readState_names (hfetch : ex.fetch w = .ok inst w₁) (hstate : ex.readState inst w₁ = .ok () w₂) :
    ∃ names, readNames w₂.trace = readNames w.trace ++ names ∧
      ∀ r x, RegName.reg r ∈ names → r.largestEnclosing = .gpr64 x → inst.Reads x := by
  have hgathered := readState_run_gathered hfetch hstate
  have hread := fetch_reading ex w w rfl
  rw [hfetch] at hread
  replace hread := readState_reading ex inst w₁ (Reading.mono hread fun _ h => .inl h)
  rw [hstate] at hread
  obtain ⟨names, hasked⟩ := hread
  refine ⟨names, hasked.reads, fun r x hr hx => ?_⟩
  exact (hgathered.stored x).mp (hgathered.used r x (hasked.used_of_mem r hr) hx)

/-- Nothing is asked for after that. -/
theorem perform_reads (names : List RegName) :
    Preserves (fun τ => τ.reads = names) (ex.perform inst) := by
  refine triple_readGlobals fun g => Triple.ite (fun _ => Triple.pure fun _ h => h) fun _ => ?_
  refine Triple.bind ((readOperands_traffic ex inst).preserves _) fun _ => Triple.bind ?_ fun nextPC =>
    Triple.bind ((writeOperands_traffic ex).preserves _) fun _ => Triple.pure fun _ h => h
  intro w hw
  refine (carryOut_unmoved ex w inst _).conseq (fun _ h => h) ?_ ?_ w ⟨rfl, rfl, rfl⟩
  all_goals
    intro _ v hv
    simp only [Holds, World.traffic, hv.2.1]
    exact hw

theorem executeInstruction_reads (hfetch : ex.fetch w = .ok inst w₁)
    (hstate : ex.readState inst w₁ = .ok () w₂) :
    Meets (fun _ w' => readNames w'.trace = readNames w₂.trace)
      (fun _ w' => readNames w'.trace = readNames w₂.trace) (ex.executeInstruction w) := by
  unfold Executor.executeInstruction
  rw [run_bind_ok hfetch, run_bind_ok hstate]
  refine Triple.bind (perform_reads _) (fun nextPC w₃ hw₃ => ?_) w₂ rfl
  refine (commit_wrote ex nextPC w₃).conseq (fun _ h => h) ?_ ?_ w₃ rfl
  · exact fun _ _ h => h.1.trans hw₃
  · exact fun _ _ h => h.1.trans hw₃

end

/-- The operands of the instruction at hand were dealt with, with or without an error. -/
def Performed (ex : Executor σ) (w w₃ : World σ) : Prop :=
  ∃ inst w₁ w₂, ex.fetch w = .ok inst w₁ ∧ ex.readState inst w₁ = .ok () w₂ ∧
    ((∃ nextPC, ex.perform inst w₂ = .ok nextPC w₃) ∨ ∃ status, ex.perform inst w₂ = .error status w₃)

/-- Between two worlds no register of the alias's family was read and none was written. -/
def LeavesAlias (ex : Executor σ) (w w' : World σ) : Prop :=
  ∀ w₃ x, Performed ex w w₃ → w₃.globals.stackPtrAlias = .gpr64 x →
    ∃ events, w'.trace = w.trace ++ events ∧ ∀ r, r.largestEnclosing = .gpr64 x →
      RegName.reg r ∉ readNames events ∧ RegName.reg r ∉ writtenNames events

theorem Performed.borrows {ex : Executor σ} {w w₃ : World σ} {x : Gpr} (h : Performed ex w w₃)
    (halias : w₃.globals.stackPtrAlias = .gpr64 x) :
    ∃ inst w₁ w₂, ex.fetch w = .ok inst w₁ ∧ ex.readState inst w₁ = .ok () w₂ ∧ ¬inst.Reads x := by
  obtain ⟨inst, w₁, w₂, hfetch, hstate, hperform⟩ := h
  have hlends := ex.perform_lends w₂ (readState_run_gathered hfetch hstate)
  refine ⟨inst, w₁, w₂, hfetch, hstate, ?_⟩
  rcases hperform with ⟨nextPC, hrun⟩ | ⟨status, hrun⟩
  · rw [hrun] at hlends
    exact hlends.borrows x halias
  · rw [hrun] at hlends
    exact hlends.borrows x halias

theorem KeepsDiscipline.leavesAlias {ex : Executor σ} {w w' : World σ} (h : KeepsDiscipline ex w w')
    (hreads : ∀ inst w₁ w₂, ex.fetch w = .ok inst w₁ → ex.readState inst w₁ = .ok () w₂ →
      readNames w'.trace = readNames w₂.trace) : LeavesAlias ex w w' := by
  intro w₃ x hperformed halias
  obtain ⟨inst, w₁, w₂, hfetch, hstate, hunread⟩ := hperformed.borrows halias
  obtain ⟨names, hnames, hread⟩ := readState_names hfetch hstate
  obtain ⟨events, htrace, hd⟩ := h
  have heq : readNames events = names := by
    have hsame := (hreads inst w₁ w₂ hfetch hstate).trans hnames
    rw [htrace, readNames_append] at hsame
    exact List.append_cancel_left hsame
  have hnot {r : Reg} (hr : r.largestEnclosing = .gpr64 x) : RegName.reg r ∉ readNames events := by
    rw [heq]
    exact fun hmem => hunread (hread r x hmem hr)
  exact ⟨events, htrace, fun r hr => ⟨hnot hr, fun hmem => hnot hr (hd.written_read r hmem)⟩⟩

/-- **The register behind the alias is left alone**: of its family nothing is read and nothing is
written, also by an instruction that fails after it took the alias. -/
theorem execute_leavesAlias (ex : Executor σ) (w : World σ) :
    Meets (fun _ w' => LeavesAlias ex w w') (fun _ w' => LeavesAlias ex w w') (ex.execute 1 w) := by
  cases hinit : ex.isInitialized with
  | false =>
      rw [Executor.execute_of_not_initialized hinit one_ne_zero]
      exact fun _ _ _ _ => ⟨[], (List.append_nil _).symm, fun r _ => by simp [readNames, writtenNames]⟩
  | true =>
      rw [Executor.execute_one hinit]
      have h := executeInstruction_disciplined ex w
      have hreads := fun inst => @executeInstruction_reads _ ex inst w
      cases hr : ex.executeInstruction w with
      | ok _ w' =>
          rw [hr] at h hreads
          exact h.1.leavesAlias fun inst _ _ => hreads inst
      | error status w' =>
          rw [hr] at h hreads
          exact h.leavesAlias fun inst _ _ => hreads inst

end Microx
