import Microx.Executor.Reads

/-!
# Microx.Executor.Invariant

Observations that every callback keeps hold through whole calls of `Execute`.

`ReadInvariant` covers the reading half of an instruction; `CommitInvariant`
covers the callbacks that write registers, flags and the FPU, and `Invariant`
all of them.
-/

namespace Microx

open Hoare

variable {σ : Type}

/-- An observation that writing registers and the FPU keeps. -/
structure CommitInvariant (ex : Executor σ) (I : Observation σ) : Prop where
  writeReg : ∀ {s t} name size data, I s t →
    I (ex.writeReg name size data s).2
      (t ++ [.writeReg name size (Bits.low size data) (ex.writeReg name size data s).1])
  writeFPU : ∀ {s t} fpu, I s t →
    I (ex.writeFPU fpu s).2 (t ++ [.writeFPU fpu (ex.writeFPU fpu s).1])

/-- An observation that every callback keeps. -/
structure Invariant (ex : Executor σ) (I : Observation σ) : Prop where
  reads : ReadInvariant ex I
  commits : CommitInvariant ex I
  writeMem : ∀ {s t} addr size data, I s t →
    I (ex.writeMem addr size data s).2
      (t ++ [.writeMem addr size (Bits.low size data) (ex.writeMem addr size data s).1])

variable {ex : Executor σ} {I : Observation σ}

namespace CommitInvariant

variable (h : CommitInvariant ex I)

include h

/-- The rules for the end of an instruction, with one observation for all. -/
theorem commitRules : CommitRules ex (fun _ => I) fun _ => I where
  writeReg _ _ _ hs := h.writeReg _ _ _ hs
  writeFPU _ hs := h.writeFPU _ hs
  ends _ _ hs := hs

theorem writeFPUState : Keeps I ex.writeFPUState := h.commitRules.writeFPUState

theorem commit (nextPC : Word) : Keeps I (ex.commit nextPC) := h.commitRules.commit nextPC

end CommitInvariant

namespace Invariant

variable (h : Invariant ex I)

include h

theorem writeOperands : Keeps I ex.writeOperands := by
  have hmemory : Keeps I ex.writeMemory :=
    writeMemory_stays (I := fun _ => I) (E := fun _ => I) (fun _ _ _ hs => h.writeMem _ _ _ hs)
      fun hs => hs
  unfold Executor.writeOperands
  exact hmemory.bind fun _ => h.commits.writeFPUState.bind fun _ => onGlobals_keeps _

theorem perform (inst : Inst) : Keeps I (ex.perform inst) := by
  unfold Executor.perform
  refine triple_readGlobals fun g => ?_
  dsimp only
  split
  · exact pure_keeps _
  · refine (h.reads.readOperands inst).bind fun _ => (carryOut_keeps ex inst _).bind fun pc => ?_
    exact h.writeOperands.bind fun _ => pure_keeps _

/-- **One instruction** keeps an observation that every callback keeps. -/
theorem executeInstruction : Keeps I ex.executeInstruction := by
  unfold Executor.executeInstruction
  refine h.reads.fetch.bind fun inst => (h.reads.readState inst).bind fun _ => ?_
  exact (h.perform inst).bind fun nextPC => h.commits.commit nextPC

/-- **So does a whole call**, however it ends. -/
theorem execute (n : Nat) : Keeps I (ex.execute n) := by
  have hloop (k : Nat) : Keeps I (ex.executeLoop k) := by
    induction k with
    | zero => exact pure_keeps _
    | succ k ih => exact h.executeInstruction.bind fun _ => ih
  unfold Executor.execute
  split
  · exact pure_keeps _
  · exact (check_keeps _ _).bind fun _ => hloop n

end Invariant

end Microx
