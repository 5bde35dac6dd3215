import Microx.Executor.Phases

/-!
# Microx.Executor.Reads

The reading half of an instruction makes no callback that writes.

`ReadInvariant` is an assertion on the environment and the callbacks made so
far that every reading callback keeps, whatever it returns.  Everything up to
the point where an instruction is carried out keeps it then, on every path, the
ones that end in an error included.
-/

namespace Microx

open Hoare

variable {σ α : Type}

/-- Both ways out of a block keep an observation. -/
abbrev Keeps (I : Observation σ) (m : ExecM σ α) : Prop :=
  Triple (Sat I) m (fun _ => Sat I) fun _ => Sat I

/-- An observation that every reading callback keeps. -/
structure ReadInvariant (ex : Executor σ) (I : Observation σ) : Prop where
  computeAddress : ∀ {s t} seg base index scale disp size hint, I s t →
    I (ex.computeAddress seg base index scale disp size hint s).2
      (t ++ [.computeAddress seg base index scale disp size hint])
  readReg : ∀ {s t} name size hint data, I s t →
    I (ex.readReg name size hint data s).2.2
      (t ++ [.readReg name size hint (ex.readReg name size hint data s).1])
  readMem : ∀ {s t} addr size hint data, I s t →
    I (ex.readMem addr size hint data s).2.2
      (t ++ [.readMem addr size hint (ex.readMem addr size hint data s).1])
  readFPU : ∀ {s t} fpu, I s t →
    I (ex.readFPU fpu s).2.2 (t ++ [.readFPU (ex.readFPU fpu s).1])
  clearError : ∀ {s t}, I s t → I (ex.clearError s) t

section

variable {I : Observation σ}

/-! ## the pieces of a block -/

theorem onGlobals_keeps (f : Globals → Globals) : Keeps I (onGlobals f : ExecM σ Unit) :=
  Triple.update fun _ h => h

theorem check_keeps (ok : Bool) (status : ExecutorStatus) :
    Keeps I (Executor.check ok status : ExecM σ Unit) := by
  cases ok with
  | true => exact Triple.pure fun _ h => h
  | false => exact Triple.throw fun _ h => h

/-- Two blocks, one after the other. -/
theorem Keeps.bind {β : Type} {m : ExecM σ α} {f : α → ExecM σ β} (hm : Keeps I m)
    (hf : ∀ a, Keeps I (f a)) : Keeps I (m >>= f) :=
  Triple.bind hm hf

theorem pure_keeps (a : α) : Keeps I (pure a : ExecM σ α) := Triple.pure fun _ h => h

end

namespace ReadInvariant

variable {ex : Executor σ} {I : Observation σ} (h : ReadInvariant ex I)

include h

/-- The rules for the fetch, with one observation for all. -/
theorem fetchRules : FetchRules ex (fun _ => I) (fun _ => I) fun _ => I where
  readReg _ _ _ hs := ⟨fun _ => h.readReg _ _ _ _ hs, fun _ _ _ => h.readReg _ _ _ _ hs⟩
  computeAddress _ _ _ _ _ _ hs := h.computeAddress _ _ _ _ _ _ _ hs
  readMem _ _ _ hs := ⟨fun _ => h.readMem _ _ _ _ hs, fun _ => h.readMem _ _ _ _ hs⟩
  clearError hs := h.clearError hs
  unread hs := hs
  undecoded hs := hs

/-- The rules for the reading half, with one observation for all. -/
theorem readRules (inst : Inst) : ReadRules ex inst (fun _ => I) (fun _ => I) fun _ => I where
  toRegRules := h.fetchRules.toRegRules
  ends _ _ hs := hs
  usesFPU _ _ _ _ hs := hs
  computeAddress _ _ _ _ _ _ _ hs := h.computeAddress _ _ _ _ _ _ _ hs
  generated _ _ _ _ hs := hs
  readMem _ _ _ _ _ hs := ⟨fun _ => h.readMem _ _ _ _ hs, fun _ _ _ => h.readMem _ _ _ _ hs⟩
  readFPU _ hs := ⟨fun _ => h.readFPU _ hs, fun _ _ _ => h.readFPU _ hs⟩

/-! ## the blocks of the reading half -/

/-- What was fetched is what XED decodes from some bytes. -/
theorem fetch_decoded :
    Triple (Sat I) ex.fetch
      (fun inst w => Sat I w ∧ ∃ bytes, ex.xed.decode ex.addrSize bytes = some inst)
      fun _ => Sat I :=
  h.fetchRules.fetch

theorem fetch : Keeps I ex.fetch := h.fetch_decoded.post fun _ _ hw => hw.1

theorem readState (inst : Inst) : Keeps I (ex.readState inst) := (h.readRules inst).readState

theorem readFPUState : Keeps I ex.readFPUState :=
  readFPUState_stays (I := fun _ => I) (E := fun _ => I) fun _ hs =>
    ⟨fun _ => h.readFPU _ hs, fun _ _ _ => h.readFPU _ hs⟩

theorem readOperands (inst : Inst) : Keeps I (ex.readOperands inst) := (h.readRules inst).readOperands

end ReadInvariant

/-! ## carrying out -/

section

variable (ex : Executor σ) {I : Observation σ}

/-- Running an instruction makes no callback and leaves alone what it does not affect. -/
theorem runNative_unseen {β : Type} {f : Globals → β} (hf : Executor.Unseen f) (P : World σ → Prop)
    (hP : ∀ w w' : World σ, w'.env = w.env → w'.trace = w.trace → f w'.globals = f w.globals →
      P w → P w') (inst : Inst) :
    Triple P (ex.runNative inst) (fun _ => P) fun _ => P :=
  (runNative_ends ex hf P hP inst).conseq (fun _ h => h) (fun _ _ h => h) fun _ _ h => h.2

/-- An instruction is carried out without any callback. -/
theorem carryOut_keeps (inst : Inst) (nextPC : Word) : Keeps I (ex.carryOut inst nextPC) :=
  carryOut_stays ex (I := fun _ => I) (E := fun _ => I) (fun _ _ hs => hs) inst nextPC

end

end Microx
