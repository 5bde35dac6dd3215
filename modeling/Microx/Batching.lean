import Microx.EmptyThread
import Microx.Executor.TwoRuns

/-!
# Microx.Batching

`Process.execute(thread, n)` next to `n` times `Process.execute(thread, 1)`.

The counter is moved once for each call, so within a call it stands still.  Two
runs that differ in it only stay that way (`Shifted`), as long as no instruction
has the counter among its registers.
-/

namespace Microx

open Hoare

variable {μ π τ α : Type}

/-! ## threads -/

/-- A method that does not care for a part of the state. -/
def CommutesWith (f : τ → τ) (m : EStateM PyExc τ α) : Prop :=
  ∀ t, m (f t) = match m t with
    | .ok a t' => .ok a (f t')
    | .error e t' => .error e (f t')

/-- A thread that keeps the register `"TSC"`, apart from all others. -/
structure Thread.KeepsTSC (thread : Thread τ) (tsc : τ → Int) (setTSC : Int → τ → τ) : Prop where
  tsc_setTSC : ∀ v t, tsc (setTSC v t) = v
  setTSC_tsc : ∀ t, setTSC (tsc t) t = t
  setTSC_setTSC : ∀ u v t, setTSC v (setTSC u t) = setTSC v t
  read : ∀ hint t, thread.readRegister (.name (.reg .tsc)) hint t = .ok (.int (tsc t)) t
  write : ∀ v t, thread.writeRegister (.name (.reg .tsc)) v t = .ok () (setTSC v t)
  readApart : ∀ name hint, name ≠ .name (.reg .tsc) → ∀ v,
    CommutesWith (setTSC v) (thread.readRegister name hint)
  writeApart : ∀ name val, name ≠ .name (.reg .tsc) → ∀ v,
    CommutesWith (setTSC v) (thread.writeRegister name val)
  readFPU : ∀ v, CommutesWith (setTSC v) thread.readFPU
  writeFPU : ∀ bs v, CommutesWith (setTSC v) (thread.writeFPU bs)

namespace EmptyThread

/-- An `EmptyThread` with another counter. -/
def setTSC (v : Int) (t : EmptyThread) : EmptyThread :=
  { t with regs := Function.update t.regs (.name (.reg .tsc)) v }

theorem keepsTSC : thread.KeepsTSC (fun t => t.regs (.name (.reg .tsc))) setTSC where
  tsc_setTSC v t := by simp [setTSC]
  setTSC_tsc t := by simp [setTSC]
  setTSC_setTSC u v t := by simp [setTSC]
  read _ _ := rfl
  write _ _ := rfl
  readApart name hint hne v t := by
    have hsame : (setTSC v t).regs name = t.regs name := Function.update_of_ne hne _ _
    exact congrArg (fun i => EStateM.Result.ok (PyValue.int i) (setTSC v t)) hsame
  writeApart name val hne v t := by
    change EStateM.Result.ok () _ = EStateM.Result.ok () _
    simp [setTSC, Function.update_comm hne]
  readFPU _ _ := rfl
  writeFPU _ _ _ := rfl

end EmptyThread

/-! ## two runs -/

/-- Two processes with the counter `k` further in the second. -/
def Shifted (tsc : τ → Int) (setTSC : Int → τ → τ) (k : Int) (p q : ProcOver μ π τ) : Prop :=
  q = { p with thread := setTSC (tsc p.thread + k) p.thread }

/-- A method that does the same in both. -/
def Agrees (S : α → α → Prop) {β : Type} (m : EStateM PyExc α β) : Prop :=
  RelTriple S m m (fun a b p q => a = b ∧ S p q) fun e f p q => e = f ∧ S p q

namespace Agrees

variable {S : α → α → Prop} {β γ : Type}

theorem bind {m : EStateM PyExc α β} {f : β → EStateM PyExc α γ} (hm : Agrees S m)
    (hf : ∀ b, Agrees S (f b)) : Agrees S (m >>= f) := by
  refine RelTriple.bind hm fun a b p q h => ?_
  rw [← h.1]
  exact hf a p q h.2

theorem pure (b : β) : Agrees S (Pure.pure b : EStateM PyExc α β) :=
  RelTriple.pure fun _ _ h => ⟨rfl, h⟩

theorem ofExcept {S : ProcOver μ π τ → ProcOver μ π τ → Prop} (r : Except PyExc β) :
    Agrees S (Proc.ofExcept r) := by
  cases r with
  | ok b => exact pure b
  | error e => exact RelTriple.throw fun _ _ h => ⟨rfl, h⟩

end Agrees

namespace Thread.KeepsTSC

variable {thread : Thread τ} {tsc : τ → Int} {setTSC : Int → τ → τ}
  (h : thread.KeepsTSC tsc setTSC)

include h

/-- What commutes with setting the counter does not change it. -/
theorem onThread {m : EStateM PyExc τ α} (hm : ∀ v, CommutesWith (setTSC v) m) (k : Int) :
    Agrees (Shifted (μ := μ) (π := π) tsc setTSC k) (Proc.onThread m) := by
  have htsc (t : τ) : (∀ a t', m t = .ok a t' → tsc t' = tsc t) ∧
      ∀ e t', m t = .error e t' → tsc t' = tsc t := by
    have hsame := hm (tsc t) t
    rw [h.setTSC_tsc] at hsame
    constructor
    · intro a t' hr
      rw [hr] at hsame
      injection hsame with _ ht
      rw [ht, h.tsc_setTSC]
    · intro e t' hr
      rw [hr] at hsame
      injection hsame with _ ht
      rw [ht, h.tsc_setTSC]
  rintro p q rfl
  have hshifted := hm (tsc p.thread + k) p.thread
  unfold Proc.onThread
  cases hr : m p.thread with
  | ok a t =>
      rw [hr] at hshifted
      simp only [hshifted]
      refine ⟨rfl, ?_⟩
      rw [Shifted, (htsc _).1 a t hr]
  | error e t =>
      rw [hr] at hshifted
      simp only [hshifted]
      refine ⟨rfl, ?_⟩
      rw [Shifted, (htsc _).2 e t hr]

variable {k : Int}

omit h in
theorem onMemory (m : EStateM PyExc (Memory μ π) α) :
    Agrees (Shifted tsc setTSC k) (Proc.onMemory m) := by
  rintro p q rfl
  unfold Proc.onMemory
  cases m p.memory with
  | ok a memory => exact ⟨rfl, rfl⟩
  | error e memory => exact ⟨rfl, rfl⟩

theorem readRegister {name : PyRegName} (hname : name ≠ .name (.reg .tsc)) (hint : RegRequestHint) :
    Agrees (Shifted (μ := μ) (π := π) tsc setTSC k) (Proc.readRegister thread name hint) :=
  (h.onThread (h.readApart name hint hname) k).bind fun _ => .ofExcept _

theorem computeAddress (seg : RegName) (base index scale disp size : Nat) (hint : MemRequestHint) :
    Agrees (Shifted (μ := μ) (π := π) tsc setTSC k)
      (Proc.computeAddress thread seg base index scale disp size hint) := by
  have hseg : Agrees (Shifted (μ := μ) (π := π) tsc setTSC k) (Proc.segBase thread seg hint) := by
    have hname : PyRegName.base seg ≠ .name (.reg .tsc) := nofun
    unfold Proc.segBase
    split
    · refine (h.readRegister hname _).bind fun base p q hpq => ⟨?_, hpq⟩
      rw [hpq]
    · exact .pure _
  exact hseg.bind fun _ => .pure _

end Thread.KeepsTSC

/-! ## the binding -/

/-- Two bindings with objects related by `S`; what is remembered for a message may differ. -/
structure SameBinding {ρ : Type} (S : ρ → ρ → Prop) (b c : Binding ρ) : Prop where
  self : S b.self c.self
  hasError : c.hasError = b.hasError
  pending : c.pending = b.pending

namespace SameBinding

variable {ρ : Type} {S : ρ → ρ → Prop} {b c : Binding ρ} (h : SameBinding S b c)

include h

theorem call {m : EStateM PyExc ρ α} (hm : Agrees S m) :
    ∃ r b' c', b.call m = (r, b') ∧ c.call m = (r, c') ∧ SameBinding S b' c' := by
  have hrel := hm _ _ h.self
  unfold Binding.call
  cases hb : m b.self with
  | ok a p =>
      cases hc : m c.self with
      | ok a' q =>
          rw [hb, hc] at hrel
          obtain ⟨rfl, hself⟩ := hrel
          exact ⟨_, _, _, rfl, rfl, hself, h.hasError, h.pending⟩
      | error e q =>
          rw [hb, hc] at hrel
          exact hrel.elim
  | error e p =>
      cases hc : m c.self with
      | ok a q =>
          rw [hb, hc] at hrel
          exact hrel.elim
      | error e' q =>
          rw [hb, hc] at hrel
          obtain ⟨rfl, hself⟩ := hrel
          exact ⟨_, _, _, rfl, rfl, hself, h.hasError, rfl⟩

theorem readValue (res : PyValue) (numBits : Nat) (val : Data) (usage : Usage) :
    (c.readValue res numBits val usage).1 = (b.readValue res numBits val usage).1 ∧
      (c.readValue res numBits val usage).2.1 = (b.readValue res numBits val usage).2.1 ∧
      SameBinding S (b.readValue res numBits val usage).2.2 (c.readValue res numBits val usage).2.2 := by
  obtain ⟨p, hasError, error, pending⟩ := b
  obtain ⟨q, hasError', error', pending'⟩ := c
  have hself : S p q := h.self
  obtain rfl : hasError' = hasError := h.hasError
  obtain rfl : pending' = pending := h.pending
  unfold Binding.readValue
  split
  · exact ⟨rfl, rfl, hself, rfl, rfl⟩
  · cases res with
    | int i =>
        dsimp only
        split
        · exact ⟨rfl, rfl, hself, rfl, rfl⟩
        · split
          · exact ⟨rfl, rfl, hself, rfl, rfl⟩
          · exact ⟨rfl, rfl, hself, rfl, rfl⟩
    | bytes bs =>
        dsimp only
        split
        · exact ⟨rfl, rfl, hself, rfl, rfl⟩
        · exact ⟨rfl, rfl, hself, rfl, rfl⟩
    | float d f => exact ⟨rfl, rfl, hself, rfl, rfl⟩
    | bytearray bs => exact ⟨rfl, rfl, hself, rfl, rfl⟩
    | str => exact ⟨rfl, rfl, hself, rfl, rfl⟩
    | other => exact ⟨rfl, rfl, hself, rfl, rfl⟩

end SameBinding

/-- Methods that do the same on related objects, unless they are about the counter. -/
structure PyMethods.Agree {ρ : Type} (py : PyMethods ρ) (S : ρ → ρ → Prop) : Prop where
  computeAddress : ∀ seg base index scale disp size hint,
    Agrees S (py.computeAddress seg base index scale disp size hint)
  readRegister : ∀ name hint, name ≠ .reg .tsc → Agrees S (py.readRegister name hint)
  writeRegister : ∀ name bs, name ≠ .reg .tsc → Agrees S (py.writeRegister name bs)
  readMemory : ∀ addr numBytes hint, Agrees S (py.readMemory addr numBytes hint)
  writeMemory : ∀ addr bs, Agrees S (py.writeMemory addr bs)
  readFPU : Agrees S py.readFPU
  writeFPU : ∀ bs, Agrees S (py.writeFPU bs)

/-- So do the callbacks. -/
theorem PyMethods.Agree.indistinct {ρ : Type} {py : PyMethods ρ} {S : ρ → ρ → Prop}
    (h : py.Agree S) (xed : Xed) (cpu : Cpu) (isInitialized : Bool) (addrSize : AddressSize) :
    Indistinct (Binding.executor py xed cpu isInitialized addrSize) (SameBinding S) where
  computeAddress := by
    intro b c seg base index scale disp size hint hb
    obtain ⟨r, b', c', hb', hc', hsame⟩ := hb.call (h.computeAddress seg base.toNat index.toNat
      scale.toNat disp.toNat (size / 8) hint)
    simp only [Binding.executor, Binding.computeAddress, hb.hasError]
    split
    · exact ⟨rfl, hb⟩
    · rw [hb', hc']
      cases r with
      | none => exact ⟨rfl, hsame.self, rfl, hsame.pending⟩
      | some res =>
          obtain ⟨hok, hdata, hread⟩ := hsame.readValue res addrSize.bits 0
            (.computeAddress seg base index scale disp (size / 8) hint)
          dsimp only
          rw [hok, hdata]
          split
          · exact ⟨rfl, hread⟩
          · exact ⟨rfl, hread⟩
  readReg := by
    intro b c name size hint data hname hb
    obtain ⟨r, b', c', hb', hc', hsame⟩ := hb.call (h.readRegister name hint hname)
    simp only [Binding.executor, Binding.readReg, hb.hasError]
    split
    · exact ⟨rfl, rfl, hb⟩
    · rw [hb', hc']
      cases r with
      | none => exact ⟨rfl, rfl, hsame⟩
      | some res => exact hsame.readValue res size data _
  writeReg := by
    intro b c name size data hname hb
    obtain ⟨r, b', c', hb', hc', hsame⟩ := hb.call
      (h.writeRegister name (Bits.toBytes ((size + 7) / 8) data) hname)
    simp only [Binding.executor, Binding.writeReg, hb.hasError]
    split
    · exact ⟨rfl, hb⟩
    · rw [hb', hc']
      exact ⟨rfl, hsame⟩
  readMem := by
    intro b c addr size hint data hb
    obtain ⟨r, b', c', hb', hc', hsame⟩ := hb.call (h.readMemory addr.toNat (size / 8) hint)
    simp only [Binding.executor, Binding.readMem, hb.hasError]
    split
    · exact ⟨rfl, rfl, hb⟩
    · rw [hb', hc']
      cases r with
      | none => exact ⟨rfl, rfl, hsame⟩
      | some res => exact hsame.readValue res size data _
  writeMem := by
    intro b c addr size data hb
    obtain ⟨r, b', c', hb', hc', hsame⟩ := hb.call
      (h.writeMemory addr.toNat (Bits.toBytes (size / 8) data))
    simp only [Binding.executor, Binding.writeMem, hb.hasError]
    split
    · exact ⟨rfl, hb⟩
    · rw [hb', hc']
      exact ⟨rfl, hsame⟩
  readFPU := by
    intro b c fpu hb
    obtain ⟨r, b', c', hb', hc', hsame⟩ := hb.call h.readFPU
    simp only [Binding.executor, Binding.readFPU, hb.hasError]
    split
    · exact ⟨rfl, rfl, hb⟩
    · rw [hb', hc']
      have herror {f g : Option BindingError} : SameBinding S
          { b' with hasError := true, error := f } { c' with hasError := true, error := g } :=
        ⟨hsame.self, rfl, hsame.pending⟩
      cases r with
      | none => exact ⟨rfl, rfl, hsame⟩
      | some res =>
          cases res with
          | bytes bs =>
              dsimp only
              split
              · exact ⟨rfl, rfl, hsame.self, hsame.hasError, hsame.pending⟩
              · exact ⟨rfl, rfl, hsame⟩
          | int i => exact ⟨rfl, rfl, herror⟩
          | bytearray bs => exact ⟨rfl, rfl, herror⟩
          | str => exact ⟨rfl, rfl, herror⟩
          | float d f => exact ⟨rfl, rfl, herror⟩
          | other => exact ⟨rfl, rfl, herror⟩
  writeFPU := by
    intro b c fpu hb
    obtain ⟨r, b', c', hb', hc', hsame⟩ := hb.call (h.writeFPU (Bits.toBytes 512 fpu))
    simp only [Binding.executor, Binding.writeFPU, hb', hc']
    exact ⟨trivial, hsame⟩
  clearError h := ⟨h.self, h.hasError, rfl⟩

/-- The methods of a process. -/
theorem Thread.KeepsTSC.methods [MemoryMap μ π] {thread : Thread τ} {tsc : τ → Int}
    {setTSC : Int → τ → τ} (h : thread.KeepsTSC tsc setTSC) (k : Int) :
    (Proc.methods (μ := μ) (π := π) thread).Agree (Shifted tsc setTSC k) where
  computeAddress seg base index scale disp size hint :=
    (h.computeAddress seg base index scale disp size hint).bind fun _ => .pure _
  readRegister name hint hname := by
    have hne : PyRegName.name name ≠ .name (.reg .tsc) := fun heq => hname (PyRegName.name.inj heq)
    exact (h.readRegister hne hint).bind fun _ => .pure _
  writeRegister name bs hname := by
    have hne : PyRegName.name name ≠ .name (.reg .tsc) := fun heq => hname (PyRegName.name.inj heq)
    exact (Agrees.ofExcept _).bind fun val => h.onThread (h.writeApart _ val hne) k
  readMemory addr numBytes hint :=
    (KeepsTSC.onMemory _).bind fun _ => (KeepsTSC.onMemory _).bind fun _ => .pure _
  writeMemory addr bs := KeepsTSC.onMemory _
  readFPU := (h.onThread h.readFPU k).bind fun _ => (Agrees.ofExcept _).bind fun _ => .pure _
  writeFPU bs := h.onThread (h.writeFPU bs) k

/-! ## errors -/

/-- A register is only written while no callback has failed for good. -/
def WrittenWithoutError {ρ : Type} : Observation (Binding ρ) := fun b t =>
  ∀ name size data, t.getLast? = some (.writeReg name size data true) → b.hasError = false

/-- An instruction that ends well leaves no error behind. -/
theorem hasError_of_ok {ρ : Type} (py : PyMethods ρ) (xed : Xed) (cpu : Cpu) (isInitialized : Bool)
    (addrSize : AddressSize) {w w' : World (Binding ρ)} (hw : w.env.hasError = false)
    (h : (Binding.executor py xed cpu isInitialized addrSize).executeInstruction w = .ok () w') :
    w'.env.hasError = false := by
  have hinv : Invariant (Binding.executor py xed cpu isInitialized addrSize) WrittenWithoutError := by
    have hother {b : Binding ρ} {t : List Event} {e : Event} (he : e.writtenName = none) :
        WrittenWithoutError b (t ++ [e]) := by
      intro name size data hlast
      rw [List.getLast?_concat, Option.some.injEq] at hlast
      rw [hlast] at he
      cases he
    refine ⟨⟨fun _ _ _ _ _ _ _ _ => hother rfl, fun _ _ _ _ _ => hother rfl,
      fun _ _ _ _ _ => hother rfl, fun _ _ => hother rfl, fun h => h⟩,
      ⟨fun {b t} name size data _ => ?_, fun _ _ => hother rfl⟩, fun _ _ _ _ => hother rfl⟩
    intro name' size' data' hlast
    rw [List.getLast?_concat, Option.some.injEq, Event.writeReg.injEq] at hlast
    obtain ⟨-, -, -, hok⟩ := hlast
    simp only [Binding.executor, Binding.writeReg] at hok ⊢
    cases herror : b.hasError with
    | true => simp [herror] at hok
    | false =>
        rw [if_neg (by decide)]
        unfold Binding.call
        split <;> exact herror
  have hkeep := hinv.executeInstruction w fun _ _ _ _ => hw
  have hlast := executeInstruction_disciplined (Binding.executor py xed cpu isInitialized addrSize) w
  rw [h] at hkeep hlast
  obtain ⟨_, _, _, _, _, _, before, _, _, _, htrace⟩ := hlast
  have hwrote := congrArg List.getLast? htrace
  rw [List.getLast?_concat] at hwrote
  exact hkeep _ _ _ hwrote

/-! ## calls -/

namespace Process

variable {process : Process} {thread : Thread τ} {tsc : τ → Int} {setTSC : Int → τ → τ}

/-- `n` calls of `execute(thread, 1)`. -/
def executeTimes (process : Process) (thread : Thread τ) : Nat → EStateM ExecuteError (State τ) Unit
  | 0 => pure ()
  | n + 1 => do
      process.execute thread 1
      executeTimes process thread n

/-- The counter, moved. -/
def counted (tsc : τ → Int) (setTSC : Int → τ → τ) (n : Int) (w : State τ) : State τ :=
  { w with env := { w.env with self := { w.env.self with
      thread := setTSC (tsc w.env.self.thread + n) w.env.self.thread } } }

/-- A state with the errors of the last call forgotten. -/
def cleared (w : State τ) : State τ := { w with env := w.env.resetErrors }

theorem callSelf_addToTSC (h : thread.KeepsTSC tsc setTSC) (n : Nat) (w : State τ) :
    callSelf (addToTSC thread n) w = .ok () (counted tsc setTSC n w) := by
  have hread : Proc.readRegister thread (.name (.reg .tsc)) .none w.env.self =
      .ok (tsc w.env.self.thread) w.env.self := by
    have hthread : Proc.onThread (thread.readRegister (.name (.reg .tsc)) .none) w.env.self =
        .ok (.int (tsc w.env.self.thread)) w.env.self := by
      rw [Proc.onThread, h.read]
    unfold Proc.readRegister
    rw [run_bind_ok hthread]
    rfl
  have hwrite : Proc.writeRegister thread (.name (.reg .tsc)) (.int (tsc w.env.self.thread + n))
      w.env.self = .ok () { w.env.self with
        thread := setTSC (tsc w.env.self.thread + n) w.env.self.thread } := by
    change Proc.onThread (thread.writeRegister _ _) w.env.self = _
    rw [Proc.onThread, h.write]
  unfold callSelf addToTSC
  rw [run_bind_ok hread, hwrite]
  rfl

/-- A call that succeeds. -/
theorem execute_eq_ok (h : thread.KeepsTSC tsc setTSC) {n : Nat} (hn : 0 < n) {w w' : State τ} :
    process.execute thread n w = .ok () w' ↔
      ∃ w₁, (process.executor thread).execute n (cleared w) = .ok () w₁ ∧ w₁.env.pending = none ∧
        w' = counted tsc setTSC n w₁ := by
  unfold execute
  rw [if_pos hn]
  constructor
  · intro hrun
    obtain ⟨_, w₁, hexec, hcount⟩ := bind_eq_ok.mp hrun
    rw [callSelf_addToTSC h] at hcount
    unfold Binding.execute at hexec
    split at hexec
    case h_1 u w₂ hr =>
      split at hexec
      case h_1 hpending =>
        cases hexec
        cases hcount
        exact ⟨w₁, hr, hpending, rfl⟩
      · cases hexec
    · cases hexec
  · rintro ⟨w₁, hr, hpending, rfl⟩
    refine bind_eq_ok.mpr ⟨(), w₁, ?_, callSelf_addToTSC h n w₁⟩
    unfold Binding.execute
    rw [show (process.executor thread).execute n { w with env := w.env.resetErrors } = _ from hr]
    simp only [hpending]

/-- No instruction of a call has the counter among its registers, the first one apart. -/
def AvoidsTSCAfterFirst (process : Process) (thread : Thread τ) (n : Nat) (w : State τ) : Prop :=
  ∀ j, 0 < j → j < n → ∀ w' inst w'', (process.executor thread).Steps j (cleared w) w' →
    (process.executor thread).fetch w' = .ok inst w'' → inst.AvoidsTSC

theorem indistinct (h : thread.KeepsTSC tsc setTSC) (k : Int) :
    Indistinct (process.executor thread) (SameBinding (Shifted tsc setTSC k)) :=
  (h.methods k).indistinct _ _ _ _

/-- Moving the counter moves it further. -/
theorem shifted_counted (h : thread.KeepsTSC tsc setTSC) {k : Int} {w v : State τ}
    (hw : Alike Eq (SameBinding (Shifted tsc setTSC k)) w v) :
    Alike Eq (SameBinding (Shifted tsc setTSC (k + 1))) w (counted tsc setTSC (1 : Nat) v) := by
  refine ⟨hw.globals, hw.idata, hw.trace, hw.host, ?_, hw.env.hasError, hw.env.pending⟩
  have hself : v.env.self = _ := hw.env.self
  simp only [Shifted, counted, hself, h.tsc_setTSC, h.setTSC_setTSC, Nat.cast_one, add_assoc]

/-- The loop of a call next to single calls, from states with the counter `k` apart. -/
theorem executeLoop_agrees (h : thread.KeepsTSC tsc setTSC) (hinit : process.isInitialized = true)
    (n : Nat) : ∀ (k : Int) (w v v' : State τ),
      Alike Eq (SameBinding (Shifted tsc setTSC k)) w v → w.env.hasError = false →
      w.env.pending = none →
      (∀ j < n, ∀ w' inst w'', (process.executor thread).Steps j w w' →
        (process.executor thread).fetch w' = .ok inst w'' → inst.AvoidsTSC) →
      process.executeTimes thread n v = .ok () v' →
      ∃ w', (process.executor thread).executeLoop n w = .ok () w' ∧ w'.env.pending = none ∧
        Alike Eq (SameBinding (Shifted tsc setTSC (k + n))) w' v' := by
  have hH : ∀ a b : Nat → Word, a = b → b 0 = a 0 ∧ (fun n => a (n + 1)) = fun n => b (n + 1) := by
    rintro a b rfl
    exact ⟨rfl, rfl⟩
  induction n with
  | zero =>
      intro k w v v' hw _ hpending _ hrun
      cases hrun
      exact ⟨w, rfl, hpending, by simpa using hw⟩
  | succ n ih =>
      intro k w v v' hw herror hpending havoids hrun
      obtain ⟨_, v₁, hone, hrest⟩ := bind_eq_ok.mp hrun
      obtain ⟨v₂, hexec, hpending₂, rfl⟩ := (execute_eq_ok h Nat.one_pos).mp hone
      rw [Executor.execute_one hinit] at hexec
      -- Forgetting errors forgets nothing that the batch still has.
      have hcleared : Alike Eq (SameBinding (Shifted tsc setTSC k)) w (cleared v) :=
        ⟨hw.globals, hw.idata, hw.trace, hw.host, hw.env.self, herror.symm, hw.env.pending⟩
      have hsame := (indistinct h k).executeInstruction hH hcleared
        (havoids 0 (Nat.succ_pos n) w · · rfl)
      rw [hexec] at hsame
      cases hr : (process.executor thread).executeInstruction w with
      | error e w₁ =>
          rw [hr] at hsame
          exact hsame.elim
      | ok u w₁ =>
          rw [hr] at hsame
          have hpending₁ : w₁.env.pending = none := by rw [← hsame.env.pending, hpending₂]
          have hstep : (process.executor thread).execute 1 w = .ok () w₁ := by
            rw [Executor.execute_one hinit, hr]
          obtain ⟨w', hloop, hp, halike⟩ := ih (k + 1) w₁ _ v' (shifted_counted h hsame)
            (hasError_of_ok _ _ _ _ _ herror hr) hpending₁
            (fun j hj w' inst w'' hsteps => havoids (j + 1) (Nat.succ_lt_succ hj) w' inst w''
              ⟨w₁, hstep, hsteps⟩) hrest
          refine ⟨w', ?_, hp, ?_⟩
          · rw [← hloop]
            exact run_bind_ok hr
          · have hsum : k + 1 + (n : Int) = k + (n + 1 : Nat) := by push_cast; ring
            rwa [hsum] at halike

/-- **A batch does what single calls do**, when no instruction after the first has the time-stamp
counter among its registers. -/
theorem batching_agrees (h : thread.KeepsTSC tsc setTSC) {n : Nat} (hn : 0 < n) {w w' : State τ}
    (hrun : process.executeTimes thread n w = .ok () w')
    (havoids : process.AvoidsTSCAfterFirst thread n w) :
    ∃ w'', process.execute thread n w = .ok () w'' ∧ w''.env.self = w'.env.self ∧
      w''.globals = w'.globals := by
  obtain ⟨n, rfl⟩ := Nat.exists_eq_succ_of_ne_zero (Nat.ne_of_gt hn)
  obtain ⟨_, v₁, hone, hrest⟩ := bind_eq_ok.mp hrun
  obtain ⟨w₁, hexec, hpending, rfl⟩ := (execute_eq_ok h Nat.one_pos).mp hone
  have hinit : process.isInitialized = true := by
    cases hinit : process.isInitialized with
    | true => rfl
    | false =>
        rw [Executor.execute_of_not_initialized hinit Nat.one_ne_zero] at hexec
        cases hexec
  have hfirst : (process.executor thread).executeInstruction (cleared w) = .ok () w₁ := by
    rw [← Executor.execute_one hinit, hexec]
  have hrefl : Alike Eq (SameBinding (Shifted tsc setTSC 0)) w₁ w₁ := by
    refine ⟨rfl, rfl, rfl, rfl, ?_, rfl, rfl⟩
    rw [Shifted, add_zero, h.setTSC_tsc]
  obtain ⟨w'', hloop, hpending', halike⟩ := executeLoop_agrees h hinit n _ _ _ _
    (shifted_counted h hrefl) (hasError_of_ok _ _ _ _ _ rfl hfirst) hpending
    (fun j hj w' inst w'' hsteps => havoids (j + 1) (Nat.succ_pos j) (Nat.succ_lt_succ hj) w' inst w''
      ⟨w₁, hexec, hsteps⟩) hrest
  have hbatch : (process.executor thread).execute (n + 1) (cleared w) = .ok () w'' := by
    rw [Executor.execute_of_initialized hinit, ← hloop]
    exact run_bind_ok hfirst
  refine ⟨_, (execute_eq_ok h hn).mpr ⟨w'', hbatch, hpending', rfl⟩, ?_, halike.globals.symm⟩
  have hself : w'.env.self = _ := halike.env.self
  have hsum : (0 : Int) + 1 + n = ((n + 1 : Nat) : Int) := by push_cast; ring
  rw [hself, hsum]
  rfl

/-! ### samples -/

/-- A 32-bit process that knows one instruction. -/
def knowing (inst : Inst) : Process where
  xed := Xed.ofDecoder (fun _ bytes => bytes.head?.map fun _ => inst) fun _ => false
  cpu := { native := fun _ s => (.none, s), stackPointer := 0, fpu := 0 }
  isInitialized := true
  addrSize := .x32

/-- `RDTSC`. -/
def rdtscInst : Inst :=
  { Inst.scalar .rdtsc 2 32 [.register .reg0 true, .register .reg1 true, .register .reg2 false]
      (fun
        | .reg0 => .gpr32 .rax
        | .reg1 => .gpr32 .rdx
        | _ => .tsc)
      (fun _ => .none) 0 with
    category := .system }

/-- Code at the bottom of the memory. -/
def codeMap : PermissionedMemoryMap := ⟨0, 32, true, false, true, by decide⟩

/-- An `EmptyThread` about to execute it. -/
def emptyStart : State EmptyThread :=
  match Memory.addAll [codeMap] (Memory.init .x32 5 (by decide) (by decide)) with
  | .ok _ m | .error _ m => .start (.start ⟨m, .start⟩)

/-- `EAX` of a thread after a call. -/
def eaxAfter (r : EStateM.Result ExecuteError (State EmptyThread) Unit) : Option Int :=
  match r with
  | .ok _ w => some (w.env.self.thread.regs (.name (.reg (.gpr32 .rax))))
  | .error _ _ => none

theorem eaxAfter_batch :
    eaxAfter ((knowing rdtscInst).execute EmptyThread.thread 2 emptyStart) = some 0 := by
  decide +kernel

theorem eaxAfter_calls :
    eaxAfter ((knowing rdtscInst).executeTimes EmptyThread.thread 2 emptyStart) = some 1 := by
  decide +kernel

/-- The second of two `RDTSC` in a batch reads what the first one read. -/
theorem batching_disagrees : ¬∀ (process : Process) (n : Nat) (w w' : State EmptyThread), 0 < n →
    process.executeTimes EmptyThread.thread n w = .ok () w' →
    ∃ w'', process.execute EmptyThread.thread n w = .ok () w'' ∧ w''.env.self = w'.env.self := by
  intro h
  have hcalls := eaxAfter_calls
  have hbatch := eaxAfter_batch
  cases hr : (knowing rdtscInst).executeTimes EmptyThread.thread 2 emptyStart with
  | error e w' =>
      rw [hr] at hcalls
      cases hcalls
  | ok u w' =>
      obtain ⟨w'', hexec, hself⟩ := h _ 2 _ _ (by decide) hr
      rw [hr] at hcalls
      rw [hexec] at hbatch
      simp only [eaxAfter, hself] at hcalls hbatch
      rw [hbatch] at hcalls
      cases hcalls

/-- A process that also knows `NOP`. -/
def knowingNop : Process :=
  { knowing rdtscInst with
    xed := Xed.ofDecoder
      (fun _ bytes => bytes.head?.map fun b => if b = 0x90 then nopInst else rdtscInst) fun _ => false }

/-- A `NOP` behind the first `RDTSC`. -/
def nopBehind : State EmptyThread :=
  match Memory.store 2 [0x90] emptyStart.env.self.memory with
  | .ok _ m | .error _ m => .start (.start ⟨m, .start⟩)

/-- The category of the instruction after the first one. -/
def secondCategory (process : Process) (w : State EmptyThread) : Option Category :=
  match (process.executor EmptyThread.thread).execute 1 (cleared w) with
  | .error _ _ => none
  | .ok _ w' =>
      match (process.executor EmptyThread.thread).fetch w' with
      | .error _ _ => none
      | .ok inst _ => some inst.category

/-- The counter of a thread after a call. -/
def counterAfter (r : EStateM.Result ExecuteError (State EmptyThread) Unit) : Option Int :=
  match r with
  | .ok _ w => some (w.env.self.thread.regs (.name (.reg .tsc)))
  | .error _ _ => none

/-- A `NOP` does not see that the counter stands still in a batch. -/
theorem batching_agrees_rdtscNop : ∃ w' w'' : State EmptyThread,
    knowingNop.executeTimes EmptyThread.thread 2 nopBehind = .ok () w' ∧
      knowingNop.execute EmptyThread.thread 2 nopBehind = .ok () w'' ∧
      w''.env.self = w'.env.self ∧ w''.env.self.thread.regs (.name (.reg .tsc)) = 2 := by
  have hrun : counterAfter (knowingNop.executeTimes EmptyThread.thread 2 nopBehind) = some 2 := by
    decide +kernel
  have hsecond : secondCategory knowingNop nopBehind = some .nop := by decide +kernel
  have hafter : knowingNop.AvoidsTSCAfterFirst EmptyThread.thread 2 nopBehind := by
    intro j hpos hlt v inst v' hsteps hfetch
    obtain rfl : j = 1 := by omega
    obtain ⟨v₁, hone, rfl⟩ := hsteps
    -- the second instruction is one of the two, and not the first
    have hcategory : inst.category = .nop := by
      rw [secondCategory, hone] at hsecond
      dsimp only at hsecond
      rw [hfetch] at hsecond
      exact Option.some.inj hsecond
    have hdecoded := (invariant_since (knowingNop.executor EmptyThread.thread)
      v₁.trace).reads.fetch_decoded v₁ (Since.refl _ v₁)
    rw [hfetch] at hdecoded
    obtain ⟨-, bytes, hbytes⟩ := hdecoded
    obtain ⟨b, -, hinst⟩ := Option.map_eq_some_iff.mp hbytes
    split at hinst
    · subst hinst
      exact ⟨nofun, nofun, nofun⟩
    · subst hinst
      cases hcategory
  cases hr : knowingNop.executeTimes EmptyThread.thread 2 nopBehind with
  | error e w' =>
      rw [hr] at hrun
      cases hrun
  | ok u w' =>
      obtain ⟨w'', hexec, hself, -⟩ := batching_agrees EmptyThread.keepsTSC (by decide) hr hafter
      rw [hr] at hrun
      refine ⟨w', w'', rfl, hexec, hself, ?_⟩
      rw [hself]
      exact Option.some.inj hrun

end Process

end Microx
