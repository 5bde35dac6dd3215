import Microx.Executor.NoTrace
import Microx.Executor.Protocol
import Microx.Executor.SideBySide
import Microx.Executor.Stepping

/-!
# Microx.Executor.MMX

The MMX registers are part of the FPU: an environment is told about both, and
what it is told agrees.

`ReadRegister` notes an MMX register as a use of the FPU, and before the
instruction `CopyMMXStateToFPU` fills the slots of such registers.  After it
`WriteFPU` comes before `CopyMMXStateFromFPU`, and `WriteRegisters` last, so an
MMX register that is written is a slot of the FPU state that was written.
-/

namespace Microx

open Hoare

variable {σ α β : Type}

/-! ## slots -/

/-- `st[i].mmx` in an `FXSAVE` area. -/
def mmxSlot (fpu : FPU) (i : Fin 8) : Word := (fpu >>> Executor.mmxOffset i).setWidth 64

/-- The sixteen bits above `st[i].mmx`. -/
def aboveSlot (fpu : FPU) (i : Fin 8) : BitVec 16 :=
  (fpu >>> (Executor.mmxOffset i + 64)).setWidth 16

/-- Every MMX register in use is in its slot, below sixteen ones. -/
def HoldsMMX (g : Globals) (fpu : FPU) : Prop :=
  ∀ i, g.usedRegs (.mmx i) = true →
    mmxSlot fpu i = (g.regs (.mmx i)).setWidth 64 ∧ aboveSlot fpu i = 0xFFFF

/-- A fold whose round for `a` establishes an assertion that the others keep, under an invariant. -/
theorem foldl_establishes {f : β → α → β} {I P : β → Prop} {a : α} (hinv : ∀ c b, I b → I (f b c))
    (hself : ∀ b, I b → P (f b a)) (hkeep : ∀ c, c ≠ a → ∀ b, I b → P b → P (f b c)) (l : List α) :
    ∀ b, I b → a ∈ l ∨ P b → P (l.foldl f b) := by
  induction l with
  | nil => exact fun b _ h => h.resolve_left List.not_mem_nil
  | cons c l ih =>
      intro b hb h
      refine ih (f b c) (hinv c b hb) ?_
      by_cases hc : c = a
      · exact .inr (hc ▸ hself b hb)
      · exact h.imp (fun h => (List.mem_cons.mp h).resolve_left fun h => hc h.symm) (hkeep c hc b hb)

namespace Executor

theorem mmxOffset_le (i : Fin 8) : mmxOffset i + 80 ≤ 4096 := by
  unfold mmxOffset
  omega

theorem mmxOffset_apart {i j : Fin 8} (h : i ≠ j) :
    mmxOffset i + 80 ≤ mmxOffset j ∨ mmxOffset j + 80 ≤ mmxOffset i := by
  unfold mmxOffset
  have hne : (i : Nat) ≠ j := fun heq => h (Fin.ext heq)
  omega

theorem copyFromMMX_self {g : Globals} {i : Fin 8} (hused : g.usedRegs (.mmx i) = true) (fpu : FPU) :
    mmxSlot (copyFromMMX g fpu i) i = (g.regs (.mmx i)).setWidth 64 ∧
      aboveSlot (copyFromMMX g fpu i) i = 0xFFFF := by
  have hle := mmxOffset_le i
  rw [copyFromMMX, if_pos hused, mmxSlot, aboveSlot]
  constructor
  · rw [Bits.shiftRight_put_of_disjoint (.inl le_rfl) (by omega), Bits.shiftRight_put_self (by omega)]
  · rw [Bits.shiftRight_put_self (by omega)]
    rfl

theorem copyFromMMX_of_ne (g : Globals) {i j : Fin 8} (hj : j ≠ i) (fpu : FPU) :
    mmxSlot (copyFromMMX g fpu j) i = mmxSlot fpu i ∧
      aboveSlot (copyFromMMX g fpu j) i = aboveSlot fpu i := by
  have hle := mmxOffset_le i
  have hapart := mmxOffset_apart hj
  unfold copyFromMMX mmxSlot aboveSlot
  split
  · constructor
    · rw [Bits.shiftRight_put_of_disjoint (by omega) (by omega),
        Bits.shiftRight_put_of_disjoint (by omega) (by omega)]
    · rw [Bits.shiftRight_put_of_disjoint (by omega) (by omega),
        Bits.shiftRight_put_of_disjoint (by omega) (by omega)]
  · exact ⟨rfl, rfl⟩

/-- `CopyMMXStateToFPU` fills the slots of the registers in use. -/
theorem copyMMXStateToFPU_holds (g : Globals) : HoldsMMX g (copyMMXStateToFPU g).fpu := by
  intro i hused
  refine foldl_establishes (f := copyFromMMX g) (I := fun _ => True)
    (P := fun fpu => mmxSlot fpu i = (g.regs (.mmx i)).setWidth 64 ∧ aboveSlot fpu i = 0xFFFF)
    (fun _ _ h => h) (fun fpu _ => copyFromMMX_self hused fpu) (fun j hj fpu _ h => ?_)
    (List.finRange 8) g.fpu trivial (.inl (List.mem_finRange i))
  rw [(copyFromMMX_of_ne g hj fpu).1, (copyFromMMX_of_ne g hj fpu).2]
  exact h

theorem copyToMMX_self {g : Globals} {i : Fin 8} (hused : g.usedRegs (.mmx i) = true) :
    ((copyToMMX g i).regs (.mmx i)).setWidth 64 = mmxSlot g.fpu i := by
  rw [copyToMMX, if_pos hused, Globals.regs_setReg, Function.update_self,
    Bits.setWidth_put le_rfl (by decide)]
  rfl

theorem copyToMMX_of_ne (g : Globals) {i j : Fin 8} (hj : j ≠ i) :
    (copyToMMX g j).regs (.mmx i) = g.regs (.mmx i) := by
  unfold copyToMMX
  split
  · exact Function.update_of_ne (fun h => hj (Reg.mmx.inj h).symm) ..
  · rfl

theorem copyToMMX_kept (g : Globals) (i : Fin 8) :
    (copyToMMX g i).usedRegs = g.usedRegs ∧ (copyToMMX g i).fpu = g.fpu := by
  unfold copyToMMX
  split <;> exact ⟨rfl, rfl⟩

/-- `CopyMMXStateFromFPU` copies the slots of the registers in use. -/
theorem copyMMXStateFromFPU_reg (g : Globals) {i : Fin 8} (hused : g.usedRegs (.mmx i) = true) :
    ((copyMMXStateFromFPU g).regs (.mmx i)).setWidth 64 = mmxSlot g.fpu i := by
  refine foldl_establishes (f := copyToMMX) (a := i)
    (I := fun g' => g'.usedRegs (.mmx i) = true ∧ g'.fpu = g.fpu)
    (P := fun g' => (g'.regs (.mmx i)).setWidth 64 = mmxSlot g.fpu i) (fun j g' h => ?_)
    (fun g' h => ?_) (fun j hj g' _ h => ?_) (List.finRange 8) g ⟨hused, rfl⟩ (.inl (List.mem_finRange i))
  · rw [(copyToMMX_kept g' j).1, (copyToMMX_kept g' j).2]
    exact h
  · rw [copyToMMX_self h.1, h.2]
  · rw [copyToMMX_of_ne g' hj]
    exact h

end Executor

/-! ## registers that belong to the FPU -/

/-- The MMX registers in use are noted as uses of the FPU. -/
def NotesMMX (g : Globals) : Prop :=
  ∀ i, g.usedRegs (.mmx i) = true → g.usesFPU = true ∧ g.usesMMX = true

/-- What `NotesMMX` is about. -/
def Globals.mmxNotes (g : Globals) : (Reg → Bool) × Bool × Bool := (g.usedRegs, g.usesFPU, g.usesMMX)

theorem NotesMMX.congr {g g' : Globals} (h : NotesMMX g) (hsame : g'.mmxNotes = g.mmxNotes) :
    NotesMMX g' := by
  obtain ⟨hused, hfpu, hmmx⟩ : g'.usedRegs = g.usedRegs ∧ g'.usesFPU = g.usesFPU ∧
      g'.usesMMX = g.usesMMX := by simpa [Globals.mmxNotes] using hsame
  intro i hi
  rw [hfpu, hmmx]
  exact h i (hused ▸ hi)

theorem unseen_mmxNotes : Executor.Unseen Globals.mmxNotes :=
  ⟨fun _ _ _ => rfl, fun _ _ => rfl, fun _ _ => rfl, fun _ _ => rfl⟩

namespace Executor

variable (ex : Executor σ) (inst : Inst)

theorem eq_of_widestRegister_mmx {r : Reg} {i : Fin 8} (h : ex.widestRegister r = .mmx i) :
    r = .mmx i := by
  revert h
  unfold widestRegister
  cases ex.addrSize <;> cases ex.hasAVX <;> cases ex.hasAVX512 <;> cases r <;>
    simp [Reg.largestEnclosing, Reg.largestEnclosing32, Reg.withoutAVX, Reg.withoutAVX512]

theorem notesMMX_setUsed {g : Globals} (h : NotesMMX g) {r : Reg}
    (hr : r.isMMX = true → g.usesFPU = true ∧ g.usesMMX = true) :
    NotesMMX (g.setUsed (ex.widestRegister r)) := by
  intro i hi
  change Function.update g.usedRegs (ex.widestRegister r) true (.mmx i) = true at hi
  rw [Function.update_apply] at hi
  split at hi
  case isTrue heq => exact hr (by rw [ex.eq_of_widestRegister_mmx heq.symm]; rfl)
  · exact h i hi

/-- The FPU is noted, if the register is one of its. -/
def Noted (r : Reg) (g : Globals) : Prop :=
  NotesMMX g ∧ (r.isMMX = true → g.usesFPU = true ∧ g.usesMMX = true)

theorem readWidest_notesMMX (reg : Reg) (hint : RegRequestHint) :
    Leads (Noted reg) (ex.readWidest reg hint) fun _ => NotesMMX := by
  refine .bind (Q := fun _ => Noted reg) (.onGlobals fun g h => ?_) fun _ => ?_
  · unfold Globals.noteHint
    split <;> exact h
  · refine .readGlobals fun g => .ite (fun _ => .pure fun _ h => h.1) fun _ => ?_
    refine .bind (Q := fun _ => Noted reg) (.onGlobals fun _ h => h) fun _ => ?_
    refine .readGlobals fun g => .bind (.aside fun _ => rfl) fun r => ?_
    refine .bind (.onGlobals fun g h => ?_) fun _ => .check _ _
    have hset : NotesMMX ((g.setReg reg.largestEnclosing r.2).setUsed (ex.widestRegister reg)) :=
      ex.notesMMX_setUsed h.1 h.2
    exact hset

theorem readRegister_notesMMX (reg : Reg) (hint : RegRequestHint) :
    Leads NotesMMX (ex.readRegister reg hint) fun _ => NotesMMX := by
  refine .ite (fun _ => .pure fun _ h => h) fun _ => .ite (fun _ => ?_) fun _ => ?_
  · exact .onGlobals fun g h i hi => ⟨rfl, (h i hi).2⟩
  · refine .bind (Q := fun _ => Noted reg) (.onGlobals fun g h => ?_) fun _ => ?_
    · unfold Globals.noteClass
      split
      case isTrue => exact ⟨fun _ _ => ⟨rfl, rfl⟩, fun _ => ⟨rfl, rfl⟩⟩
      case isFalse hclass => exact ⟨h, fun hmmx => absurd hmmx hclass⟩
    · refine .ite (fun _ => ?_) fun _ => ex.readWidest_notesMMX reg hint
      exact (ex.readWidest_notesMMX _ _).conseq (fun g h => ⟨h.1, fun hmmx => by cases hmmx⟩)
        fun _ _ h => h

theorem readRegisters_notesMMX : Leads NotesMMX (ex.readRegisters inst) fun _ => NotesMMX := by
  have hmem (ops : List Operand) :
      ∀ i, Leads NotesMMX (ex.readMemRegisters inst i ops) fun _ => NotesMMX := by
    induction ops with
    | nil => exact fun _ => .pure fun _ h => h
    | cons op ops ih =>
        intro i
        refine .ite (fun _ => .bind ?_ fun _ => ih (i + 1)) fun _ => ih i
        exact .bind (ex.readRegister_notesMMX _ _) fun _ => ex.readRegister_notesMMX _ _
  have hoperand (hint : RegRequestHint) (op : Operand) :
      Leads NotesMMX (ex.readOperandRegister inst hint op) fun _ => NotesMMX := by
    unfold readOperandRegister
    split
    · exact ex.readRegister_notesMMX _ _
    · exact .pure fun _ h => h
  refine .bind (hmem _ 0) fun _ => .bind (Q := fun _ => NotesMMX) ?_ fun _ => ?_
  · exact .forM fun op _ => hoperand _ op
  · exact .forM fun op _ => hoperand _ op

theorem readFlags_notesMMX : Leads NotesMMX (ex.readFlags inst) fun _ => NotesMMX := by
  have hloop (mask : Word) (fs : List Flag) : ∀ data aflag,
      Leads NotesMMX (ex.readFlagLoop mask fs data aflag) fun _ => NotesMMX := by
    induction fs with
    | nil => exact fun _ _ => .pure fun _ h => h
    | cons f fs ih =>
        intro data aflag
        refine .ite (fun _ => ?_) fun _ => ih _ _
        exact .bind (.aside fun _ => rfl) fun r => .ite (fun _ => ih _ _) fun _ => .throw _
  refine .bind (Q := fun _ => NotesMMX) (.onGlobals fun _ h => h) fun _ => ?_
  split
  · exact .pure fun _ h => h
  case h_2 rflags _ =>
    refine .bind (Q := fun _ => NotesMMX) (.onGlobals fun g h => ?_) fun _ => ?_
    · have hset : NotesMMX (g.setUsed (ex.widestRegister .eflags)) :=
        ex.notesMMX_setUsed h fun hmmx => by cases hmmx
      unfold noteFlags
      dsimp only
      split <;> exact hset
    · refine .bind (.aside fun _ => rfl) fun host => .bind (hloop _ _ _ _) fun aflag => ?_
      exact .onGlobals fun _ h => h

theorem fetch_notesMMX : Leads (fun _ => True) ex.fetch fun _ => NotesMMX := by
  have hbytes (pc : Word) (len : Nat) :
      Leads NotesMMX (ex.fetchBytes pc len) fun _ => NotesMMX := by
    induction len with
    | zero => exact .throw _
    | succ len ih =>
        refine .get fun w => .bind (.aside fun _ => rfl) fun r => ?_
        refine .bind (.aside fun _ => rfl) fun _ => .ite (fun _ => .pure fun _ h => h) fun _ => ?_
        exact .bind (.aside fun _ => rfl) fun _ => ih
  refine .bind (Q := fun _ => NotesMMX) (.onGlobals fun g _ i hi => by cases hi) fun _ => ?_
  refine .bind (Q := fun _ => NotesMMX) ?_ fun _ => .readGlobals fun g => ?_
  · exact .bind (.onGlobals fun _ h => h) fun _ => ex.readRegister_notesMMX _ _
  · refine .bind (.aside fun _ => rfl) fun pc => .bind (hbytes pc 15) fun len => .get fun w => ?_
    split
    · exact .throw _
    · exact .bind (.onGlobals fun _ h => h) fun _ => .pure fun _ h => h

theorem readState_notesMMX : Leads NotesMMX (ex.readState inst) fun _ => NotesMMX :=
  .bind (.check _ _) fun _ => .bind (ex.readFlags_notesMMX inst) fun _ =>
    ex.readRegisters_notesMMX inst

theorem readOperands_notesMMX : Throughout NotesMMX (ex.readOperands inst) := by
  have hbeside : BesideMemory NotesMMX :=
    ⟨fun _ _ _ h => h.congr rfl, fun _ _ h => h.congr rfl, fun _ _ h => h.congr rfl⟩
  exact hbeside.readOperands ex inst fun _ _ h => h.congr rfl

/-- An instruction runs on an image that holds the MMX registers as they were read. -/
theorem readOperands_holdsMMX {g : Globals} (hnotes : NotesMMX g) :
    Leads (· = g) (ex.readOperands inst) fun _ g' => HoldsMMX g g'.fpu := by
  refine .bind (Q := fun _ g' => ∃ fpu, g' = { g with fpu := fpu }) ?_ fun _ => ?_
  · refine .readGlobals fun _ => .ite (fun _ => .bind (.aside fun _ => rfl) fun r => ?_) fun _ => ?_
    · refine .bind (Q := fun _ g' => ∃ fpu, g' = { g with fpu := fpu }) ?_ fun _ => .check _ _
      refine .onGlobals fun g' h => ⟨r.2, ?_⟩
      rw [h]
    · exact .pure fun g' h => ⟨g.fpu, h⟩
  · refine .bind (Q := fun _ g' => HoldsMMX g g'.fpu) (.onGlobals ?_) fun _ => ?_
    · rintro _ ⟨fpu, rfl⟩ i hi
      rw [whenMMX, if_pos (hnotes i hi).2]
      exact copyMMXStateToFPU_holds { g with fpu := fpu } i hi
    · have hbeside : BesideMemory fun g' => HoldsMMX g g'.fpu :=
        ⟨fun _ _ _ h => h, fun _ _ h => h, fun _ _ h => h⟩
      exact (hbeside.readMemory ex inst).leads

theorem carryOut_notesMMX (nextPC : Word) :
    Leads NotesMMX (ex.carryOut inst nextPC) fun _ => NotesMMX := by
  refine .getGlobals fun g hg => ?_
  cases he : ex.emulate inst nextPC g with
  | emulated pc g' =>
      have hsame : g'.mmxNotes = g.mmxNotes :=
        ex.emulate_unaffected (fun _ _ _ => rfl) (fun _ _ _ => rfl) (fun _ _ => rfl) he
      exact .bind (.onGlobals fun _ _ => hg.congr hsame) fun _ => .pure fun _ h => h
  | unsupported status => exact .throw status
  | notEmulated pc =>
      refine .bind (Q := fun _ => NotesMMX) ?_ fun _ => .pure fun _ h => h
      refine (runNative_unseen ex unseen_mmxNotes (fun w => NotesMMX w.globals)
        (fun w w' _ _ hsame h => h.congr hsame) inst).conseq (fun w hw => ?_) (fun _ _ h => h)
        fun _ _ _ => trivial
      rw [hw]
      exact hg

end Executor

/-! ## reports -/

/-- An FPU state was written that has the value in a slot. -/
def InFPU (events : List Event) (i : Fin 8) (val : Word) : Prop :=
  ∃ fpu, Event.writeFPU fpu true ∈ events ∧ val = mmxSlot fpu i

/-- Every MMX register that was written is a slot of an FPU state that was. -/
def MMXInFPU (events : List Event) : Prop :=
  ∀ i size data ok, Event.writeReg (.reg (.mmx i)) size data ok ∈ events →
    InFPU events i (data.setWidth 64)

theorem InFPU.append {events : List Event} {i : Fin 8} {val : Word} (h : InFPU events i val)
    (events' : List Event) : InFPU (events ++ events') i val :=
  h.imp fun _ hfpu => ⟨List.mem_append_left _ hfpu.1, hfpu.2⟩

/-- What was written since `t` agrees. -/
def ToldAgreeing (t : List Event) (w : World σ) : Prop :=
  ∃ events, w.trace = t ++ events ∧ MMXInFPU events

/-- What was written since `t` agrees, and so do the MMX registers in use. -/
def Agreeing (t : List Event) (w : World σ) : Prop :=
  ∃ events, w.trace = t ++ events ∧ MMXInFPU events ∧
    ∀ i, w.globals.usedRegs (.mmx i) = true → InFPU events i ((w.globals.regs (.mmx i)).setWidth 64)

section

variable {t : List Event} {w : World σ}

theorem Agreeing.told (h : Agreeing t w) : ToldAgreeing t w := h.imp fun _ h => ⟨h.1, h.2.1⟩

theorem toldAgreeing_of_onlyMem (h : Sat (OnlyMemWritten t) w) : ToldAgreeing t w := by
  obtain ⟨events, htrace, hmem⟩ := h
  exact ⟨events, htrace, fun i size data ok he => by cases hmem _ he⟩

theorem toldAgreeing_of_noWrite (h : Sat (NoWrite t) w) : ToldAgreeing t w := by
  refine toldAgreeing_of_onlyMem (Since.mono (fun e he => ?_) h)
  cases e <;> simp_all [Event.isWrite, Event.isStateWrite]

/-- A callback that writes an MMX register in use, or none. -/
theorem Agreeing.called (h : Agreeing t w) {env : σ} {e : Event}
    (he : ∀ i size data ok, e = .writeReg (.reg (.mmx i)) size data ok →
      w.globals.usedRegs (.mmx i) = true ∧
        data.setWidth 64 = (w.globals.regs (.mmx i)).setWidth 64) :
    Agreeing t (w.called env e) := by
  obtain ⟨events, htrace, htold, hregs⟩ := h
  refine ⟨events ++ [e], ?_, fun i size data ok hmem => ?_, fun i hi => (hregs i hi).append _⟩
  · change w.trace ++ [e] = _
    rw [htrace, List.append_assoc]
  · obtain hmem | hmem := List.mem_append.mp hmem
    · exact (htold i size data ok hmem).append _
    · obtain ⟨hused, hdata⟩ := he i size data ok (List.mem_singleton.mp hmem).symm
      rw [hdata]
      exact (hregs i hused).append _

/-- A change of the globals that leaves the MMX registers in use alone. -/
theorem Agreeing.withGlobals (h : Agreeing t w) {f : Globals → Globals}
    (hused : ∀ i, (f w.globals).usedRegs (.mmx i) = true → w.globals.usedRegs (.mmx i) = true)
    (hregs : ∀ i, (f w.globals).regs (.mmx i) = w.globals.regs (.mmx i)) :
    Agreeing t (w.withGlobals f) := by
  obtain ⟨events, htrace, htold, hagree⟩ := h
  refine ⟨events, htrace, htold, fun i hi => ?_⟩
  change InFPU events i (((f w.globals).regs (.mmx i)).setWidth 64)
  rw [hregs]
  exact hagree i (hused i hi)

end

section

variable (ex : Executor σ) (t : List Event)

theorem writeMemory_notesMMX : Leads NotesMMX ex.writeMemory fun _ => NotesMMX := by
  have hcell (i : Fin 2) : Leads NotesMMX (ex.writeCell i) fun _ => NotesMMX := by
    refine .readGlobals fun g => .ite (fun _ => .pure fun _ h => h) fun _ => ?_
    exact .bind (.aside fun _ => rfl) fun ok => .check _ _
  exact .bind (hcell 0) fun _ => hcell 1

/-- `WriteFPU`, and then the MMX registers of the state that was written. -/
theorem writeFPU_agreeing :
    Triple (fun w => Sat (OnlyMemWritten t) w ∧ NotesMMX w.globals)
      (do
        ex.writeFPUState
        onGlobals (Executor.whenMMX Executor.copyMMXStateFromFPU))
      (fun _ => Agreeing t) fun _ => ToldAgreeing t := by
  refine Triple.bind (Q := fun _ w => NotesMMX w.globals ∧ ∃ events, w.trace = t ++ events ∧
    MMXInFPU events ∧ (w.globals.usesFPU = true → .writeFPU w.globals.fpu true ∈ events)) ?_ fun _ => ?_
  · refine triple_getGlobals fun w hw => ?_
    obtain ⟨events, htrace, htold⟩ := toldAgreeing_of_onlyMem hw.1
    refine Triple.ite (fun hfpu => ?_) fun hfpu => Triple.pure ?_
    · have hcalled (ok : Bool) : MMXInFPU (events ++ [.writeFPU w.globals.fpu ok]) := by
        intro i size data ok' hmem
        obtain hmem | hmem := List.mem_append.mp hmem
        · exact (htold i size data ok' hmem).append _
        · cases List.mem_singleton.mp hmem
      refine Triple.bind (Q := fun ok v => v.globals = w.globals ∧
        v.trace = t ++ (events ++ [.writeFPU w.globals.fpu ok])) ?_ fun ok => ?_
      · rintro v rfl
        refine ⟨rfl, ?_⟩
        change v.trace ++ _ = _
        rw [htrace, List.append_assoc]
      · cases ok with
        | true =>
            refine Triple.pure fun v hv => ⟨hv.1 ▸ hw.2, _, hv.2, hcalled true, fun _ => ?_⟩
            rw [hv.1]
            exact List.mem_append_right _ (List.mem_singleton_self _)
        | false => exact Triple.throw fun v hv => ⟨_, hv.2, hcalled false⟩
    · rintro v rfl
      exact ⟨hw.2, events, htrace, htold, fun h => absurd h hfpu⟩
  · refine Triple.modify fun w hw => ?_
    obtain ⟨hnotes, events, htrace, htold, hfpu⟩ := hw
    refine ⟨events, htrace, htold, fun i hi => ?_⟩
    have hused : (Executor.whenMMX Executor.copyMMXStateFromFPU w.globals).usedRegs =
        w.globals.usedRegs := congrArg Prod.fst
      (whenMMX_unseen (copyMMXStateFromFPU_unseen unseen_mmxNotes) w.globals)
    change (Executor.whenMMX Executor.copyMMXStateFromFPU w.globals).usedRegs (.mmx i) = true at hi
    rw [hused] at hi
    obtain ⟨huses, hmmx⟩ := hnotes i hi
    refine ⟨w.globals.fpu, hfpu huses, ?_⟩
    change ((Executor.whenMMX Executor.copyMMXStateFromFPU w.globals).regs (.mmx i)).setWidth 64 = _
    rw [Executor.whenMMX, if_pos hmmx, Executor.copyMMXStateFromFPU_reg _ hi]

theorem writeOperands_agreeing :
    Triple (fun w => Sat (NoWrite t) w ∧ NotesMMX w.globals) ex.writeOperands (fun _ => Agreeing t)
      fun _ => ToldAgreeing t := by
  have hnone : ∀ e : Event, e.isWrite = false → e.isStateWrite = false := by
    intro e he
    cases e <;> simp_all [Event.isWrite, Event.isStateWrite]
  have hmemory := ((writeMemory_onlyMem ex t).and (writeMemory_notesMMX ex)).conseq
    (fun w (hw : Sat (NoWrite t) w ∧ NotesMMX w.globals) => ⟨Since.mono hnone hw.1, hw.2⟩)
    (fun _ _ h => h) fun _ _ h => toldAgreeing_of_onlyMem h.1.2
  exact hmemory.bind fun _ => writeFPU_agreeing ex t

/-! ### the end of an instruction -/

theorem writeFlag_agreeing (f : Flag) :
    Triple (Agreeing t) (ex.writeFlag f) (fun _ => Agreeing t) fun _ => ToldAgreeing t := by
  refine triple_readGlobals fun g => Triple.ite (fun _ => ?_) fun _ => Triple.pure fun _ h => h
  refine Triple.bind (Q := fun _ => Agreeing t) (fun w hw => ?_) fun ok => ?_
  · exact hw.called fun i size data ok he => by cases he
  · cases ok with
    | true => exact Triple.pure fun _ h => h
    | false => exact Triple.throw fun _ h => h.told

theorem writeFlags_agreeing :
    Triple (Agreeing t) ex.writeFlags (fun _ => Agreeing t) fun _ => ToldAgreeing t := by
  refine triple_readGlobals fun g => Triple.ite (fun _ => ?_) fun _ => Triple.pure fun _ h => h
  refine Triple.bind (Q := fun _ => Agreeing t) (Triple.modify fun w hw => ?_) fun _ => ?_
  · refine hw.withGlobals (fun i hi => ?_) fun i => rfl
    change Function.update w.globals.usedRegs (ex.widestRegister .eflags) false (.mmx i) = true at hi
    rw [Function.update_apply] at hi
    split at hi
    · cases hi
    · exact hi
  · refine Triple.bind (Triple.forM fun f _ => writeFlag_agreeing ex t f) fun _ => ?_
    exact Triple.modify fun w hw => hw.withGlobals (fun _ h => h) fun _ => rfl

/-- A register in use, or none of the FPU. -/
theorem writeRegister_agreeing (reg : Reg) :
    Triple (fun w => Agreeing t w ∧ (reg.isMMX = true → w.globals.usedRegs reg = true))
      (ex.writeRegister reg) (fun _ => Agreeing t) fun _ => ToldAgreeing t := by
  refine triple_getGlobals fun w hw => ?_
  refine Triple.bind (Q := fun _ => Agreeing t) ?_ fun ok => ?_
  · rintro v rfl
    refine hw.1.called fun i size data ok he => ?_
    cases he
    exact ⟨hw.2 rfl, Bits.setWidth_low le_rfl _⟩
  · cases ok with
    | true => exact Triple.pure fun _ h => h
    | false => exact Triple.throw fun _ h => h.told

theorem writeRegisters_agreeing :
    Triple (Agreeing t) ex.writeRegisters (fun _ => Agreeing t) fun _ => ToldAgreeing t := by
  refine Triple.bind (Q := fun _ => Agreeing t) (Triple.modify fun w hw => ?_) fun _ => ?_
  · refine hw.withGlobals (fun i hi => ?_) fun i => ex.regs_dropAlias_of_ne fun _ => Reg.noConfusion
    have hused : (ex.dropAlias w.globals).usedRegs = w.globals.usedRegs :=
      congrArg Prod.fst (ex.dropAlias_marks w.globals)
    rwa [hused] at hi
  · refine Triple.bind (Q := fun _ => Agreeing t) (Triple.forM fun reg _ => ?_) fun _ => ?_
    · refine triple_getGlobals fun w hw => ?_
      refine Triple.ite (fun hmod => ?_) fun _ => Triple.pure fun v hv => hv ▸ hw
      refine (writeRegister_agreeing ex t reg).pre fun v hv => ⟨hv ▸ hw, fun _ => ?_⟩
      rw [hv]
      simp only [Bool.and_eq_true] at hmod
      exact hmod.1.1
    · refine triple_getGlobals fun w hw => ?_
      cases hpc : ex.usedPC w.globals with
      | none => exact Triple.pure fun v hv => hv ▸ hw
      | some reg =>
          refine (writeRegister_agreeing ex t reg).pre fun v hv => ⟨hv ▸ hw, fun _ => ?_⟩
          rw [hv]
          exact (used_of_usedPC hpc).1

theorem commit_agreeing (nextPC : Word) :
    Triple (Agreeing t) (ex.commit nextPC) (fun _ => Agreeing t) fun _ => ToldAgreeing t := by
  refine (writeFlags_agreeing ex t).bind fun _ => ?_
  refine Triple.bind (Q := fun _ => Agreeing t) (Triple.modify fun w hw => ?_) fun _ => ?_
  · refine hw.withGlobals (fun _ h => h) fun i => ?_
    rw [Executor.setNextPC, Globals.regs_setReg, Function.update_of_ne Reg.noConfusion]
  · exact writeRegisters_agreeing ex t

/-! ### whole runs -/

/-- What XED promises about a `NOP`: it has no MMX register to write. -/
def NopsSpareMMX : Prop :=
  ∀ bytes inst, ex.xed.decode ex.addrSize bytes = some inst → Executor.isNop inst = true →
    ∀ op ∈ inst.operands, ∀ r, op.name = .reg r → (inst.reg r).isMMX = false

/-- What an instruction that is no `NOP` does before its flags and registers are written. -/
theorem perform_agreeing {inst : Inst} (hnop : Executor.isNop inst = false) :
    Triple (fun w => Sat (NoWrite t) w ∧ NotesMMX w.globals) (ex.perform inst) (fun _ => Agreeing t)
      fun _ => ToldAgreeing t := by
  have htold (w : World σ) (h : Sat (NoWrite t) w ∧ True) : ToldAgreeing t w :=
    toldAgreeing_of_noWrite h.1
  have hoperands := (((readInvariant_noWrite ex t).readOperands inst).and
    (ex.readOperands_notesMMX inst).leads).conseq
    (fun _ h => h) (fun _ _ h => h) fun _ w h => htold w h
  have hcarry (pc : Word) := ((carryOut_keeps ex (I := NoWrite t) inst pc).and
    (ex.carryOut_notesMMX inst pc)).conseq
    (fun _ h => h) (fun _ _ h => h) fun _ w h => htold w h
  refine triple_readGlobals fun g => ?_
  rw [hnop, if_neg Bool.false_ne_true]
  refine hoperands.bind fun _ => (hcarry _).bind fun nextPC => ?_
  exact (writeOperands_agreeing ex t).bind fun _ => Triple.pure fun _ h => h

/-- An instruction that is no `NOP`, from its registers on. -/
theorem rest_agreeing {inst : Inst} (hnop : Executor.isNop inst = false) :
    Triple (fun w => Sat (NoWrite t) w ∧ NotesMMX w.globals)
      (do
        ex.readState inst
        let nextPC ← ex.perform inst
        ex.commit nextPC)
      (fun _ => ToldAgreeing t) fun _ => ToldAgreeing t := by
  have hstate := (((readInvariant_noWrite ex t).readState inst).and (ex.readState_notesMMX inst)).conseq
    (fun _ h => h) (fun _ _ h => h) fun _ w h => toldAgreeing_of_noWrite h.1
  refine hstate.bind fun _ => (perform_agreeing ex t hnop).bind fun nextPC => ?_
  exact (commit_agreeing ex t nextPC).post fun _ _ h => h.told

/-- A `NOP` writes no MMX register. -/
theorem KeepsDiscipline.told {w w' : World σ} {inst : Inst} {w₁ : World σ}
    (h : KeepsDiscipline ex w w') (hfetch : ex.fetch w = .ok inst w₁)
    (hspare : ∀ op ∈ inst.operands, ∀ r, op.name = .reg r → (inst.reg r).isMMX = false) :
    ToldAgreeing w.trace w' := by
  obtain ⟨events, htrace, hd⟩ := h
  refine ⟨events, htrace, fun i size data ok hmem => ?_⟩
  have hwritten : RegName.reg (.mmx i) ∈ writtenNames events :=
    List.mem_filterMap.mpr ⟨_, hmem, rfl⟩
  have hpc : Reg.mmx i ≠ ex.pcReg := by
    rcases ex.pcReg_cases with h | h <;> rw [h.2] <;> exact Reg.noConfusion
  obtain ⟨inst', w₁', hfetch', hback⟩ := hd.written_back _ hwritten hpc
  cases hfetch.symm.trans hfetch'
  generalize hreg : Reg.mmx i = reg at hback
  cases hback with
  | operand hop hw hname =>
      have hmmx := hspare _ hop _ hname
      rw [ex.eq_of_widestRegister_mmx hreg.symm] at hmmx
      cases hmmx
  | stack h => cases ex.eq_of_widestRegister_mmx hreg.symm
  | @pointer op _ hform hr =>
      have hpointer : reg = ex.srcReg ∨ reg = ex.destReg := by
        cases op <;> simp only [Executor.pointers, List.mem_cons, List.not_mem_nil, or_false] at hr <;>
          simp [hr]
      obtain rfl | rfl := hpointer <;> cases ex.eq_of_widestRegister_mmx hreg.symm

/-- The log of an instruction whose MMX registers agree with its FPU. -/
def mmxInFPU : Language Event := {events | MMXInFPU events}

theorem ToldAgreeing.extends {w w' : World σ} (h : ToldAgreeing w.trace w') :
    Extends World.trace mmxInFPU w w' :=
  h.imp fun _ h => ⟨h.2, h.1⟩

variable {ex}

theorem executeInstruction_agreeing (hspare : NopsSpareMMX ex) (w : World σ) :
    Meets (fun _ w' => ToldAgreeing w.trace w') (fun _ w' => ToldAgreeing w.trace w')
      (ex.executeInstruction w) := by
  have hfetch := ((readInvariant_noWrite ex w.trace).fetch.and ex.fetch_notesMMX) w
    ⟨Since.refl _ w, trivial⟩
  have hdisciplined := executeInstruction_disciplined ex w
  have hdecoded := ex.fetch_gathered w trivial
  cases hf : ex.fetch w with
  | error status w₁ =>
      rw [hf] at hfetch
      rw [Executor.executeInstruction, run_bind_error hf]
      exact toldAgreeing_of_noWrite hfetch.1
  | ok inst w₁ =>
      rw [hf] at hfetch hdecoded
      cases hnop : Executor.isNop inst with
      | false =>
          rw [Executor.executeInstruction, run_bind_ok hf]
          exact rest_agreeing ex w.trace hnop w₁ hfetch
      | true =>
          obtain ⟨-, bytes, hdecode⟩ := hdecoded
          have hnone := hspare bytes inst hdecode hnop
          cases hr : ex.executeInstruction w with
          | ok u w' =>
              rw [hr] at hdisciplined
              exact hdisciplined.1.told ex hf hnone
          | error status w' =>
              rw [hr] at hdisciplined
              exact hdisciplined.told ex hf hnone

/-- The instruction at hand, unless it is a `NOP`, is carried out on an image that holds the MMX
registers that it uses as they were read, and the image it writes holds them as they are after it. -/
def CarriesMMX (ex : Executor σ) (w : World σ) : Prop :=
  ∀ inst w₁ w₂, ex.fetch w = .ok inst w₁ → ex.readState inst w₁ = .ok () w₂ →
    Executor.isNop inst = false →
      (∀ w₃, ex.readOperands inst w₂ = .ok () w₃ → HoldsMMX w₂.globals w₃.globals.fpu) ∧
      ∀ nextPC w₃, ex.perform inst w₂ = .ok nextPC w₃ → Agreeing w.trace w₃

theorem carriesMMX (w : World σ) : CarriesMMX ex w := by
  intro inst w₁ w₂ hfetch hstate hnop
  have hread := ((readInvariant_noWrite ex w.trace).fetch.and ex.fetch_notesMMX) w
    ⟨Since.refl _ w, trivial⟩
  rw [hfetch] at hread
  replace hread := (((readInvariant_noWrite ex w.trace).readState inst).and
    (ex.readState_notesMMX inst)) w₁ hread
  rw [hstate] at hread
  constructor
  · intro w₃ hrun
    have hholds := ex.readOperands_holdsMMX inst hread.2 w₂ rfl
    rw [hrun] at hholds
    exact hholds
  · intro nextPC w₃ hrun
    have hagree := perform_agreeing ex w.trace hnop w₂ hread
    rw [hrun] at hagree
    exact hagree

/-- **MMX registers and the FPU agree**: every instruction is carried out on an image that holds the
MMX registers in their slots, and writes one that does; and in every instruction of a call, each
MMX register that is written has the value of its slot in an image that the instruction has
written. -/
theorem execute_mmxInFPU (hspare : NopsSpareMMX ex) (n : Nat) (w : World σ) :
    (∀ w', CarriesMMX ex w') ∧
      Meets (fun _ w' => Extends World.trace (mmxInFPU ^ n) w w')
        (fun _ w' => Extends World.trace (fewer n mmxInFPU mmxInFPU) w w') (ex.execute n w) := by
  refine ⟨carriesMMX, ?_⟩
  refine ex.execute_makes (E := fun _ => mmxInFPU) (fun w _ => ?_)
    (fun i size data ok hmem => by cases hmem) n w
  have h := executeInstruction_agreeing hspare w
  cases hr : ex.executeInstruction w with
  | ok u w' => rw [hr] at h; exact ⟨trivial, h.extends⟩
  | error status w' => rw [hr] at h; exact h.extends

end

/-! ### a sample -/

/-- `MOVQ MM0, RAX`. -/
def movqMM0 : Inst :=
  .scalar (.other 0) 4 64 [⟨.reg .reg0, false, true, false, .explicit⟩]
    (fun r => if r = .reg0 then .mmx 0 else .invalid) (fun _ => .none) 0

/-- A machine whose processor puts a five into the first register of the FPU. -/
def mmxMachine : FlatMachine where
  xed := Xed.ofDecoder (fun _ _ => some movqMM0) fun _ => true
  cpu := ⟨fun _ s => (.none, { s with fpu := Bits.put (Executor.mmxOffset 0) 64 s.fpu 5#64 }), 0, 0⟩
  addrSize := .x64
  hasAVX := false
  hasAVX512 := false

/-- The first MMX register after a run. -/
def mm0After (r : EStateM.Result ExecutorStatus (World (Flat mmxMachine.width)) Unit) :
    Option (BitVec 64) :=
  match r with
  | .ok _ w => some ((w.env.regs (.mmx 0)).setWidth 64)
  | .error _ _ => none

theorem execute_mmxInFPU_movqMM0 :
    mm0After (mmxMachine.executor.execute 1 mmxMachine.zeroStart) = some 5 ∧
      CarriesMMX mmxMachine.executor mmxMachine.zeroStart ∧
        Meets (fun _ w' => Extends World.trace (mmxInFPU ^ 1) mmxMachine.zeroStart w')
          (fun _ w' => Extends World.trace (fewer 1 mmxInFPU mmxInFPU) mmxMachine.zeroStart w')
          (mmxMachine.executor.execute 1 mmxMachine.zeroStart) := by
  have hafter : mm0After (mmxMachine.executor.execute 1 mmxMachine.zeroStart) = some 5 := by
    decide +kernel
  have hspare : NopsSpareMMX mmxMachine.executor := by
    intro bytes inst hdecode hnop
    cases Option.some.inj hdecode
    cases hnop
  generalize mmxMachine.zeroStart = w at hafter ⊢
  generalize mmxMachine.executor = ex at hafter hspare ⊢
  obtain ⟨hcarries, hmeets⟩ := execute_mmxInFPU hspare 1 w
  exact ⟨hafter, hcarries w, hmeets⟩

end Microx
