import Microx.Executor.Stepping
import Microx.Executor.TwoRuns

/-!
# Microx.Executor.WrittenFlags

The flags an instruction starts with, and the flags it writes.

`ReadFlags` lays the flags of the environment over those of the executor, all in
the slot of `RFLAGS`, which then goes through the reading half as it is
(`FlagsHeld`).  Which flags are written is noted at the same time, and nothing
in between forgets it (`FlagsNoted`).
-/

namespace Microx

open Hoare

variable {σ α β : Type}

/-! ## masks -/

/-- The flags an instruction is to start with. -/
def RFlagsInfo.enters (rf : RFlagsInfo) (f : Flag) : Bool :=
  rf.read.getLsbD f.bit || rf.mayWrite && rf.written.getLsbD f.bit

theorem get_writeMask (rf : RFlagsInfo) (f : Flag) :
    f.get (Executor.writeMask rf) = rf.written.getLsbD f.bit := by
  have hbit := f.bit_lt
  simp [Executor.writeMask, Flag.get, show f.bit < 64 by omega, show f.bit < 16 by omega]

theorem get_readMask (rf : RFlagsInfo) (f : Flag) :
    f.get (Executor.readMask rf) = rf.enters f := by
  have hbit := f.bit_lt
  have h64 : f.bit < 64 := by omega
  have h16 : f.bit < 16 := by omega
  unfold Executor.readMask RFlagsInfo.enters
  split <;> simp [Flag.get, *]

/-- What XED reports of the forms of `BT`, `BTS`, `BTC` and `BTR` with a memory operand: they read
no flag, and they leave none alone that they write. -/
def Xed.BitOpsReadNoFlags (xed : Xed) : Prop :=
  ∀ addrSize bytes inst rf, xed.decode addrSize bytes = some inst → inst.rflags = some rf →
    inst.NoBitOp ∨ rf.read = 0 ∧ rf.mayWrite = false

/-! ## what the environment says -/

namespace Executor

variable (ex : Executor σ)

/-- The answers of the environment to the questions of `ReadFlags`, in the order it asks them. -/
def flagAnswers (mask : Word) : List Flag → Data → σ → Flag → Bool
  | [], _, _ => fun _ => false
  | f :: fs, flagVal, s =>
      if f.get mask then
        let r := ex.readReg (.flag f) 1 .conditionCode flagVal s
        Function.update (flagAnswers mask fs (Bits.put 0 8 r.2.1 0#8) r.2.2) f (r.2.1.getLsbD 0)
      else flagAnswers mask fs flagVal s

/-- The environment's flags for an instruction. -/
def envFlags (rf : RFlagsInfo) (s : σ) : Flag → Bool := ex.flagAnswers (readMask rf) Flag.all 0 s

theorem readFlagLoop_answers (mask : Word) (fs : List Flag) (hfs : fs.Nodup) :
    ∀ (flagVal : Data) (aflag flags : Word) (w w' : World σ),
      ex.readFlagLoop mask fs flagVal aflag w = .ok flags w' → w'.globals = w.globals ∧
        ∀ f : Flag, f.get flags =
          if f ∈ fs ∧ f.get mask = true then ex.flagAnswers mask fs flagVal w.env f
          else f.get aflag := by
  induction fs with
  | nil =>
      intro flagVal aflag flags w w' h
      cases h
      simp
  | cons f fs ih =>
      intro flagVal aflag flags w w' h
      obtain ⟨hf, hnodup⟩ := List.nodup_cons.mp hfs
      unfold readFlagLoop at h
      unfold flagAnswers
      cases hmask : f.get mask with
      | false =>
          rw [hmask, if_neg (by decide)] at h
          obtain ⟨hglobals, hget⟩ := ih hnodup _ _ _ _ _ h
          refine ⟨hglobals, fun f' => ?_⟩
          by_cases hf' : f' = f
          · subst hf'
            simp [hget, hf, hmask]
          · simp [hget, hf']
      | true =>
          rw [hmask, if_pos rfl] at h
          obtain ⟨r, w₁, hcall, h⟩ := bind_eq_ok.mp h
          cases hcall
          cases hok : (ex.readReg (.flag f) 1 .conditionCode flagVal w.env).1 with
          | false =>
              rw [if_neg (by simp [hok])] at h
              cases h
          | true =>
              rw [if_pos hok] at h
              obtain ⟨hglobals, hget⟩ := ih hnodup _ _ _ _ _ h
              refine ⟨hglobals, fun f' => ?_⟩
              by_cases hf' : f' = f
              · subst hf'
                simp [hget, hf, hmask, Flag.get_set]
              · simp [hget, hf', Flag.get_set, World.called]

end Executor

/-! ## what is noted -/

/-- What `ReadFlags` notes: these flags are to be written, and the flags register is in use. -/
structure FlagsNoted (ex : Executor σ) (mask : Word) (g : Globals) : Prop where
  writeBack : g.writeBackFlags = mask
  modified : mask ≠ 0 → g.modifiedRegs ex.flagsReg = true
  used : g.usedRegs ex.flagsReg = true

/-- Next to that, the slot of `RFLAGS` holds `flags`; `apart` says that no bit operation gets at
it. -/
structure FlagsHeld (ex : Executor σ) (apart : Prop) (mask : Word) (flags : Data) (g : Globals) :
    Prop where
  noted : FlagsNoted ex mask g
  slot : apart → g.regs .rflags = flags

/-- The part of the globals with the notes. -/
def Globals.notes (g : Globals) : Word × (Reg → Bool) × (Reg → Bool) := (g.writeBackFlags, g.marks)

/-- Running an instruction changes no note. -/
theorem unseen_notes : Executor.Unseen Globals.notes :=
  ⟨fun _ _ _ => rfl, fun _ _ => rfl, fun _ _ => rfl, fun _ _ => rfl⟩

theorem FlagsNoted.congr {ex : Executor σ} {mask : Word} {g g' : Globals} (h : FlagsNoted ex mask g)
    (hnotes : g'.notes = g.notes) : FlagsNoted ex mask g' := by
  obtain ⟨hmask, hused, hmodified⟩ :
      g'.writeBackFlags = g.writeBackFlags ∧ g'.usedRegs = g.usedRegs ∧
        g'.modifiedRegs = g.modifiedRegs := by
    simpa [Globals.notes, Globals.marks] using hnotes
  exact ⟨hmask.trans h.writeBack, hmodified ▸ h.modified, hused ▸ h.used⟩

theorem FlagsNoted.setModified {ex : Executor σ} {mask : Word} {g : Globals}
    (h : FlagsNoted ex mask g) (r : Reg) : FlagsNoted ex mask (g.setModified r) := by
  refine ⟨h.writeBack, fun hne => ?_, h.used⟩
  simp [Globals.setModified, Function.update_apply, h.modified hne]

theorem FlagsHeld.congr {ex : Executor σ} {apart : Prop} {mask : Word} {flags : Data}
    {g g' : Globals} (h : FlagsHeld ex apart mask flags g) (hnotes : g'.notes = g.notes)
    (hregs : apart → g'.regs .rflags = g.regs .rflags) :
    FlagsHeld ex apart mask flags g' :=
  ⟨h.noted.congr hnotes, fun hop => (hregs hop).trans (h.slot hop)⟩

/-- A block that keeps an assertion on the globals if it returns. -/
abbrev Maintains (P : Globals → Prop) (m : ExecM σ α) : Prop :=
  Triple (fun w => P w.globals) m (fun _ w => P w.globals) fun _ _ => True

namespace Maintains

variable {P : Globals → Prop}

theorem bind {m : ExecM σ α} {f : α → ExecM σ β} (hm : Maintains P m)
    (hf : ∀ a, Maintains P (f a)) : Maintains P (m >>= f) :=
  Triple.bind hm hf

theorem pure (a : α) : Maintains P (Pure.pure a : ExecM σ α) := Triple.pure fun _ h => h

theorem check (ok : Bool) (status : ExecutorStatus) :
    Maintains P (Executor.check ok status : ExecM σ Unit) := by
  cases ok with
  | true => exact pure _
  | false => exact Triple.throw fun _ _ => trivial

theorem onGlobals {f : Globals → Globals} (h : ∀ g, P g → P (f g)) :
    Maintains P (Microx.onGlobals f : ExecM σ Unit) :=
  Triple.update fun w hw => h w.globals hw

theorem getGlobals {f : Globals → ExecM σ β} (h : ∀ g, Maintains P (f g)) :
    Maintains P (Microx.getGlobals >>= f) :=
  triple_readGlobals h

theorem forM {l : List α} {f : α → ExecM σ PUnit} (h : ∀ a, Maintains P (f a)) :
    Maintains P (l.forM f) :=
  Triple.forM fun a _ => h a

end Maintains

/-! ### reading -/

section

variable (ex : Executor σ)

/-- The slot of `RFLAGS` belongs to the flags register. -/
theorem widestRegister_eq_flagsReg {r : Reg} (h : r.largestEnclosing = .rflags) :
    ex.widestRegister r = ex.flagsReg := by
  revert h
  unfold Executor.flagsReg Executor.widestRegister
  cases ex.addrSize <;> cases ex.hasAVX <;> cases ex.hasAVX512 <;> cases r <;>
    simp [Reg.largestEnclosing, Reg.largestEnclosing32, Reg.withoutAVX, Reg.withoutAVX512]

/-- `ReadFlags` takes the flags of the environment, and notes which to write. -/
theorem readFlags_held {inst : Inst} {rf : RFlagsInfo} (hrf : inst.rflags = some rf)
    {w w' : World σ} (h : ex.readFlags inst w = .ok () w') :
    FlagsNoted ex (Executor.writeMask rf) w'.globals ∧
      ∀ f, rf.enters f = true → f.get w'.globals.aflag = ex.envFlags rf w.env f := by
  unfold Executor.readFlags at h
  obtain ⟨_, w₁, hclear, h⟩ := bind_eq_ok.mp h
  cases hclear
  simp only [hrf] at h
  obtain ⟨_, w₂, hnote, h⟩ := bind_eq_ok.mp h
  obtain ⟨host, w₃, hpush, h⟩ := bind_eq_ok.mp h
  obtain ⟨flags, w₄, hloop, hset⟩ := bind_eq_ok.mp h
  cases hnote
  cases hpush
  cases hset
  obtain ⟨hglobals, hget⟩ := ex.readFlagLoop_answers _ _ Flag.nodup_all _ _ _ _ _ hloop
  refine ⟨?_, fun f hf => ?_⟩
  · have hmask := ex.noteFlags_writeBackFlags rf { w.globals with writeBackFlags := 0 }
    have hused := ex.noteFlags_usedRegs rf { w.globals with writeBackFlags := 0 }
    constructor
    · exact (congrArg Globals.writeBackFlags hglobals).trans hmask
    · intro hne
      have hmodified := ex.noteFlags_modifiedRegs rf { w.globals with writeBackFlags := 0 } hne
      exact (congrArg (Globals.modifiedRegs · ex.flagsReg) hglobals).trans hmodified
    · refine (congrArg (Globals.usedRegs · ex.flagsReg) hglobals).trans ?_
      exact (congrFun hused _).trans (Function.update_self _ _ _)
  · have hflag := hget f
    rw [if_pos ⟨f.mem_all, by rw [get_readMask, hf]⟩] at hflag
    rw [World.withGlobals, FlatMachine.aflag_setAflag]
    exact hflag

variable {inst : Inst} {apart : Prop} {mask : Word} {flags : Data}

/-- A register that was not asked for is not in the slot of the flags. -/
theorem requestRegister_held (reg : Reg) (hint : RegRequestHint)
    (hslot : reg.largestEnclosing ≠ .rflags) :
    Maintains (FlagsHeld ex apart mask flags) (ex.requestRegister reg (ex.widestRegister reg) hint) := by
  unfold Executor.requestRegister
  have hset (data : Data) {g : Globals} (h : FlagsHeld ex apart mask flags g) :
      FlagsHeld ex apart mask flags (g.setReg reg.largestEnclosing data) := by
    refine h.congr rfl fun _ => ?_
    rw [Globals.regs_setReg, Function.update_of_ne (Ne.symm hslot)]
  refine .bind (.onGlobals fun g h => hset _ h) fun _ => .getGlobals fun g => ?_
  refine .bind (fun _ h => h) fun r => .bind (.onGlobals fun g h => ?_) fun _ => .check _ _
  have hheld := hset r.2 h
  refine ⟨⟨hheld.noted.writeBack, hheld.noted.modified, ?_⟩, hheld.slot⟩
  simp [Globals.setUsed, Globals.setStore, Function.update_apply, hheld.noted.used]

theorem readRegister_held (reg : Reg) (hint : RegRequestHint) :
    Maintains (FlagsHeld ex apart mask flags) (ex.readRegister reg hint) := by
  have hwidest (reg : Reg) (hint : RegRequestHint) :
      Maintains (FlagsHeld ex apart mask flags) (ex.readWidest reg hint) := by
    unfold Executor.readWidest
    refine .bind (.onGlobals fun g h => ?_) fun _ => triple_getGlobals fun w hw => ?_
    · unfold Globals.noteHint
      split
      · exact ⟨h.noted.setModified _, h.slot⟩
      · exact h
    · split
      · exact Triple.pure fun v hv => hv ▸ hw
      case isFalse hused =>
        have hslot : reg.largestEnclosing ≠ .rflags := by
          intro heq
          rw [widestRegister_eq_flagsReg ex heq] at hused
          exact hused hw.noted.used
        exact (requestRegister_held ex reg hint hslot).pre fun v hv => hv ▸ hw
  unfold Executor.readRegister
  split
  · exact .pure _
  · split
    · exact .onGlobals fun g h => h.congr rfl fun _ => rfl
    · refine .bind (.onGlobals fun g h => ?_) fun _ => ?_
      · unfold Globals.noteClass
        split
        · exact h.congr rfl fun _ => rfl
        · exact h
      · split
        · exact hwidest _ _
        · exact hwidest _ _

theorem readRegisters_held :
    Maintains (FlagsHeld ex apart mask flags) (ex.readRegisters inst) := by
  have hmem (ops : List Operand) : ∀ i, Maintains (FlagsHeld ex apart mask flags)
      (ex.readMemRegisters inst i ops) := by
    induction ops with
    | nil => exact fun _ => .pure _
    | cons op ops ih =>
        intro i
        unfold Executor.readMemRegisters
        split
        · refine .bind (.bind (readRegister_held ex _ _) fun _ => readRegister_held ex _ _) fun _ => ?_
          exact ih (i + 1)
        · exact ih i
  have hop (hint : RegRequestHint) (op : Operand) :
      Maintains (FlagsHeld ex apart mask flags) (ex.readOperandRegister inst hint op) := by
    unfold Executor.readOperandRegister
    split
    · exact readRegister_held ex _ _
    · exact .pure _
  exact .bind (hmem _ 0) fun _ => .bind (.forM fun op => hop _ op) fun _ => .forM fun op => hop _ op

theorem readOperands_held (hop : apart → inst.NoBitOp) :
    Maintains (FlagsHeld ex apart mask flags) (ex.readOperands inst) := by
  have hsame {f : Globals → Globals} (hnotes : ∀ g, (f g).notes = g.notes)
      (hregs : ∀ g, (f g).regs = g.regs) :
      Maintains (FlagsHeld ex apart mask flags) (onGlobals f : ExecM σ Unit) :=
    .onGlobals fun g h => h.congr (hnotes g) fun _ => by rw [hregs]
  have hdescribe (op : Operand) (i : Fin 2) (g : Globals) (h : FlagsHeld ex apart mask flags g) :
      FlagsHeld ex apart mask flags (ex.describeCell inst op i g) := by
    refine h.congr ?_ fun hapart => ?_
    · exact adjustDisplacement_unseen ex unseen_notes (fun _ _ => rfl) inst i g
    · rw [ex.describeCell_eq (hop hapart)]
      rfl
  have hoperand (op : Operand) (i : Fin 2) :
      Maintains (FlagsHeld ex apart mask flags) (ex.readMemoryOperand inst op i) := by
    refine .bind (.onGlobals (hdescribe op i)) fun _ => .getGlobals fun g => ?_
    refine .bind (fun _ h => h) fun address => .bind (hsame (fun _ => rfl) fun _ => rfl) fun _ => ?_
    split
    · exact .pure _
    · refine .getGlobals fun g => .bind (fun _ h => h) fun r => ?_
      exact .bind (hsame (fun _ => rfl) fun _ => rfl) fun _ => .check _ _
  have hmemory : Maintains (FlagsHeld ex apart mask flags) (ex.readMemory inst) := by
    refine .bind (hsame (fun _ => rfl) fun _ => rfl) fun _ => .forM fun op => ?_
    unfold Executor.readMemoryAt
    split
    · exact hoperand op 0
    · exact hoperand op 0
    · exact hoperand op 1
    · exact .pure _
  have hfpu : Maintains (FlagsHeld ex apart mask flags) ex.readFPUState := by
    refine .getGlobals fun g => ?_
    split
    · refine .bind (fun _ h => h) fun r => .bind (hsame (fun _ => rfl) fun _ => rfl) fun _ => ?_
      exact .check _ _
    · exact .pure _
  refine .bind hfpu fun _ => .bind (.onGlobals fun g h => ?_) fun _ => hmemory
  unfold Executor.whenMMX
  split
  · exact h.congr rfl fun _ => rfl
  · exact h

/-! ### carrying out, and writing memory -/

theorem carryOut_noted (nextPC : Word) :
    Maintains (FlagsNoted ex mask) (ex.carryOut inst nextPC) := by
  refine triple_getGlobals fun w hw => ?_
  cases he : ex.emulate inst nextPC w.globals with
  | emulated pc g =>
      have hinv : Executor.Unaffected (FlagsNoted ex mask) :=
        ⟨fun _ _ _ h => h.congr rfl, fun _ _ _ h => h.congr rfl, fun r _ _ h => h.setModified r⟩
      refine Triple.bind (Q := fun _ v => FlagsNoted ex mask v.globals) (Triple.modify ?_)
        fun _ => Triple.pure fun _ h => h
      exact fun _ _ => hinv.emulate ex he hw
  | unsupported status => exact Triple.throw fun _ _ => trivial
  | notEmulated pc =>
      have hnative := runNative_unseen ex unseen_notes (fun w => FlagsNoted ex mask w.globals)
        (fun v v' _ _ hnotes hv => hv.congr hnotes) inst
      refine Triple.bind (Q := fun _ v => FlagsNoted ex mask v.globals) ?_
        fun _ => Triple.pure fun _ h => h
      exact hnative.conseq (fun v hv => hv ▸ hw) (fun _ _ h => h) fun _ _ _ => trivial

theorem writeOperands_held : Maintains (FlagsHeld ex apart mask flags) (ex.writeOperands) := by
  have hcell (i : Fin 2) : Maintains (FlagsHeld ex apart mask flags) (ex.writeCell i) := by
    refine .getGlobals fun g => ?_
    dsimp only
    split
    · exact .pure _
    · exact .bind (fun _ h => h) fun ok => .check _ _
  have hfpu : Maintains (FlagsHeld ex apart mask flags) ex.writeFPUState := by
    refine .getGlobals fun g => ?_
    split
    · exact .bind (fun _ h => h) fun ok => .check _ _
    · exact .pure _
  have hcopy (l : List (Fin 8)) : ∀ g, FlagsHeld ex apart mask flags g →
      FlagsHeld ex apart mask flags (l.foldl Executor.copyToMMX g) := by
    induction l with
    | nil => exact fun _ h => h
    | cons i l ih =>
        refine fun g h => ih _ ?_
        have hne : Reg.rflags ≠ .mmx i := nofun
        unfold Executor.copyToMMX
        split
        · refine h.congr rfl fun _ => ?_
          rw [Globals.regs_setReg, Function.update_of_ne hne]
        · exact h
  refine .bind (.bind (hcell 0) fun _ => hcell 1) fun _ => .bind hfpu fun _ => .onGlobals fun g h => ?_
  unfold Executor.whenMMX
  split
  · exact hcopy _ g h
  · exact h

end

/-! ### encoding -/

/-- Renaming the stack pointer is nothing to the flags. -/
theorem encodableOperands_aflag (ex : Executor σ) (inst : Inst) (ops : List Operand) :
    ∀ encoded g, (ex.encodableOperands inst ops encoded g).2.aflag = g.aflag := by
  have halias (g : Globals) : (ex.takeAlias g).aflag = g.aflag := by
    unfold Executor.takeAlias
    split
    · have hslot : Reg.rflags ≠ (Executor.freeRegister g).largestEnclosing := by
        unfold Executor.freeRegister
        split_ifs <;> exact nofun
      rw [Globals.aflag, ex.regs_writeGPR_of_ne hslot, Globals.aflag]
    · rfl
  have hone (op : Operand) (i : Nat) (g : Globals) :
      (ex.encodableOperand inst op i g).2.aflag = g.aflag := by
    have hreg (r : Reg) : (ex.decodeRegN r g).2.aflag = g.aflag := by
      unfold Executor.decodeRegN
      split
      · exact halias g
      · rfl
    unfold Executor.encodableOperand
    split <;> first | rfl | (split <;> first | rfl | exact hreg _)
  induction ops with
  | nil => exact fun _ _ => rfl
  | cons op ops ih =>
      intro encoded g
      unfold Executor.encodableOperands
      split
      · exact ih _ _
      · rw [ih]
        exact hone op _ g

theorem encodeInstruction_aflag (ex : Executor σ) {inst : Inst} {enc : EncInst} {w w' : World σ}
    (h : ex.encodeInstruction inst w = .ok enc w') : w'.globals.aflag = w.globals.aflag := by
  have hsame : Triple (fun v => v.globals.aflag = w.globals.aflag) (ex.encodeInstruction inst)
      (fun _ v => v.globals.aflag = w.globals.aflag) fun _ _ => True := by
    have hcheck (ok : Bool) : Maintains (fun g => g.aflag = w.globals.aflag)
        (Executor.check ok .errorExecute : ExecM σ Unit) := .check _ _
    unfold Executor.encodeInstruction
    refine triple_getGlobals fun v hv => ?_
    refine Triple.bind (Q := fun _ v => v.globals.aflag = w.globals.aflag) (Triple.modify ?_) fun _ => ?_
    · rintro u rfl
      exact (encodableOperands_aflag ex inst _ _ _).trans hv
    · refine Triple.bind (hcheck _) fun _ => ?_
      split
      · exact Triple.bind (hcheck _) fun _ => Triple.pure fun _ h => h
      · exact Triple.pure fun _ h => h
  have hrun := hsame w rfl
  rw [h] at hrun
  exact hrun

/-! ## writing -/

/-- A flag that was written. -/
def flagEvent (f : Flag) (b : Bool) : Event :=
  .writeReg (.flag f) 1 ((BitVec.ofBool b).setWidth 512) true

/-- The flags that `WriteFlags` writes. -/
def flagEvents (g : Globals) (fs : List Flag) : List Event :=
  (fs.filter (·.get g.writeBackFlags)).map fun f => flagEvent f (f.get g.aflag)

theorem writeFlagLoop_ok (ex : Executor σ) (fs : List Flag) :
    ∀ {w w' : World σ}, fs.forM ex.writeFlag w = .ok () w' →
      w'.globals = w.globals ∧ w'.trace = w.trace ++ flagEvents w.globals fs := by
  induction fs with
  | nil =>
      intro w w' h
      cases h
      simp [flagEvents]
  | cons f fs ih =>
      intro w w' h
      obtain ⟨_, w₁, hflag, hrest⟩ := bind_eq_ok.mp h
      obtain ⟨hglobals, htrace⟩ := ih hrest
      unfold Executor.writeFlag at hflag
      obtain ⟨g, w₂, hg, hflag⟩ := bind_eq_ok.mp hflag
      cases hg
      cases hf : f.get w.globals.writeBackFlags with
      | false =>
          rw [if_neg (by simp [hf])] at hflag
          cases hflag
          simp [hglobals, htrace, flagEvents, hf]
      | true =>
          rw [if_pos hf] at hflag
          obtain ⟨ok, w₃, hcall, hcheck⟩ := bind_eq_ok.mp hflag
          have hlow (b : Bool) : Bits.low 1 ((BitVec.ofBool b).setWidth 512 : Data) =
              (BitVec.ofBool b).setWidth 512 := by
            simp [Bits.low]
          cases ok with
          | false => cases hcheck
          | true =>
              cases hcheck
              cases hr : ex.writeReg (.flag f) 1 ((BitVec.ofBool (f.get w.globals.aflag)).setWidth 512)
                  w.env with
              | mk ok env =>
                  simp only [Executor.callWriteReg, hr] at hcall
                  cases hcall
                  refine ⟨hglobals, ?_⟩
                  rw [htrace]
                  simp [World.called, flagEvents, flagEvent, hf, hlow]

/-- A callback that writes no flag. -/
def Event.WritesNoFlag (e : Event) : Prop := ∀ f, e.writtenName ≠ some (.flag f)

theorem count_writtenNames {events : List Event} (h : ∀ e ∈ events, e.WritesNoFlag) (f : Flag) :
    (writtenNames events).count (.flag f) = 0 := by
  rw [List.count_eq_zero, writtenNames, List.mem_filterMap]
  rintro ⟨e, he, hname⟩
  exact h e he f hname

theorem count_flagEvents (g : Globals) {fs : List Flag} (hfs : fs.Nodup) (f : Flag) :
    (writtenNames (flagEvents g fs)).count (.flag f) =
      if f ∈ fs ∧ f.get g.writeBackFlags = true then 1 else 0 := by
  have hnames : writtenNames (flagEvents g fs) =
      (fs.filter (·.get g.writeBackFlags)).map .flag := by
    simp [writtenNames, flagEvents, flagEvent, Event.writtenName, List.filterMap_map,
      Function.comp_def]
  have hinj : Function.Injective RegName.flag := fun _ _ h => RegName.flag.inj h
  rw [hnames, List.count_map_of_injective _ _ hinj, List.Nodup.count (hfs.filter _)]
  simp [List.mem_filter]

theorem writeRegisters_noFlag (ex : Executor σ) (t : List Event) :
    Keeps (Since Event.WritesNoFlag t) ex.writeRegisters := by
  have hone (r : Reg) : Keeps (Since Event.WritesNoFlag t) (ex.writeRegister r) := by
    unfold Executor.writeRegister
    refine triple_readGlobals fun g => Keeps.bind (fun w hw => ?_) fun ok => check_keeps ok _
    exact Since.called hw fun _ => nofun
  unfold Executor.writeRegisters
  refine (onGlobals_keeps _).bind fun _ => Keeps.bind ?_ fun _ => triple_readGlobals fun g => ?_
  · refine Triple.forM fun r _ => triple_readGlobals fun g => ?_
    split
    · exact hone r
    · exact pure_keeps _
  · split
    · exact hone _
    · exact pure_keeps _

/-- The end of an instruction writes the flags that were noted, with the values they then have. -/
theorem commit_flags (ex : Executor σ) {mask nextPC : Word} {w w' : World σ}
    (hnoted : FlagsNoted ex mask w.globals) (h : ex.commit nextPC w = .ok () w') :
    ∃ regs, w'.trace = w.trace ++ (flagEvents w.globals Flag.all ++ regs) ∧
      ∀ e ∈ regs, e.WritesNoFlag := by
  unfold Executor.commit at h
  obtain ⟨_, w₁, hflags, h⟩ := bind_eq_ok.mp h
  obtain ⟨_, w₂, hnext, hregs⟩ := bind_eq_ok.mp h
  cases hnext
  have hwritten : w₁.trace = w.trace ++ flagEvents w.globals Flag.all := by
    unfold Executor.writeFlags at hflags
    obtain ⟨g, w₃, hg, hflags⟩ := bind_eq_ok.mp hflags
    cases hg
    cases hmodified : w.globals.modifiedRegs ex.flagsReg with
    | false =>
        have hmask : w.globals.writeBackFlags = 0 := by
          by_contra hne
          rw [hnoted.writeBack] at hne
          rw [hnoted.modified hne] at hmodified
          contradiction
        rw [← Executor.flagsReg, if_neg (by simp [hmodified])] at hflags
        cases hflags
        simp [flagEvents, hmask, Flag.get]
    | true =>
        rw [← Executor.flagsReg, if_pos hmodified] at hflags
        obtain ⟨_, w₄, hforget, hflags⟩ := bind_eq_ok.mp hflags
        obtain ⟨_, w₅, hloop, hclear⟩ := bind_eq_ok.mp hflags
        cases hforget
        cases hclear
        exact (writeFlagLoop_ok ex _ hloop).2
  have hrest := writeRegisters_noFlag ex w₁.trace _
    (Since.refl _ (w₁.withGlobals (Executor.setNextPC nextPC)))
  rw [hregs] at hrest
  obtain ⟨regs, htrace, hno⟩ := hrest
  exact ⟨regs, by rw [htrace, hwritten, List.append_assoc], hno⟩

/-! ## the flags of the executor -/

/-- The same with other flags of the executor itself. -/
def World.withHost (host : Nat → Word) (w : World σ) : World σ := { w with hostFlags := host }

/-- The flags of the executor are nothing to the fetch. -/
theorem fetch_withHost {ex : Executor σ} {w w' : World σ} {inst : Inst}
    (h : ex.fetch w = .ok inst w') (host : Nat → Word) :
    ex.fetch (w.withHost host) = .ok inst (w'.withHost host) := by
  have hsame : Indistinct ex Eq := by constructor <;> grind
  have halike : Alike (fun _ b => b = host) Eq w (w.withHost host) := ⟨rfl, rfl, rfl, rfl, rfl⟩
  have hfetch := hsame.fetch _ _ halike
  rw [h] at hfetch
  cases hr : ex.fetch (w.withHost host) with
  | error status v =>
      rw [hr] at hfetch
      exact hfetch.elim
  | ok inst' v =>
      rw [hr] at hfetch
      obtain ⟨rfl, hv, -⟩ := hfetch
      have heq : v = w'.withHost host := by
        obtain ⟨hglobals, hidata, htrace, hhost, henv⟩ := hv
        cases v
        cases w'
        simp_all [World.withHost]
      rw [heq]

/-! ## one instruction -/

/-- An instruction that does nothing, or that leaves a flag as it found it. -/
def LeavesAlone (ex : Executor σ) (inst : Inst) (w : World σ) (f : Flag) : Prop :=
  Executor.isNop inst = true ∨ ∃ w₁ nextPC w₂, ex.readOperands inst w = .ok () w₁ ∧
    ex.carryOut inst (ex.getNextPC inst w.globals) w₁ = .ok nextPC w₂ ∧
    f.get w₂.globals.aflag = f.get w₁.globals.aflag

/-- What an instruction does about flags, from `w` with its registers read, in an environment whose
flags are `flags`. -/
structure FlagsFramed (ex : Executor σ) (inst : Inst) (rf : RFlagsInfo) (flags : Flag → Bool)
    (w : World σ) (events : List Event) : Prop where
  written : ∀ f, (writtenNames events).count (.flag f) = if rf.written.getLsbD f.bit then 1 else 0
  /-- Emulation, or native execution, starts with the flags of the environment. -/
  starts : Executor.isNop inst = false → ∃ w₁, ex.readOperands inst w = .ok () w₁ ∧
    ∀ f, rf.enters f = true → f.get w₁.globals.aflag = flags f ∧
      ∀ enc w₂, ex.encodeInstruction inst w₁ = .ok enc w₂ →
        f.get (ex.loadNative w₂.globals).rflags = flags f
  kept : rf.mayWrite = true → ∀ f, rf.written.getLsbD f.bit = true → LeavesAlone ex inst w f →
    flagEvent f (flags f) ∈ events

/-- The part of an instruction before it writes flags. -/
theorem perform_noted (ex : Executor σ) {inst : Inst} {mask nextPC : Word} {w w' : World σ}
    (hnoted : FlagsNoted ex mask w.globals) (h : ex.perform inst w = .ok nextPC w') :
    FlagsNoted ex mask w'.globals ∧
      (Executor.isNop inst = true ∧ w' = w ∨ Executor.isNop inst = false ∧
        ∃ w₁ w₂, ex.readOperands inst w = .ok () w₁ ∧
          ex.carryOut inst (ex.getNextPC inst w.globals) w₁ = .ok nextPC w₂ ∧
          w'.globals.aflag = w₂.globals.aflag) := by
  obtain ⟨g, w₀, hg, h⟩ := bind_eq_ok.mp h
  cases hg
  cases hnop : Executor.isNop inst with
  | true =>
      simp only [hnop] at h
      cases h
      exact ⟨hnoted, .inl ⟨rfl, rfl⟩⟩
  | false =>
      simp only [hnop] at h
      obtain ⟨_, w₁, hread, h⟩ := bind_eq_ok.mp h
      obtain ⟨pc, w₂, hcarry, h⟩ := bind_eq_ok.mp h
      obtain ⟨_, w₃, hwrite, hpure⟩ := bind_eq_ok.mp h
      cases hpure
      have hstart : FlagsHeld ex False mask 0 w.globals := ⟨hnoted, fun h => h.elim⟩
      have hheld : Maintains (FlagsHeld ex False mask 0) (ex.readOperands inst) :=
        readOperands_held ex (False.elim ·)
      have hread' := hheld w hstart
      rw [hread] at hread'
      have hcarried : Maintains (FlagsNoted ex mask) (ex.carryOut inst (ex.getNextPC inst w.globals)) :=
        carryOut_noted ex _
      have hcarried := hcarried w₁ hread'.noted
      rw [hcarry] at hcarried
      have hmiddle : FlagsHeld ex True mask (w₂.globals.regs .rflags) w₂.globals :=
        ⟨hcarried, fun _ => rfl⟩
      have hwritten := writeOperands_held ex w₂ hmiddle
      rw [hwrite] at hwritten
      refine ⟨hwritten.noted, .inr ⟨rfl, w₁, w₂, hread, hcarry, ?_⟩⟩
      rw [Globals.aflag, Globals.aflag, hwritten.slot trivial]

/-- Up to its end an instruction writes no register and no flag. -/
theorem perform_quiet (ex : Executor σ) {w w₁ w₂ w₃ : World σ} {inst : Inst} {nextPC : Word}
    (hfetch : ex.fetch w = .ok inst w₁) (hstate : ex.readState inst w₁ = .ok () w₂)
    (hperform : ex.perform inst w₂ = .ok nextPC w₃) :
    ∃ events, w₃.trace = w.trace ++ events ∧ writtenNames events = [] := by
  have hreading := fetch_reading ex w w rfl
  rw [hfetch] at hreading
  have hreading := readState_reading ex inst w₁ (Reading.mono hreading fun _ h => .inl h)
  rw [hstate] at hreading
  have hreading := perform_reading ex (fun r h => .inr (.inr h)) w₂ hreading
  rw [hperform] at hreading
  have hsince := (invariant_since ex w.trace).reads.fetch w (Since.refl _ w)
  rw [hfetch] at hsince
  have hsince := (invariant_since ex w.trace).reads.readState inst w₁ hsince
  rw [hstate] at hsince
  have hsince := (invariant_since ex w.trace).perform inst w₂ hsince
  rw [hperform] at hsince
  obtain ⟨events, htrace, -⟩ := hsince
  obtain ⟨names, hasked⟩ := hreading
  refine ⟨events, htrace, ?_⟩
  have hwrites := hasked.writes
  simpa [World.traffic, htrace] using hwrites

/-- The flags of the environment, when all registers are read. -/
theorem readState_held (ex : Executor σ) {inst : Inst} {rf : RFlagsInfo} (hrf : inst.rflags = some rf)
    {w w' : World σ} (h : ex.readState inst w = .ok () w') :
    FlagsNoted ex (Executor.writeMask rf) w'.globals ∧
      ∀ f, rf.enters f = true → f.get w'.globals.aflag = ex.envFlags rf w.env f := by
  obtain ⟨_, w₁, hcheck, h⟩ := bind_eq_ok.mp h
  obtain ⟨_, w₂, hflags, hregs⟩ := bind_eq_ok.mp h
  have hsame : w₁ = w := by
    cases hfeatures : ex.usesUnsupportedFeatures inst <;> rw [hfeatures] at hcheck <;> cases hcheck
    rfl
  rw [hsame] at hflags
  obtain ⟨hnoted, henters⟩ := readFlags_held ex hrf hflags
  have hstart : FlagsHeld ex True (Executor.writeMask rf) (w₂.globals.regs .rflags) w₂.globals :=
    ⟨hnoted, fun _ => rfl⟩
  have hread : Maintains (FlagsHeld ex True (Executor.writeMask rf) (w₂.globals.regs .rflags))
      (ex.readRegisters inst) := readRegisters_held ex
  have hheld := hread w₂ hstart
  rw [hregs] at hheld
  refine ⟨hheld.noted, fun f hf => ?_⟩
  rw [← henters f hf, Globals.aflag, Globals.aflag, hheld.slot trivial]

/-- The operands of an instruction are read without touching the flags it starts with. -/
theorem readOperands_aflag (ex : Executor σ) {inst : Inst} (hop : inst.NoBitOp) {mask : Word}
    {w w' : World σ} (hnoted : FlagsNoted ex mask w.globals)
    (h : ex.readOperands inst w = .ok () w') : w'.globals.aflag = w.globals.aflag := by
  have hstart : FlagsHeld ex True mask (w.globals.regs .rflags) w.globals := ⟨hnoted, fun _ => rfl⟩
  have hheld := readOperands_held ex (fun _ => hop) w hstart
  rw [h] at hheld
  rw [Globals.aflag, Globals.aflag, hheld.slot trivial]

theorem flagsFramed (ex : Executor σ) {inst : Inst} {rf : RFlagsInfo} (hrf : inst.rflags = some rf)
    (hop : inst.NoBitOp ∨ rf.read = 0 ∧ rf.mayWrite = false) {w₁ w₂ w₃ : World σ} {nextPC : Word}
    (hstate : ex.readState inst w₁ = .ok () w₂) (hperform : ex.perform inst w₂ = .ok nextPC w₃)
    {before regs : List Event} (hbefore : writtenNames before = [])
    (hregs : ∀ e ∈ regs, e.WritesNoFlag) :
    FlagsFramed ex inst rf (ex.envFlags rf w₁.env) w₂
      (before ++ (flagEvents w₃.globals Flag.all ++ regs)) := by
  obtain ⟨hnoted, henters⟩ := readState_held ex hrf hstate
  obtain ⟨hnoted', hmiddle⟩ := perform_noted ex hnoted hperform
  have hmask (f : Flag) : f.get w₃.globals.writeBackFlags = rf.written.getLsbD f.bit := by
    rw [hnoted'.writeBack, get_writeMask]
  -- A bit operation starts with no flag of the environment.
  have hread (f : Flag) (hf : rf.enters f = true) {v : World σ}
      (hv : ex.readOperands inst w₂ = .ok () v) : f.get v.globals.aflag = ex.envFlags rf w₁.env f := by
    rcases hop with hop | ⟨hread, hmay⟩
    · rw [readOperands_aflag ex hop hnoted hv, henters f hf]
    · simp [RFlagsInfo.enters, hread, hmay] at hf
  constructor
  · intro f
    rw [writtenNames_append, writtenNames_append, hbefore, List.nil_append, List.count_append,
      count_flagEvents _ Flag.nodup_all, count_writtenNames hregs, hmask]
    simp [f.mem_all]
  · intro hnop
    obtain ⟨h, -⟩ | ⟨-, v, -, hv, -⟩ := hmiddle
    · rw [hnop] at h
      contradiction
    · refine ⟨v, hv, fun f hf => ⟨hread f hf hv, fun enc u hu => ?_⟩⟩
      rw [Executor.loadNative, encodeInstruction_aflag ex hu]
      exact hread f hf hv
  · intro hmay f hf halone
    have henter : rf.enters f = true := by simp [RFlagsInfo.enters, hmay, hf]
    have hvalue : f.get w₃.globals.aflag = ex.envFlags rf w₁.env f := by
      obtain ⟨-, rfl⟩ | ⟨hnop, v, u, hv, hu, haflag⟩ := hmiddle
      · exact henters f henter
      · obtain h | ⟨v', pc, u', hv', hu', hsame⟩ := halone
        · rw [hnop] at h
          contradiction
        · obtain rfl : v = v' := by simpa [hv] using hv'
          obtain ⟨-, rfl⟩ : _ ∧ u = u' := by simpa [hu] using hu'
          rw [haflag, hsame, hread f henter hv]
    have hmem : flagEvent f (f.get w₃.globals.aflag) ∈ flagEvents w₃.globals Flag.all := by
      refine List.mem_map.mpr ⟨f, List.mem_filter.mpr ⟨f.mem_all, ?_⟩, rfl⟩
      rw [hmask, hf]
    rw [hvalue] at hmem
    simp [hmem]

/-- **Flags are written back as the instruction writes them.**  An instruction that ends well writes
each flag once or not at all, as XED says; the flags it reads, and those it may leave alone, are
the environment's whatever the flags of the executor are; so a flag that it does leave alone is
written back with the value the environment gave. -/
theorem flags_framed (ex : Executor σ) (hxed : ex.xed.BitOpsReadNoFlags) {w w' : World σ}
    (h : ex.execute 1 w = .ok () w') :
    ∃ inst w₁ w₂ events, (∀ host, ex.fetch (w.withHost host) = .ok inst (w₁.withHost host)) ∧
      ex.readState inst w₁ = .ok () w₂ ∧ w'.trace = w.trace ++ events ∧
      ∀ rf, inst.rflags = some rf →
        FlagsFramed ex inst rf (ex.envFlags rf w₁.env) w₂ events := by
  cases hinit : ex.isInitialized with
  | false =>
      rw [Executor.execute_of_not_initialized hinit (by decide)] at h
      cases h
  | true =>
      rw [Executor.execute_one hinit] at h
      obtain ⟨inst, w₁, hfetch, h⟩ := bind_eq_ok.mp h
      obtain ⟨_, w₂, hstate, h⟩ := bind_eq_ok.mp h
      obtain ⟨nextPC, w₃, hperform, hcommit⟩ := bind_eq_ok.mp h
      have hsince := (invariant_since ex w.trace).executeInstruction w (Since.refl _ w)
      rw [show ex.executeInstruction w = .ok () w' from bind_eq_ok.mpr ⟨_, _, hfetch,
        bind_eq_ok.mpr ⟨_, _, hstate, bind_eq_ok.mpr ⟨_, _, hperform, hcommit⟩⟩⟩] at hsince
      obtain ⟨events, htrace, -⟩ := hsince
      refine ⟨inst, w₁, w₂, events, fetch_withHost hfetch, hstate, htrace, fun rf hrf => ?_⟩
      obtain ⟨before, hbefore, hquiet⟩ := perform_quiet ex hfetch hstate hperform
      have hnoted := (readState_held ex hrf hstate).1
      obtain ⟨regs, hregs, hnoFlag⟩ := commit_flags ex (perform_noted ex hnoted hperform).1 hcommit
      have hevents : events = before ++ (flagEvents w₃.globals Flag.all ++ regs) := by
        rw [hregs, hbefore, List.append_assoc] at htrace
        exact (List.append_cancel_left htrace).symm
      have hdecoded := (invariant_since ex w.trace).reads.fetch_decoded w (Since.refl _ w)
      rw [hfetch] at hdecoded
      obtain ⟨-, bytes, hbytes⟩ := hdecoded
      rw [hevents]
      exact flagsFramed ex hrf (hxed _ _ _ _ hbytes hrf) hstate hperform hquiet hnoFlag

/-! ### a sample -/

/-- A repeated instruction is never left to the processor. -/
theorem Executor.repeated_emulated (ex : Executor σ) (again : Word → Bool) (body : Globals → Globals)
    (nextPC : Word) (g : Globals) : ∃ pc g', ex.repeated again body nextPC g = .emulated pc g' := by
  unfold Executor.repeated
  dsimp only
  split_ifs
  · exact ⟨_, _, rfl⟩
  · exact ⟨_, _, rfl⟩
  · exact ⟨_, _, rfl⟩

/-- What XED says of the flags of `REPE SCASB`: it may write those of a comparison. -/
def repeScasFlags : RFlagsInfo := ⟨0x400, 0x8D5, true⟩

/-- `REPE SCASB`. -/
def repeScas : Inst :=
  { Inst.scalar (.repe .scas .b) 2 8
      [.register .reg0 false, ⟨.mem0, true, false, false, .suppressed⟩, .register .reg1 true,
        .register .reg2 true, .register .reg3 true]
      (fun
        | .reg0 => .gpr8 .rax
        | .reg1 => .gpr64 .rdi
        | .reg2 => .gpr64 .rcx
        | _ => .rflags)
      (fun _ => ⟨.seg .es, .gpr64 .rdi, .invalid, 1, 0, 64, 1⟩) 0 with
    rflags := some repeScasFlags }

/-- A machine that knows this instruction only, with `RCX` zero and all flags set. -/
def repeScasMachine : FlatMachine := .oneInst repeScas

def repeScasStart : World (Flat repeScasMachine.width) :=
  .start ⟨fun _ => 0, fun _ => true, fun _ => 0⟩

theorem plain_repeScas : repeScasMachine.Plain repeScas where
  supported := by decide
  notNop := by decide
  operand := by
    intro op hop x hname
    simp [repeScas, Inst.scalar, Operand.register] at hop
    rcases hop with rfl | rfl | rfl | rfl | rfl <;> cases hname <;> decide
  base := by decide
  index := by decide
  noBitOp := fun _ _ => ⟨nofun, nofun⟩
  usualOrder := by simp [repeScas, Inst.scalar, Inst.UsualOrder, Inst.memoryOperands,
    Operand.register, OperandName.isMemory]

theorem bitOps_repeScasMachine : repeScasMachine.executor.xed.BitOpsReadNoFlags := by
  intro addrSize bytes inst rf hdecode _
  cases bytes with
  | nil => cases hdecode
  | cons b bytes =>
      cases hdecode
      exact .inl plain_repeScas.noBitOp

/-- No element is compared, and the environment's flags come back. -/
theorem flags_framed_repeScas : ∃ (w₁ w₂ w' : World (Flat repeScasMachine.width)) (events : List Event),
    repeScasMachine.executor.execute 1 repeScasStart = .ok () w' ∧ w'.trace = events ∧
      FlagsFramed repeScasMachine.executor repeScas repeScasFlags
        (repeScasMachine.executor.envFlags repeScasFlags w₁.env) w₂ events := by
  have hd : repeScasMachine.Decodes repeScasStart.env repeScas := FlatMachine.decodes_sample rfl
  obtain ⟨g, -, hstep⟩ := FlatMachine.step_flat plain_repeScas hd
  obtain ⟨pc, g', he⟩ : ∃ pc g', repeScasMachine.executor.emulate repeScas
      (repeScasMachine.executor.getNextPC repeScas g) g = .emulated pc g' := by
    exact Executor.repeated_emulated _ _ _ _ _
  obtain ⟨w', hw', -, -⟩ := hstep pc g' he
  obtain ⟨inst, w₁, w₂, events, hfetch, -, htrace, hframed⟩ :=
    flags_framed repeScasMachine.executor bitOps_repeScasMachine hw'
  obtain ⟨inst', w₃, hrun, hinst, -⟩ := FlatMachine.fetch_flat hd
  have hsame := (hfetch repeScasStart.hostFlags).symm.trans hrun
  obtain rfl : inst = repeScas := by
    cases hsame
    exact hinst
  exact ⟨w₁, w₂, w', events, hw', htrace, hframed _ rfl⟩

end Microx
