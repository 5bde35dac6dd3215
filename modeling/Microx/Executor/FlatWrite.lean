import Microx.Executor.FlatRead

/-!
# Microx.Executor.FlatWrite

The writing half of an instruction over a flat environment, and the whole of an
instruction that is emulated.
-/

namespace Microx

open Hoare

namespace FlatMachine

variable {c : FlatMachine} {w : World (Flat c.width)} {e : Flat c.width}

/-! ## writing back -/

/-- Write a cell back. -/
def storeCell (c : FlatMachine) (cell : Cell) (e : Flat c.width) : Flat c.width :=
  if cell.present && cell.writeBack then e.store cell.address (cell.size / 8) cell.data else e

/-- The environment after the results of an instruction were written back. -/
def written (c : FlatMachine) (g : Globals) (nextPC : Word) (e : Flat c.width) : Flat c.width where
  regs r :=
    if r = c.executor.pcReg then Bits.low c.width (nextPC.setWidth 512)
    else if g.usedRegs r && g.modifiedRegs r && !Executor.isPC r && decide (r ≠ c.flagsReg) then
      Bits.low (c.executor.width r) (g.regs r.largestEnclosing)
    else e.regs r
  flags f := if f.get g.writeBackFlags then f.get g.aflag else e.flags f
  mem := (c.storeCell (g.memory 1) (c.storeCell (g.memory 0) e)).mem

theorem written_regs_pcReg (g : Globals) (nextPC : Word) (e : Flat c.width) :
    (c.written g nextPC e).regs c.executor.pcReg = Bits.low c.width (nextPC.setWidth 512) :=
  if_pos rfl

theorem written_regs_of_ne (g : Globals) (nextPC : Word) (e : Flat c.width) {r : Reg}
    (h : r ≠ c.executor.pcReg) :
    (c.written g nextPC e).regs r =
      if g.usedRegs r && g.modifiedRegs r && !Executor.isPC r && decide (r ≠ c.flagsReg) then
        Bits.low (c.executor.width r) (g.regs r.largestEnclosing)
      else e.regs r :=
  if_neg h

/-- The writes of the cells. -/
def writeEvents (g : Globals) : List Event :=
  (List.finRange 2).flatMap fun i =>
    if (g.memory i).present && (g.memory i).writeBack then
      [.writeMem (g.memory i).address (g.memory i).size
        (Bits.low (g.memory i).size (g.memory i).data) true]
    else []

/-- One round of `WriteMemory`. -/
theorem writeCell_flat (i : Fin 2) (w : World (Flat c.width)) :
    Returns (c.executor.writeCell i) w fun _ w' =>
      w'.env = c.storeCell (w.globals.memory i) w.env ∧ w'.globals = w.globals ∧
        w'.accesses = w.accesses ++
          if (w.globals.memory i).present && (w.globals.memory i).writeBack then
            [.writeMem (w.globals.memory i).address (w.globals.memory i).size
              (Bits.low (w.globals.memory i).size (w.globals.memory i).data) true]
          else [] := by
  unfold Executor.writeCell storeCell
  refine Returns.bind (Q := fun g w' => g = w.globals ∧ w' = w) ⟨_, _, rfl, rfl, rfl⟩ ?_
  rintro _ w' ⟨rfl, hw⟩
  rw [hw]
  cases hp : (w.globals.memory i).present with
  | false => exact ⟨(), w, by simp [hp], by simp, rfl, by simp⟩
  | true =>
      cases hb : (w.globals.memory i).writeBack with
      | false => exact ⟨(), w, by simp [hp, hb], by simp, rfl, by simp⟩
      | true =>
          refine ⟨(), w.called (w.env.store (w.globals.memory i).address
            ((w.globals.memory i).size / 8) (w.globals.memory i).data)
            (.writeMem (w.globals.memory i).address (w.globals.memory i).size
              (Bits.low (w.globals.memory i).size (w.globals.memory i).data) true), ?_, ?_, rfl, ?_⟩
          · simp only [hp, hb]
            rfl
          · simp [World.called]
          · simp [World.accesses, World.called, Event.isAccess]

/-- The globals after an instruction was carried out. -/
structure Settled (c : FlatMachine) (g : Globals) : Prop where
  usesPC : g.usedRegs c.executor.pcReg = true
  onlyPC : ∀ r, r.largestEnclosing = .rip → g.usedRegs r = true → r = c.executor.pcReg
  noFPU : g.usesFPU = false
  noMMX : g.usesMMX = false
  noAlias : g.stackPtrAlias = .invalid
  flags : g.writeBackFlags ≠ 0 → g.modifiedRegs c.flagsReg = true

theorem writeOperands_flat (hs : c.Settled w.globals) :
    Returns c.executor.writeOperands w fun _ w' =>
      w'.env = { w.env with mem := (c.written w.globals 0 w.env).mem } ∧ w'.globals = w.globals ∧
        w'.accesses = w.accesses ++ writeEvents w.globals := by
  unfold Executor.writeOperands
  have hmemory : Returns c.executor.writeMemory w fun _ w' =>
      w'.env = { w.env with mem := (c.written w.globals 0 w.env).mem } ∧ w'.globals = w.globals ∧
        w'.accesses = w.accesses ++ writeEvents w.globals := by
    unfold Executor.writeMemory
    refine (writeCell_flat 0 w).bind fun _ w₁ ⟨henv₁, hg₁, hacc₁⟩ => ?_
    refine (writeCell_flat 1 w₁).post fun _ w₂ ⟨henv₂, hg₂, hacc₂⟩ => ⟨?_, hg₂.trans hg₁, ?_⟩
    · rw [henv₂, hg₁, henv₁]
      unfold storeCell Flat.store written storeCell Flat.store
      split_ifs <;> rfl
    · have hrange : List.finRange 2 = [0, 1] := rfl
      rw [hacc₂, hacc₁, hg₁, writeEvents, hrange]
      simp
  refine hmemory.bind fun _ w₁ ⟨henv, hg, hacc⟩ => ?_
  refine Returns.bind (Q := fun _ w' => w' = w₁) ?_ ?_
  · unfold Executor.writeFPUState
    refine Returns.bind (Q := fun g w' => g = w₁.globals ∧ w' = w₁) ⟨_, _, rfl, rfl, rfl⟩ ?_
    rintro _ w' ⟨rfl, hw⟩
    rw [hw, hg, hs.noFPU]
    exact Returns.pure rfl
  · rintro _ _ rfl
    refine ⟨(), _, rfl, henv, ?_, hacc⟩
    unfold World.withGlobals Executor.whenMMX
    rw [hg, hs.noMMX]
    rfl

/-- The loop over the flags writes those of the mask. -/
theorem writeFlag_forM (fs : List Flag) : ∀ w : World (Flat c.width),
    Returns (fs.forM c.executor.writeFlag) w fun _ w' =>
      w'.env.regs = w.env.regs ∧ w'.env.mem = w.env.mem ∧
        (∀ f, w'.env.flags f = if f ∈ fs ∧ f.get w.globals.writeBackFlags = true then
          f.get w.globals.aflag else w.env.flags f) ∧
        w'.globals = w.globals ∧ w'.accesses = w.accesses := by
  induction fs with
  | nil => exact fun w => Returns.pure ⟨rfl, rfl, by simp, rfl, rfl⟩
  | cons f fs ih =>
      intro w
      have hone : Returns (c.executor.writeFlag f) w fun _ w' =>
          w'.env.regs = w.env.regs ∧ w'.env.mem = w.env.mem ∧
            (w'.env.flags = if f.get w.globals.writeBackFlags = true then
              Function.update w.env.flags f (f.get w.globals.aflag) else w.env.flags) ∧
            w'.globals = w.globals ∧ w'.accesses = w.accesses := by
        unfold Executor.writeFlag
        refine Returns.bind (Q := fun g w' => g = w.globals ∧ w' = w) ⟨_, _, rfl, rfl, rfl⟩ ?_
        rintro _ w' ⟨rfl, hw⟩
        rw [hw]
        cases hm : f.get w.globals.writeBackFlags with
        | false => exact Returns.pure ⟨rfl, rfl, rfl, rfl, rfl⟩
        | true =>
            refine ⟨(), _, rfl, rfl, rfl, ?_, rfl, ?_⟩
            · simp [World.called, Flat.writeReg]
            · simp [World.accesses, World.called, Event.isAccess]
      refine hone.bind fun _ w₁ h₁ => (ih w₁).post fun _ w₂ h₂ => ?_
      obtain ⟨hr₁, hm₁, hf₁, hg₁, ha₁⟩ := h₁
      obtain ⟨hr₂, hm₂, hf₂, hg₂, ha₂⟩ := h₂
      refine ⟨hr₂.trans hr₁, hm₂.trans hm₁, fun f' => ?_, hg₂.trans hg₁, ha₂.trans ha₁⟩
      rw [hf₂ f', hf₁, hg₁]
      by_cases hff : f' = f
      · subst hff
        by_cases hm : f'.get w.globals.writeBackFlags = true <;> simp [hm]
      · by_cases hm : f.get w.globals.writeBackFlags = true <;> simp [hm, hff]

/-- The loop over the registers writes those that were used and modified. -/
theorem writeModified_forM (rs : List Reg) (hn : rs.Nodup) : ∀ w : World (Flat c.width),
    Returns (rs.forM c.executor.writeModified) w fun _ w' =>
      (∀ r, w'.env.regs r =
        if r ∈ rs ∧ (w.globals.usedRegs r && !Executor.isPC r && w.globals.modifiedRegs r) = true then
          Bits.low (c.executor.width r) (w.globals.regs r.largestEnclosing) else w.env.regs r) ∧
        w'.env.mem = w.env.mem ∧ w'.env.flags = w.env.flags ∧
        w'.globals = w.globals ∧ w'.accesses = w.accesses := by
  induction rs with
  | nil => exact fun w => Returns.pure ⟨by simp, rfl, rfl, rfl, rfl⟩
  | cons reg rs ih =>
      intro w
      have hone : Returns (c.executor.writeModified reg) w fun _ w' =>
          (w'.env.regs =
            if (w.globals.usedRegs reg && !Executor.isPC reg && w.globals.modifiedRegs reg) = true then
              Function.update w.env.regs reg
                (Bits.low (c.executor.width reg) (w.globals.regs reg.largestEnclosing))
            else w.env.regs) ∧
            w'.env.mem = w.env.mem ∧ w'.env.flags = w.env.flags ∧
            w'.globals = w.globals ∧ w'.accesses = w.accesses := by
        unfold Executor.writeModified
        refine Returns.bind (Q := fun g w' => g = w.globals ∧ w' = w) ⟨_, _, rfl, rfl, rfl⟩ ?_
        rintro _ w' ⟨rfl, hw⟩
        rw [hw]
        split
        case isTrue hm =>
          refine ⟨(), _, rfl, rfl, rfl, rfl, rfl, ?_⟩
          simp [World.accesses, World.called, Event.isAccess]
        case isFalse hm => exact Returns.pure ⟨rfl, rfl, rfl, rfl, rfl⟩
      refine hone.bind fun _ w₁ h₁ => (ih (List.nodup_cons.mp hn).2 w₁).post fun _ w₂ h₂ => ?_
      obtain ⟨hr₁, hm₁, hf₁, hg₁, ha₁⟩ := h₁
      obtain ⟨hr₂, hm₂, hf₂, hg₂, ha₂⟩ := h₂
      refine ⟨fun r => ?_, hm₂.trans hm₁, hf₂.trans hf₁, hg₂.trans hg₁, ha₂.trans ha₁⟩
      rw [hr₂ r, hr₁, hg₁]
      by_cases hrr : r = reg
      · subst hrr
        have hnot : r ∉ rs := (List.nodup_cons.mp hn).1
        split_ifs <;> simp_all
      · split_ifs <;> simp_all

/-- The flags register is no program counter. -/
theorem flagsReg_ne (r : Reg) (h : r.largestEnclosing = .rip) : r ≠ c.flagsReg := by
  rintro rfl
  rw [Executor.largestEnclosing_widestRegister rfl] at h
  contradiction

/-- What `WriteFlags` leaves for `WriteRegisters`. -/
structure FlagsWritten (c : FlatMachine) (w w' : World (Flat c.width)) : Prop where
  env : w'.env = { w.env with flags := (c.written w.globals 0 w.env).flags }
  accesses : w'.accesses = w.accesses
  regs : w'.globals.regs = w.globals.regs
  noAlias : w'.globals.stackPtrAlias = .invalid
  usesPC : w'.globals.usedRegs c.executor.pcReg = true
  onlyPC : ∀ r, r.largestEnclosing = .rip → w'.globals.usedRegs r = true → r = c.executor.pcReg
  toWrite : ∀ r, (w'.globals.usedRegs r && !Executor.isPC r && w'.globals.modifiedRegs r) =
    (w.globals.usedRegs r && w.globals.modifiedRegs r && !Executor.isPC r && decide (r ≠ c.flagsReg))

theorem writeFlags_flat (hs : c.Settled w.globals) :
    Returns c.executor.writeFlags w fun _ w' => c.FlagsWritten w w' := by
  unfold Executor.writeFlags
  refine Returns.bind (Q := fun g w' => g = w.globals ∧ w' = w) ⟨_, _, rfl, rfl, rfl⟩ ?_
  rintro _ w' ⟨rfl, hw⟩
  rw [hw]
  split
  case isTrue hmod =>
    refine Returns.bind (Q := fun _ w' => w' = w.withGlobals c.executor.forgetFlags)
      ⟨(), _, rfl, rfl⟩ ?_
    rintro _ w₁ rfl
    refine (writeFlag_forM Flag.all _).bind fun _ w₂ ⟨hr, hm, hf, hg, ha⟩ => ?_
    refine ⟨(), _, rfl, ?_, ha, ?_, ?_, ?_, fun r hr hu => ?_, fun r => ?_⟩
    · change w₂.env = _
      have hflags : w₂.env.flags = (c.written w.globals 0 w.env).flags := by
        funext f
        rw [hf f]
        unfold written
        simp only [f.mem_all, true_and]
        rfl
      exact Flat.ext hr hflags hm
    all_goals simp only [World.withGlobals, hg] at *
    · rfl
    · exact hs.noAlias
    · have hne : c.executor.pcReg ≠ c.flagsReg := flagsReg_ne _ c.executor.largestEnclosing_pcReg
      exact (Function.update_of_ne hne _ _).trans hs.usesPC
    · have hne : r ≠ c.flagsReg := flagsReg_ne r hr
      exact hs.onlyPC r hr ((Function.update_of_ne hne _ _).symm.trans hu)
    · unfold Executor.forgetFlags
      by_cases hrf : r = c.flagsReg
      · simp [hrf]
      · simp [hrf, Bool.and_right_comm]
  case isFalse hmod =>
    have hnone : w.globals.writeBackFlags = 0 := by
      by_contra hne
      exact hmod (hs.flags hne)
    refine Returns.pure ⟨?_, rfl, rfl, hs.noAlias, hs.usesPC, hs.onlyPC, fun r => ?_⟩
    · unfold written
      simp [hnone, Flag.get]
    · by_cases hrf : r = c.flagsReg
      · subst hrf
        simp [show w.globals.modifiedRegs c.flagsReg = false by simpa using hmod]
      · simp [hrf, Bool.and_right_comm]

/-- The last element of a list in which there is only one element. -/
theorem getLast?_eq_some_of_forall {α : Type} {l : List α} {a : α} (hmem : a ∈ l)
    (hall : ∀ b ∈ l, b = a) : l.getLast? = some a := by
  have hne : l ≠ [] := List.ne_nil_of_mem hmem
  rw [List.getLast?_eq_some_getLast hne, hall _ (List.getLast_mem hne)]

/-- The end of an instruction. -/
theorem commit_flat (hs : c.Settled w.globals) (nextPC : Word) :
    Returns (c.executor.commit nextPC) w fun _ w' =>
      w'.env = { c.written w.globals nextPC w.env with mem := w.env.mem } ∧
        w'.accesses = w.accesses := by
  unfold Executor.commit Executor.writeRegisters
  refine (writeFlags_flat hs).bind fun _ w₁ h₁ => ?_
  refine Returns.bind (Q := fun _ w' => w' = w₁.withGlobals (Executor.setNextPC nextPC))
    ⟨(), _, rfl, rfl⟩ ?_
  rintro _ w₂ rfl
  refine Returns.bind (Q := fun _ w' => w' = w₁.withGlobals (Executor.setNextPC nextPC))
    ⟨(), _, rfl, ?_⟩ ?_
  · have hdrop : c.executor.dropAlias (Executor.setNextPC nextPC w₁.globals) =
        Executor.setNextPC nextPC w₁.globals := if_neg (not_not.mpr h₁.noAlias)
    unfold World.withGlobals
    rw [hdrop]
  rintro _ w₂ rfl
  refine (writeModified_forM _ c.xed.nodup_regs _).bind fun _ w₃ ⟨hr, hm, hf, hg, ha⟩ => ?_
  refine Returns.bind (Q := fun g w' => g = w₃.globals ∧ w' = w₃) ⟨_, _, rfl, rfl, rfl⟩ ?_
  rintro _ w' ⟨rfl, hw⟩
  have hpcReg : Executor.isPC c.executor.pcReg = true := by
    rcases c.executor.pcReg_cases with h | h <;> rw [h.2] <;> rfl
  have hused : c.executor.usedPC w₃.globals = some c.executor.pcReg := by
    apply getLast?_eq_some_of_forall
    · rw [hg]
      simp only [List.mem_filter, World.withGlobals]
      exact ⟨c.xed.mem_regs _, by simp [Executor.setNextPC, Globals.setReg, h₁.usesPC, hpcReg]⟩
    · intro r hmem
      rw [hg] at hmem
      have hboth := (List.mem_filter.mp hmem).2
      rw [Bool.and_eq_true] at hboth
      exact h₁.onlyPC r (Executor.largestEnclosing_of_isPC hboth.2) hboth.1
  rw [hw, hused]
  refine ⟨(), _, rfl, Flat.ext ?_ ?_ ?_, ?_⟩
  · funext r
    change Function.update w₃.env.regs c.executor.pcReg
      (Bits.low (c.executor.width c.executor.pcReg)
        (w₃.globals.regs (c.executor.pcReg).largestEnclosing)) r = _
    change _ = (c.written w.globals nextPC w.env).regs r
    by_cases hpc : r = c.executor.pcReg
    · subst hpc
      have hrip : w₃.globals.regs .rip = Bits.put 0 64 (w₁.globals.regs .rip) nextPC := by
        rw [hg]
        simp [World.withGlobals, Executor.setNextPC, Globals.setReg]
      rw [Function.update_self, written_regs_pcReg, Executor.largestEnclosing_pcReg, Executor.width_pcReg,
        hrip]
      exact Bits.low_put_of_le c.addrSize.bits_le _ _
    · rw [Function.update_of_ne hpc, written_regs_of_ne _ _ _ hpc, hr r]
      simp only [c.xed.mem_regs r, true_and, World.withGlobals]
      have hto := h₁.toWrite r
      have hsame : (Executor.setNextPC nextPC w₁.globals).usedRegs = w₁.globals.usedRegs ∧
          (Executor.setNextPC nextPC w₁.globals).modifiedRegs = w₁.globals.modifiedRegs := ⟨rfl, rfl⟩
      rw [hsame.1, hsame.2, hto, h₁.env]
      split
      case isTrue hyes =>
        have hslot : r.largestEnclosing ≠ .rip := by
          intro hrip
          have hu : w.globals.usedRegs r = true := by simp_all
          exact hpc (hs.onlyPC r hrip hu)
        rw [Executor.setNextPC, Globals.regs_setReg, Function.update_of_ne hslot, h₁.regs]
      case isFalse => rfl
  · change w₃.env.flags = _
    rw [hf]
    change w₁.env.flags = _
    rw [h₁.env]
    rfl
  · change w₃.env.mem = _
    rw [hm]
    change w₁.env.mem = _
    rw [h₁.env]
  · have hlast : (w₃.called (w₃.env.writeReg (.reg c.executor.pcReg)
        (c.executor.width c.executor.pcReg) (w₃.globals.regs (c.executor.pcReg).largestEnclosing))
        (.writeReg (.reg c.executor.pcReg) (c.executor.width c.executor.pcReg)
          (Bits.low (c.executor.width c.executor.pcReg)
            (w₃.globals.regs (c.executor.pcReg).largestEnclosing)) true)).accesses =
        w₃.accesses := by
      simp [World.accesses, World.called, Event.isAccess]
    exact hlast.trans (ha.trans h₁.accesses)

/-! ## a whole instruction -/

/-- An instruction of scalar registers, with XED's usual order of memory operands. -/
structure Plain (c : FlatMachine) (inst : Inst) : Prop where
  supported : c.executor.usesUnsupportedFeatures inst = false
  notNop : Executor.isNop inst = false
  operand : ∀ op ∈ inst.operands, ∀ r, op.name = .reg r → (inst.reg r).isScalar = true ∧
    ((inst.reg r).largestEnclosing = .rflags → inst.rflags.isSome = true)
  base : ∀ i, ((inst.memOperand i).baseReg).isScalar = true ∧
    ((inst.memOperand i).baseReg).largestEnclosing ≠ .rflags
  index : ∀ i, ((inst.memOperand i).indexReg).isScalar = true ∧
    ((inst.memOperand i).indexReg).largestEnclosing ≠ .rflags
  noBitOp : inst.NoBitOp
  usualOrder : inst.UsualOrder

/-- What is known of the globals when an instruction is carried out. -/
structure Ready (c : FlatMachine) (e : Flat c.width) (inst : Inst) (g : Globals) : Prop where
  loaded : c.Loaded e g
  usesPC : g.usedRegs c.executor.pcReg = true
  flags : c.FlagsLoaded e inst g
  requested : c.RequestedAll inst g
  cells : c.CellsRead e inst g
  immediate : g.immediate = inst.unsignedImmediate

/-- `ReadState`, after the fetch. -/
theorem readState_flat {inst : Inst} (hp : c.Plain inst) (hw : c.Loaded w.env w.globals)
    (hpc : w.globals.usedRegs c.executor.pcReg = true) :
    Returns (c.executor.readState inst) w fun _ w' =>
      Quiet w w' ∧ c.Loaded w.env w'.globals ∧ w'.globals.usedRegs c.executor.pcReg = true ∧
        c.FlagsLoaded w.env inst w'.globals ∧ c.RequestedAll inst w'.globals ∧
        w'.globals.immediate = w.globals.immediate := by
  unfold Executor.readState
  rw [hp.supported]
  refine Returns.bind (Q := fun _ w' => w' = w) ⟨(), _, rfl, rfl⟩ ?_
  rintro _ _ rfl
  refine (readFlags_flat hw hpc).bind fun _ w₁ ⟨hq₁, hl₁, hpc₁, hf₁, hi₁⟩ => ?_
  have hl₁' : c.Loaded w₁.env w₁.globals := by
    rw [hq₁.env]
    exact hl₁
  have hop : ∀ op ∈ inst.operands, ∀ r, op.name = .reg r → c.Readable (inst.reg r) w₁.globals := by
    intro op hmem r hname
    refine ⟨(hp.operand op hmem r hname).1, fun hslot => ?_⟩
    have hname' : c.executor.widestRegister (inst.reg r) = c.flagsReg :=
      Executor.widestRegister_eq_of_slot (hp.operand op hmem r hname).1 rfl hslot
    rw [hname']
    exact hf₁.used ((hp.operand op hmem r hname).2 hslot)
  have hmem (i : Fin 2) : c.Readable (inst.memOperand i).baseReg w₁.globals ∧
      c.Readable (inst.memOperand i).indexReg w₁.globals :=
    ⟨⟨(hp.base i).1, fun h => absurd h (hp.base i).2⟩,
      ⟨(hp.index i).1, fun h => absurd h (hp.index i).2⟩⟩
  refine (readRegisters_flat hl₁' hop hmem).post fun _ w₂ ⟨hreads, hall⟩ => ?_
  obtain ⟨hq₂, hl₂, hg₂⟩ := hreads
  rw [hq₁.env] at hl₂
  exact ⟨hq₁.trans hq₂, hl₂, hg₂.used _ hpc₁, hf₁.grows hg₂, hall, hg₂.immediate.trans hi₁⟩

/-- `ReadMemory`, and what comes before it for instructions that use the FPU. -/
theorem readOperands_flat {inst : Inst} (hp : c.Plain inst) (hw : c.Loaded w.env w.globals) :
    Returns (c.executor.readOperands inst) w fun _ w' =>
      w'.env = w.env ∧ w'.accesses = w.accesses ++ readEvents inst w'.globals ∧
        SameButCells w.globals w'.globals ∧ c.CellsRead w.env inst w'.globals := by
  unfold Executor.readOperands
  refine Returns.bind (Q := fun _ w' => w' = w) ?_ ?_
  · unfold Executor.readFPUState
    refine Returns.bind (Q := fun g w' => g = w.globals ∧ w' = w) ⟨_, _, rfl, rfl, rfl⟩ ?_
    rintro _ w' ⟨rfl, hw'⟩
    rw [hw', hw.noFPU]
    exact Returns.pure rfl
  rintro _ w₁ hw₁
  rw [hw₁]
  refine Returns.bind (Q := fun _ w' => w' = w) ⟨(), _, rfl, ?_⟩ ?_
  · unfold World.withGlobals Executor.whenMMX
    rw [hw.noMMX]
    rfl
  rintro _ w₂ hw₂
  rw [hw₂]
  exact readMemory_flat hp.noBitOp hp.usualOrder w

/-- Filling the cells keeps what is known of the registers. -/
theorem Loaded.sameButCells {g g' : Globals} (h : c.Loaded e g) (hs : SameButCells g g') :
    c.Loaded e g' := by
  refine ⟨fun reg hsc hf hu => ?_, fun r hr hu => ?_, hs.usesFPU.trans h.noFPU,
    hs.usesMMX.trans h.noMMX, hs.stackPtrAlias.trans h.noAlias⟩
  · rw [hs.regs]
    rw [hs.used] at hu
    exact h.agrees reg hsc hf hu
  · rw [hs.used] at hu
    exact h.onlyPC r hr hu

theorem FlagsLoaded.sameButCells {inst : Inst} {g g' : Globals} (h : c.FlagsLoaded e inst g)
    (hs : SameButCells g g') : c.FlagsLoaded e inst g' := by
  refine ⟨fun hsome => ?_, hs.writeBackFlags.trans h.mask, fun hne => ?_, fun rf hrf f hf => ?_⟩
  · rw [hs.used]
    exact h.used hsome
  · rw [hs.modified]
    rw [hs.writeBackFlags] at hne
    exact h.modified hne
  · rw [Globals.aflag, hs.regs]
    exact h.value rf hrf f hf

theorem Requested.sameButCells {reg : Reg} {back : Bool} {g g' : Globals}
    (h : c.Requested reg back g) (hs : SameButCells g g') : c.Requested reg back g' := by
  unfold Requested
  rw [hs.used, hs.modified]
  exact h

/-- What emulation leaves settled. -/
theorem Settled.emulate {inst : Inst} {nextPC pc : Word} {g g' : Globals} (h : c.Settled g)
    (he : c.executor.emulate inst nextPC g = .emulated pc g') : c.Settled g' := by
  have hinv : Executor.Unaffected c.Settled := by
    refine ⟨fun r data g h => ?_, fun i data g h => ?_, fun r g _ h => ?_⟩
    · exact ⟨h.usesPC, h.onlyPC, h.noFPU, h.noMMX, h.noAlias, h.flags⟩
    · exact ⟨h.usesPC, h.onlyPC, h.noFPU, h.noMMX, h.noAlias, h.flags⟩
    · refine ⟨h.usesPC, h.onlyPC, h.noFPU, h.noMMX, h.noAlias, fun hne => ?_⟩
      by_cases hr : c.flagsReg = r
      · rw [← hr]
        exact Function.update_self _ _ _
      · exact (Function.update_of_ne hr _ _).trans (h.flags hne)
  exact hinv.emulate _ he h

/-- The next program counter does not depend on the cells. -/
theorem getNextPC_congr {inst : Inst} {g g' : Globals} (h : g'.regs = g.regs) :
    c.executor.getNextPC inst g' = c.executor.getNextPC inst g := by
  simp only [Executor.getNextPC, Executor.readGPR, Globals.readGPR, Globals.readValue, h]

/-- An emulated instruction acts on the environment as `Emulate` does on ready globals. -/
theorem execute_flat {inst : Inst} (hp : c.Plain inst) (hd : c.Decodes w.env inst) :
    ∃ g, c.Ready w.env inst g ∧ ∀ pc g',
      c.executor.emulate inst (c.executor.getNextPC inst g) g = .emulated pc g' →
      Returns (c.executor.execute 1) w fun _ w' =>
        w'.env = c.written g' pc w.env ∧
          w'.accesses = w.accesses ++ readEvents inst g ++ writeEvents g' := by
  obtain ⟨inst', w₁, hfetch, rfl, hq₁, hl₁, hpc₁, hi₁⟩ := fetch_flat hd
  have hl₁' : c.Loaded w₁.env w₁.globals := by
    rw [hq₁.env]
    exact hl₁
  obtain ⟨_, w₂, hstate, hq₂, hl₂, hpc₂, hf₂, hr₂, hi₂⟩ := readState_flat hp hl₁' hpc₁
  have hl₂' : c.Loaded w₂.env w₂.globals := by
    rw [hq₂.env]
    exact hl₂
  obtain ⟨_, w₃, hoperands, henv₃, hacc₃, hs₃, hc₃⟩ := readOperands_flat hp hl₂'
  have henv : w₂.env = w.env := hq₂.env.trans hq₁.env
  rw [hq₁.env] at hl₂ hf₂
  rw [henv] at hc₃ henv₃
  have hready : c.Ready w.env inst' w₃.globals := by
    refine ⟨hl₂.sameButCells hs₃, ?_, hf₂.sameButCells hs₃, ⟨?_, ?_⟩, hc₃, ?_⟩
    · rw [hs₃.used]
      exact hpc₂
    · exact fun op hop r hname => (hr₂.operand op hop r hname).sameButCells hs₃
    · exact fun i hi => ⟨(hr₂.memory i hi).1.sameButCells hs₃, (hr₂.memory i hi).2.sameButCells hs₃⟩
    · rw [hs₃.immediate, hi₂, hi₁]
  refine ⟨w₃.globals, hready, fun pc g' he => ?_⟩
  have hsettled : c.Settled g' := by
    have h : c.Settled w₃.globals := ⟨hready.usesPC, hready.loaded.onlyPC, hready.loaded.noFPU,
      hready.loaded.noMMX, hready.loaded.noAlias, hready.flags.modified⟩
    exact h.emulate he
  rw [getNextPC_congr hs₃.regs] at he
  rw [Executor.execute_one rfl]
  unfold Executor.executeInstruction
  refine Returns.bind_ok hfetch (Returns.bind_ok hstate ?_)
  refine Returns.bind (Q := fun n w' => n = pc ∧ w'.globals = g' ∧
      w'.env = { w.env with mem := (c.written g' 0 w.env).mem } ∧
      w'.accesses = w.accesses ++ readEvents inst' w₃.globals ++ writeEvents g') ?_ ?_
  · unfold Executor.perform
    have hcarry : c.executor.carryOut inst' (c.executor.getNextPC inst' w₂.globals) w₃ =
        .ok pc (w₃.withGlobals fun _ => g') := by
      unfold Executor.carryOut
      rw [run_bind_ok (run_getGlobals w₃), he]
      rfl
    refine Returns.bind_ok (run_getGlobals w₂) ?_
    rw [hp.notNop]
    refine Returns.bind_ok hoperands (Returns.bind_ok hcarry ?_)
    · refine (writeOperands_flat hsettled).bind fun _ w₄ ⟨henv₄, hg₄, hacc₄⟩ => ?_
      refine Returns.pure ⟨rfl, hg₄, ?_, ?_⟩
      · rw [henv₄]
        change _ = { w.env with mem := (c.written g' 0 w.env).mem }
        rw [show (w₃.withGlobals fun _ => g').env = w.env from henv₃]
        rfl
      · rw [hacc₄]
        change w₃.accesses ++ _ = _
        rw [hacc₃, hq₂.accesses, hq₁.accesses]
        rfl
  · rintro _ w₄ ⟨rfl, rfl, henv₄, hacc₄⟩
    refine (commit_flat hsettled _).post fun _ w₅ ⟨henv₅, hacc₅⟩ => ⟨?_, hacc₅.trans hacc₄⟩
    rw [henv₅, henv₄]
    rfl

/-! ## reading the result -/

theorem pc_written (g : Globals) (pc : Word) (e : Flat c.width) :
    c.pc (c.written g pc e) = pc.setWidth _ := by
  rw [FlatMachine.pc, written_regs_pcReg]
  apply Bits.eq_of_bits
  intro i hi
  have h64 : c.width ≤ 64 := c.addrSize.bits_le
  simp [hi, show i < 512 by omega]

variable (c) in
theorem wide_ne (r : Gpr) : c.executor.wide r ≠ c.executor.pcReg ∧ c.executor.wide r ≠ c.flagsReg ∧
    Executor.isPC (c.executor.wide r) = false := by
  have hslot : (c.executor.wide r).largestEnclosing = .gpr64 r :=
    Executor.largestEnclosing_widestRegister rfl
  refine ⟨fun h => ?_, fun h => ?_, ?_⟩
  · rw [h, Executor.largestEnclosing_pcReg] at hslot
    contradiction
  · rw [h, Executor.largestEnclosing_widestRegister rfl] at hslot
    contradiction
  · by_contra h
    have hpc := Executor.largestEnclosing_of_isPC (by simpa using h)
    rw [hslot] at hpc
    contradiction

/-- A general-purpose register after the results were written back. -/
theorem gpr_written (g : Globals) (pc : Word) (e : Flat c.width) (r : Gpr) :
    c.gpr (c.written g pc e) r =
      if g.usedRegs (c.executor.wide r) && g.modifiedRegs (c.executor.wide r) then
        c.executor.gpr g r
      else c.gpr e r := by
  obtain ⟨hpc, hflags, hnot⟩ := c.wide_ne r
  have hslot : (c.executor.wide r).largestEnclosing = .gpr64 r :=
    Executor.largestEnclosing_widestRegister rfl
  rw [FlatMachine.gpr, written_regs_of_ne _ _ _ hpc, hnot, decide_eq_true hflags, hslot]
  simp only [Bool.not_false, Bool.and_true]
  split
  · rw [Executor.width_wide]
    exact Bits.setWidth_low (Nat.le_refl _) _
  · rfl

section

variable {inst : Inst} {g g' : Globals} {nextPC pc : Word} {r : Gpr}

/-- A register that was read and marked modified is written back. -/
theorem gpr_written_of_modified (hu : g'.usedRegs (c.executor.wide r) = true)
    (hm : g'.modifiedRegs (c.executor.wide r) = true) (pc : Word) (e : Flat c.width) :
    c.gpr (c.written g' pc e) r = c.executor.gpr g' r := by
  rw [gpr_written, hu, hm]
  rfl

/-- Emulation keeps the marks. -/
theorem modified_of_emulated (he : c.executor.emulate inst nextPC g = .emulated pc g') {reg : Reg}
    (h : g.modifiedRegs reg = true) : g'.modifiedRegs reg = true := by
  have hinv : Executor.Unaffected fun g => g.modifiedRegs reg = true := by
    refine ⟨fun _ _ _ h => h, fun _ _ _ h => h, fun r g _ h => ?_⟩
    by_cases hr : reg = r
    · rw [← hr]
      exact Function.update_self _ _ _
    · exact (Function.update_of_ne hr _ _).trans h
  exact hinv.emulate _ he h

theorem used_of_emulated (he : c.executor.emulate inst nextPC g = .emulated pc g') :
    g'.usedRegs = g.usedRegs :=
  c.executor.emulate_unaffected (fun _ _ _ => rfl) (fun _ _ _ => rfl) (fun _ _ => rfl) he

/-- A register that the emulation left alone keeps its value, written back or not. -/
theorem Ready.gpr_written_of_same (h : c.Ready e inst g)
    (he : c.executor.emulate inst nextPC g = .emulated pc g')
    (hsame : c.executor.gpr g' r = c.executor.gpr g r) :
    c.gpr (c.written g' pc e) r = c.gpr e r := by
  rw [gpr_written, used_of_emulated he, hsame]
  split
  case isTrue hu =>
    rw [Bool.and_eq_true] at hu
    exact h.loaded.gpr hu.1
  case isFalse => rfl

/-- A register that was requested is used, and marked if it is to be written back. -/
theorem Requested.used {reg : Reg} {back : Bool} (h : c.Requested reg back g)
    (hr : reg.meant.family = some r) : g.usedRegs (c.executor.wide r) = true ∧
      (back = true ∨ reg.isStackOp = true → g.modifiedRegs (c.executor.wide r) = true) := by
  have hne : reg ≠ .invalid := by
    rintro rfl
    cases hr
  rw [← Executor.widestRegister_of_family hr]
  exact h hne

/-- The register an operand means has the value of the environment. -/
theorem Ready.gpr_operand (h : c.Ready e inst g) {op : Operand} (hop : op ∈ inst.operands)
    {x : RegOp} (hname : op.name = .reg x) (hr : (inst.reg x).meant.family = some r) :
    c.executor.gpr g r = c.gpr e r :=
  h.loaded.gpr ((h.requested.operand op hop x hname).used hr).1

/-- The register a written operand means is written back. -/
theorem Ready.gpr_written_operand (h : c.Ready e inst g)
    (he : c.executor.emulate inst nextPC g = .emulated pc g') {op : Operand}
    (hop : op ∈ inst.operands) {x : RegOp} (hname : op.name = .reg x)
    (hr : (inst.reg x).meant.family = some r)
    (hback : op.written = true ∨ (inst.reg x).isStackOp = true) :
    c.gpr (c.written g' pc e) r = c.executor.gpr g' r := by
  have hreq := (h.requested.operand op hop x hname).used hr
  apply gpr_written_of_modified
  · rw [used_of_emulated he]
    exact hreq.1
  · exact modified_of_emulated he (hreq.2 hback)

end

end FlatMachine

end Microx
