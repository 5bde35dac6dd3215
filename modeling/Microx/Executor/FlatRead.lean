import Microx.Executor.Flat

/-!
# Microx.Executor.FlatRead

The reading half of an instruction over a flat environment: the fetch, the
flags, and the memory operands.
-/

namespace Microx

open Hoare

namespace FlatMachine

variable {c : FlatMachine} {w : World (Flat c.width)} {e : Flat c.width}

/-! ## fetching -/

/-- A register that was read has the value of the environment. -/
theorem Loaded.setWidth_eq {g : Globals} (h : c.Loaded e g) {reg : Reg}
    (hs : reg.isScalar = true) (hf : reg.largestEnclosing ≠ .rflags)
    (hu : g.usedRegs (c.executor.widestRegister reg) = true) {n : Nat}
    (hn : n ≤ c.executor.width (c.executor.widestRegister reg)) :
    (g.regs reg.largestEnclosing).setWidth n =
      (e.regs (c.executor.widestRegister reg)).setWidth n :=
  Bits.setWidth_eq_of_low_eq (h.agrees reg hs hf hu) hn

/-- The program counter that was read. -/
theorem Loaded.getPC {g : Globals} (h : c.Loaded e g) (hu : g.usedRegs c.executor.pcReg = true) :
    c.executor.getPC g = (c.pc e).setWidth 64 := by
  have hs := c.executor.isScalar_pcReg
  have henc := c.executor.largestEnclosing_pcReg
  have hu' : g.usedRegs (c.executor.widestRegister c.executor.pcReg) = true := by
    rw [Executor.widestRegister_pcReg]
    exact hu
  have hpc := h.setWidth_eq hs (by rw [henc]; decide) hu' (n := c.width) (by
    rw [Executor.widestRegister_pcReg, Executor.width_pcReg])
  rw [henc, Executor.widestRegister_pcReg] at hpc
  rw [Executor.getPC, Executor.truncatePC_eq, Executor.readGPR_pcReg, hpc]
  exact congrArg _ (AddressSize.setWidth_setWidth _ _)

/-- The general-purpose registers that were read. -/
theorem Loaded.gpr {g : Globals} (h : c.Loaded e g) {r : Gpr}
    (hu : g.usedRegs (c.executor.wide r) = true) : c.executor.gpr g r = c.gpr e r := by
  have hs : (Reg.gpr32 r).isScalar = true := rfl
  exact h.setWidth_eq hs nofun hu (Nat.le_of_eq (c.executor.width_wide r).symm)

/-- `ReadPC`, after the reset that begins an instruction. -/
theorem readPC_flat (w : World (Flat c.width)) :
    Returns c.executor.readPC (w.withGlobals Executor.resetGlobals) fun _ w' =>
      Quiet w w' ∧ c.Loaded w.env w'.globals ∧ w'.globals.usedRegs c.executor.pcReg = true := by
  have hloaded : c.Loaded w.env ((Executor.resetGlobals w.globals).setModified c.executor.pcReg) :=
    ⟨fun _ _ _ h => Bool.noConfusion h, fun _ _ h => Bool.noConfusion h, rfl, rfl, rfl⟩
  have hpc : c.Readable c.executor.pcReg
      ((Executor.resetGlobals w.globals).setModified c.executor.pcReg) :=
    ⟨c.executor.isScalar_pcReg, fun h => by
      rw [Executor.largestEnclosing_pcReg] at h
      contradiction⟩
  have hmeant : c.executor.widestRegister (c.executor.pcReg).meant = c.executor.pcReg := by
    have hop : (c.executor.pcReg).isStackOp = false := by
      rcases c.executor.pcReg_cases with h | h <;> rw [h.2] <;> rfl
    rw [Reg.meant, hop, if_neg (by decide), Executor.widestRegister_pcReg]
  have hne : c.executor.pcReg ≠ .invalid := by
    rcases c.executor.pcReg_cases with h | h <;> rw [h.2] <;> decide
  unfold Executor.readPC
  refine Returns.bind (Q := fun _ w' => w' = (w.withGlobals Executor.resetGlobals).withGlobals
    (Globals.setModified c.executor.pcReg)) ⟨(), _, rfl, rfl⟩ fun _ w₁ hw₁ => ?_
  subst hw₁
  refine (readRegister_flat hpc hloaded).post fun _ w₂ h₂ => ?_
  have hquiet : Quiet w _ := (Quiet.withGlobals Executor.resetGlobals w).trans
    (Quiet.withGlobals (Globals.setModified c.executor.pcReg) _)
  have hused := (h₂.2 hne).1
  rw [hmeant] at hused
  exact ⟨hquiet.trans h₂.1.1, h₂.1.2.1, hused⟩

/-- The first attempt to fetch succeeds. -/
theorem fetchBytes_flat (addr : Word) (w : World (Flat c.width)) :
    c.executor.fetchBytes addr 15 w =
      .ok 15 ((w.called w.env (.readMem addr 120 .readExecutable true)).withIdata
        (Bits.put 0 120 w.idata (w.env.load addr 15))) := rfl

/-- The fetch reads the instruction at the program counter. -/
theorem fetch_flat {inst : Inst} (hd : c.Decodes w.env inst) :
    Returns c.executor.fetch w fun inst' w' =>
      inst' = inst ∧ Quiet w w' ∧ c.Loaded w.env w'.globals ∧
        w'.globals.usedRegs c.executor.pcReg = true ∧
        w'.globals.immediate = inst.unsignedImmediate := by
  unfold Executor.fetch
  refine Returns.bind (Q := fun _ w' => w' = w.withGlobals Executor.resetGlobals)
    ⟨(), _, rfl, rfl⟩ fun _ w₁ hw₁ => ?_
  subst hw₁
  refine (readPC_flat w).bind fun _ w₂ ⟨hquiet, hloaded, hused⟩ => ?_
  have haddr : c.executor.getPC w₂.globals + 0 * 0 + 0 = (c.pc w.env).setWidth 64 := by
    rw [hloaded.getPC hused]
    simp
  have hload : w₂.env.load ((c.pc w.env).setWidth 64) 15 =
      ByteMemory.load w.env.mem (c.pc w.env) 15 := by
    rw [hquiet.env, Flat.load, AddressSize.setWidth_setWidth]
  have hbytes (d : Data) : Bits.toBytes 15 (Bits.put 0 120 d
      (w₂.env.load ((c.pc w.env).setWidth 64) 15)) =
      (List.range 15).map fun i => w.env.mem (c.pc w.env + BitVec.ofNat _ i) := by
    rw [Bits.toBytes_put 15 (by decide), hload, ByteMemory.toBytes_load (by decide)]
  have hdecode (w' : World (Flat c.width)) (d : Data)
      (hd' : w'.idata = Bits.put 0 120 d (w₂.env.load ((c.pc w.env).setWidth 64) 15)) :
      c.executor.decodeInstruction 15 w' =
        .ok inst (w'.withGlobals fun g => { g with immediate := inst.unsignedImmediate }) := by
    unfold Executor.decodeInstruction
    rw [run_get_bind, hd', hbytes, show c.executor.xed.decode _ _ = _ from hd]
    rfl
  have hrun (w' : World (Flat c.width)) (henv : w'.env = w₂.env) :
      (c.executor.fetchBytes ((c.pc w.env).setWidth 64) 15 >>= c.executor.decodeInstruction) w' =
        .ok inst (((w'.called w'.env
          (.readMem ((c.pc w.env).setWidth 64) 120 .readExecutable true)).withIdata
            (Bits.put 0 120 w'.idata (w'.env.load ((c.pc w.env).setWidth 64) 15))).withGlobals
              fun g => { g with immediate := inst.unsignedImmediate }) := by
    rw [run_bind_ok (fetchBytes_flat _ _)]
    exact hdecode _ w'.idata (by rw [← henv]; rfl)
  refine Returns.bind (Q := fun g w' => g = w₂.globals ∧ w' = w₂) ⟨_, _, rfl, rfl, rfl⟩ ?_
  rintro _ w₂' ⟨rfl, hw₂⟩
  rw [hw₂]
  refine Returns.bind (Q := fun a w' => a = (c.pc w.env).setWidth 64 ∧ Quiet w₂ w' ∧
    w'.globals = w₂.globals) ⟨_, _, rfl, haddr, Quiet.called rfl, rfl⟩ ?_
  rintro _ w₃ ⟨rfl, hquiet₃, hglobals⟩
  refine ⟨inst, _, hrun w₃ hquiet₃.env, rfl, ?_, ?_, ?_, rfl⟩
  · exact ((hquiet.trans hquiet₃).trans (Quiet.called rfl)).trans ⟨rfl, rfl⟩
  · rw [← hglobals] at hloaded
    exact ⟨hloaded.agrees, hloaded.onlyPC, hloaded.noFPU, hloaded.noMMX, hloaded.noAlias⟩
  · rw [← hglobals] at hused
    exact hused

/-! ## flags -/

/-- The register the flags are in. -/
abbrev flagsReg (c : FlatMachine) : Reg := c.executor.widestRegister .eflags

/-- What is known of the flags once they were read. -/
structure FlagsLoaded (c : FlatMachine) (e : Flat c.width) (inst : Inst) (g : Globals) : Prop where
  used : inst.rflags.isSome = true → g.usedRegs c.flagsReg = true
  mask : g.writeBackFlags = (inst.rflags.map Executor.writeMask).getD 0
  modified : g.writeBackFlags ≠ 0 → g.modifiedRegs c.flagsReg = true
  value : ∀ rf, inst.rflags = some rf → ∀ f : Flag, f.get (Executor.readMask rf) = true →
    f.get g.aflag = e.flags f

theorem FlagsLoaded.grows {inst : Inst} {g g' : Globals} (h : c.FlagsLoaded e inst g)
    (hg : Grows g g') : c.FlagsLoaded e inst g' where
  used hs := hg.used _ (h.used hs)
  mask := by rw [hg.writeBackFlags, h.mask]
  modified hne := hg.modified _ (h.modified (by rwa [hg.writeBackFlags] at hne))
  value rf hrf f hf := by
    rw [Globals.aflag, hg.rflags]
    exact h.value rf hrf f hf

/-- The flags that are read take their values from the environment, the others keep theirs. -/
theorem readFlagLoop_flat (mask : Word) (fs : List Flag) :
    ∀ (data : Data) (aflag : Word) (w : World (Flat c.width)),
      Returns (c.executor.readFlagLoop mask fs data aflag) w fun flags w' =>
        Quiet w w' ∧ w'.globals = w.globals ∧
          ∀ f : Flag, f.get flags = if f ∈ fs ∧ f.get mask = true then w.env.flags f else f.get aflag := by
  induction fs with
  | nil => exact fun data aflag w => Returns.pure ⟨Quiet.refl w, rfl, by simp⟩
  | cons f fs ih =>
      intro data aflag w
      unfold Executor.readFlagLoop
      cases hmask : f.get mask with
      | false =>
          rw [if_neg (by decide)]
          refine (ih data aflag w).post fun flags w' h => ⟨h.1, h.2.1, fun f' => ?_⟩
          rw [h.2.2 f']
          by_cases hf : f' = f
          · subst hf
            simp [hmask]
          · simp [hf]
      | true =>
          rw [if_pos rfl]
          have hread : (Bits.put 0 1 data (BitVec.ofBool (w.env.flags f))).getLsbD 0 =
              w.env.flags f := by
            rw [Bits.getLsbD_put 0 1 _ _ 0 (by decide)]
            simp
          refine Returns.bind (Q := fun r w' => r.1 = true ∧ r.2.getLsbD 0 = w.env.flags f ∧
            Quiet w w' ∧ w'.globals = w.globals)
            ⟨_, _, rfl, rfl, hread, Quiet.called rfl, rfl⟩ fun r w₁ h₁ => ?_
          rw [if_pos h₁.1, h₁.2.1]
          refine (ih _ _ w₁).post fun flags w' h => ?_
          refine ⟨h₁.2.2.1.trans h.1, h.2.1.trans h₁.2.2.2, fun f' => ?_⟩
          rw [h.2.2 f', h₁.2.2.1.env, Flag.get_set]
          by_cases hf : f' = f
          · subst hf
            simp [hmask]
          · simp [hf]

theorem noteFlags_usedRegs (rf : RFlagsInfo) (g : Globals) (r : Reg) :
    (c.executor.noteFlags rf g).usedRegs r = true ↔ r = c.flagsReg ∨ g.usedRegs r = true := by
  rw [Executor.noteFlags_usedRegs]
  by_cases hr : r = c.flagsReg
  · simp [hr]
  · simp [hr]

/-- Marking the flags used has no effect on what else is loaded. -/
theorem Loaded.noteFlags {g : Globals} (h : c.Loaded e g) (rf : RFlagsInfo) :
    c.Loaded e (c.executor.noteFlags rf g) := by
  have hflags : (c.flagsReg).largestEnclosing = .rflags :=
    Executor.largestEnclosing_widestRegister rfl
  have hsame : (c.executor.noteFlags rf g).usesFPU = g.usesFPU ∧
      (c.executor.noteFlags rf g).usesMMX = g.usesMMX ∧
      (c.executor.noteFlags rf g).stackPtrAlias = g.stackPtrAlias := by
    unfold Executor.noteFlags
    dsimp only
    split <;> exact ⟨rfl, rfl, rfl⟩
  refine ⟨fun reg hs hf hu => ?_, fun r hr hu => ?_, hsame.1.trans h.noFPU,
    hsame.2.1.trans h.noMMX, hsame.2.2.trans h.noAlias⟩
  · have hne : c.executor.widestRegister reg ≠ c.flagsReg := by
      intro heq
      apply hf
      rw [← hflags, ← heq, Executor.largestEnclosing_widestRegister hs]
    rw [Executor.noteFlags_regs]
    exact h.agrees reg hs hf (((noteFlags_usedRegs rf g _).mp hu).resolve_left hne)
  · have hne : r ≠ c.flagsReg := by
      rintro rfl
      rw [hflags] at hr
      contradiction
    exact h.onlyPC r hr (((noteFlags_usedRegs rf g _).mp hu).resolve_left hne)

@[simp] theorem aflag_setAflag (val : Word) (g : Globals) : (g.setAflag val).aflag = val := by
  rw [Globals.aflag, Globals.setAflag, Globals.regs_setReg, Function.update_self,
    Bits.setWidth_put (by decide) (by decide), BitVec.setWidth_eq]

/-- What the environment has does not depend on the flags of the executor. -/
theorem Loaded.setAflag {g : Globals} (h : c.Loaded e g) (val : Word) :
    c.Loaded e (g.setAflag val) := by
  refine ⟨fun reg hs hf hu => ?_, h.onlyPC, h.noFPU, h.noMMX, h.noAlias⟩
  rw [Globals.setAflag, Globals.regs_setReg, Function.update_of_ne hf]
  exact h.agrees reg hs hf hu

/-- `ReadFlags` reads the flags the instruction needs. -/
theorem readFlags_flat {inst : Inst} (hw : c.Loaded w.env w.globals)
    (hpc : w.globals.usedRegs c.executor.pcReg = true) :
    Returns (c.executor.readFlags inst) w fun _ w' =>
      Quiet w w' ∧ c.Loaded w.env w'.globals ∧ w'.globals.usedRegs c.executor.pcReg = true ∧
        c.FlagsLoaded w.env inst w'.globals ∧ w'.globals.immediate = w.globals.immediate := by
  have hclear : c.Loaded w.env { w.globals with writeBackFlags := 0 } :=
    ⟨hw.agrees, hw.onlyPC, hw.noFPU, hw.noMMX, hw.noAlias⟩
  unfold Executor.readFlags
  refine Returns.bind (Q := fun _ w' => w' = w.withGlobals fun g => { g with writeBackFlags := 0 })
    ⟨(), _, rfl, rfl⟩ fun _ w₁ hw₁ => ?_
  subst hw₁
  cases hrf : inst.rflags with
  | none =>
      refine Returns.pure ⟨Quiet.withGlobals _ w, hclear, hpc, ⟨?_, ?_, ?_, ?_⟩, rfl⟩
      · simp [hrf]
      · simp [hrf, World.withGlobals]
      · exact fun hne => absurd rfl hne
      · simp [hrf]
  | some rf =>
      have hmask := c.executor.noteFlags_writeBackFlags rf { w.globals with writeBackFlags := 0 }
      have hmod (hne : Executor.writeMask rf ≠ 0) :=
        c.executor.noteFlags_modifiedRegs rf { w.globals with writeBackFlags := 0 } hne
      have himm : (c.executor.noteFlags rf { w.globals with writeBackFlags := 0 }).immediate =
          w.globals.immediate := by
        unfold Executor.noteFlags
        dsimp only
        split <;> rfl
      have hnoted := hclear.noteFlags rf
      have hflags := (noteFlags_usedRegs (c := c) rf { w.globals with writeBackFlags := 0 } _).mpr
        (.inl rfl)
      have hpc' := (noteFlags_usedRegs (c := c) rf { w.globals with writeBackFlags := 0 } _).mpr
        (.inr hpc)
      refine Returns.bind (Q := fun _ w' => Quiet w w' ∧ w'.globals =
        c.executor.noteFlags rf { w.globals with writeBackFlags := 0 })
        ⟨(), _, rfl, ⟨rfl, rfl⟩, rfl⟩ fun _ w₂ ⟨hq₂, hg₂⟩ => ?_
      refine Returns.bind (Q := fun _ w' => Quiet w₂ w' ∧ w'.globals = w₂.globals)
        ⟨_, _, rfl, ⟨rfl, rfl⟩, rfl⟩ fun host w₃ ⟨hq₃, hg₃⟩ => ?_
      refine (readFlagLoop_flat (Executor.readMask rf) Flag.all 0 host w₃).bind
        fun flags w₄ ⟨hq₄, hg₄, hread⟩ => ?_
      have hg : w₄.globals = c.executor.noteFlags rf { w.globals with writeBackFlags := 0 } := by
        rw [hg₄, hg₃, hg₂]
      have henv : w₃.env = w.env := hq₃.env.trans hq₂.env
      have hquiet := ((hq₂.trans hq₃).trans hq₄).trans (Quiet.withGlobals (Globals.setAflag flags) w₄)
      refine ⟨(), w₄.withGlobals (Globals.setAflag flags), rfl, hquiet, ?_⟩
      rw [← hg] at hmask hmod himm hnoted hflags hpc'
      refine ⟨hnoted.setAflag flags, hpc', ⟨fun _ => hflags, ?_, ?_, fun rf' hrf' f hf => ?_⟩, himm⟩
      · rw [hrf]
        exact hmask
      · intro hne
        exact hmod (by rwa [← hmask])
      · obtain rfl : rf = rf' := by simpa [hrf] using hrf'
        have hall := hread f
        rw [if_pos ⟨f.mem_all, hf⟩, henv] at hall
        simpa [World.withGlobals] using hall

/-! ## memory -/

end FlatMachine

namespace Inst

/-- No form of `BT`, `BTS`, `BTC` or `BTR` with a memory operand. -/
def NoBitOp (inst : Inst) : Prop :=
  ∀ op lock, inst.iform ≠ .bitMEMvIMMb op lock ∧ inst.iform ≠ .bitMEMvGPRv op lock

/-- XED's usual order of memory operands. -/
def UsualOrder (inst : Inst) : Prop :=
  inst.memoryOperands.map (·.name) ∈
    [[], [OperandName.agen], [OperandName.mem0], [OperandName.mem0, OperandName.mem1]]

end Inst

namespace Executor

variable {σ : Type} (ex : Executor σ)

/-- The adjustment of a displacement, where it does not depend on a register. -/
def adjustment (inst : Inst) (i : Fin 2) : Word := (ex.adjustDisplacement inst i Globals.zero).1

/-- Only bit operations look at a register to adjust a displacement, and change it. -/
theorem adjustDisplacement_eq {inst : Inst} (h : inst.NoBitOp) (i : Fin 2) (g : Globals) :
    ex.adjustDisplacement inst i g = (ex.adjustment inst i, g) := by
  unfold adjustment adjustDisplacement
  split
  case h_12 => split <;> rfl
  case h_13 hform => exact absurd hform (h _ _).1
  case h_14 hform => exact absurd hform (h _ _).2
  all_goals rfl

/-- A cell before there is an address, where the adjustment depends on no register. -/
def describedCell (inst : Inst) (op : Operand) (i : Fin 2) (g : Globals) : Cell :=
  let memop := inst.memOperand i
  { g.memory i with
    present := true
    writeBack := op.written
    opName := op.name
    segReg := segmentReg memop
    baseReg := memop.baseReg
    indexReg := memop.indexReg
    base := ex.memBase inst memop g
    index := ex.readGPR memop.indexReg g
    scale := memop.scale
    displacement := memop.displacement + ex.adjustment inst i }

theorem describeCell_eq {inst : Inst} (h : inst.NoBitOp) (op : Operand) (i : Fin 2) (g : Globals) :
    ex.describeCell inst op i g = g.setCell i (ex.describedCell inst op i g) := by
  unfold describeCell
  rw [adjustDisplacement_eq _ h]
  rfl

end Executor

theorem Globals.memory_setCell_self (i : Fin 2) (cell : Cell) (g : Globals) :
    (g.setCell i cell).memory i = cell := Function.update_self _ _ _

theorem Globals.memory_setCell_of_ne {i j : Fin 2} (h : j ≠ i) (cell : Cell) (g : Globals) :
    (g.setCell i cell).memory j = g.memory j := Function.update_of_ne h _ _

namespace FlatMachine

variable {c : FlatMachine} {w : World (Flat c.width)} {e : Flat c.width}

/-! ## memory -/

/-- The effective address of a memory operand. -/
def effectiveAddress (c : FlatMachine) (inst : Inst) (i : Fin 2) (g : Globals) : Word :=
  let memop := inst.memOperand i
  Executor.truncateAddress memop.addressWidth
    (c.executor.memBase inst memop g + c.executor.readGPR memop.indexReg g * memop.scale +
      (memop.displacement + c.executor.adjustment inst i))

/-- A cell that holds what the environment has at its address. -/
structure CellRead (c : FlatMachine) (e : Flat c.width) (inst : Inst) (op : Operand) (i : Fin 2)
    (g : Globals) : Prop where
  present : (g.memory i).present = true
  writeBack : (g.memory i).writeBack = op.written
  address : (g.memory i).address = c.effectiveAddress inst i g
  size : (g.memory i).size = 8 * (inst.memOperand i).length
  data : op.name ≠ .agen →
    (g.memory i).data = e.load (g.memory i).address (inst.memOperand i).length

/-- Changing the cells has no effect on the registers. -/
theorem effectiveAddress_congr {inst : Inst} {i : Fin 2} {g g' : Globals} (h : g'.regs = g.regs) :
    c.effectiveAddress inst i g' = c.effectiveAddress inst i g := by
  have hread (r : Reg) : c.executor.readGPR r g' = c.executor.readGPR r g := by
    simp only [Executor.readGPR, Globals.readGPR, Globals.readValue, h]
  simp only [effectiveAddress, Executor.memBase, hread]

/-- `g'` differs from `g` in its cells only. -/
structure SameButCells (g g' : Globals) : Prop where
  regs : g'.regs = g.regs
  used : g'.usedRegs = g.usedRegs
  modified : g'.modifiedRegs = g.modifiedRegs
  writeBackFlags : g'.writeBackFlags = g.writeBackFlags
  immediate : g'.immediate = g.immediate
  usesFPU : g'.usesFPU = g.usesFPU
  usesMMX : g'.usesMMX = g.usesMMX
  stackPtrAlias : g'.stackPtrAlias = g.stackPtrAlias

namespace SameButCells

theorem trans {g₁ g₂ g₃ : Globals} (h : SameButCells g₁ g₂) (h' : SameButCells g₂ g₃) :
    SameButCells g₁ g₃ where
  regs := h'.regs.trans h.regs
  used := h'.used.trans h.used
  modified := h'.modified.trans h.modified
  writeBackFlags := h'.writeBackFlags.trans h.writeBackFlags
  immediate := h'.immediate.trans h.immediate
  usesFPU := h'.usesFPU.trans h.usesFPU
  usesMMX := h'.usesMMX.trans h.usesMMX
  stackPtrAlias := h'.stackPtrAlias.trans h.stackPtrAlias

end SameButCells

theorem CellRead.congr {inst : Inst} {op : Operand} {i : Fin 2} {g g' : Globals}
    (h : c.CellRead e inst op i g) (hs : SameButCells g g') (hm : g'.memory i = g.memory i) :
    c.CellRead e inst op i g' := by
  refine ⟨?_, ?_, ?_, ?_, ?_⟩
  · rw [hm, h.present]
  · rw [hm, h.writeBack]
  · rw [hm, h.address, effectiveAddress_congr hs.regs]
  · rw [hm, h.size]
  · rw [hm]
    exact h.data

/-- The read of a memory operand. -/
def readEvent (op : Operand) (cell : Cell) : List Event :=
  if op.name = .agen then [] else [.readMem cell.address cell.size (Executor.memHint op) true]

theorem isAccess_memHint (op : Operand) (addr : Word) (size : Nat) (ok : Bool) :
    (Event.readMem addr size (Executor.memHint op) ok).isAccess = true := by
  unfold Executor.memHint Event.isAccess
  split_ifs <;> rfl

/-- From `w` to `w'` the cell of a memory operand got its address. -/
structure Located (c : FlatMachine) (inst : Inst) (op : Operand) (i : Fin 2)
    (w w' : World (Flat c.width)) : Prop where
  quiet : Quiet w w'
  same : SameButCells w.globals w'.globals
  other : ∀ j, j ≠ i → w'.globals.memory j = w.globals.memory j
  present : (w'.globals.memory i).present = true
  writeBack : (w'.globals.memory i).writeBack = op.written
  address : (w'.globals.memory i).address = c.effectiveAddress inst i w.globals
  size : (w'.globals.memory i).size = 8 * (inst.memOperand i).length
  data : (w'.globals.memory i).data = 0

/-- What reading a memory operand does. -/
structure OperandRead (c : FlatMachine) (inst : Inst) (op : Operand) (i : Fin 2)
    (w w' : World (Flat c.width)) : Prop where
  env : w'.env = w.env
  accesses : w'.accesses = w.accesses ++ readEvent op (w'.globals.memory i)
  same : SameButCells w.globals w'.globals
  other : ∀ j, j ≠ i → w'.globals.memory j = w.globals.memory j
  cell : c.CellRead w.env inst op i w'.globals

/-- `ReadMem` for a cell always succeeds. -/
theorem readCell_run (hint : MemRequestHint) (i : Fin 2) (w : World (Flat c.width)) :
    c.executor.readCell hint i w =
      .ok () ((w.called w.env (.readMem (w.globals.memory i).address (w.globals.memory i).size hint
        true)).withGlobals (Globals.setData i (Bits.put 0 (w.globals.memory i).size
          (w.globals.memory i).data (w.env.load (w.globals.memory i).address
            ((w.globals.memory i).size / 8))))) := rfl

/-- The end of `ReadMemory`, for an operand whose cell has its address. -/
theorem readLocated_flat {inst : Inst} {op : Operand} {i : Fin 2} {w' : World (Flat c.width)}
    (h : c.Located inst op i w w') :
    Returns (if op.name = .agen then pure () else c.executor.readCell (Executor.memHint op) i) w'
      fun _ w'' => c.OperandRead inst op i w w'' := by
  have heff : c.effectiveAddress inst i w'.globals = c.effectiveAddress inst i w.globals :=
    effectiveAddress_congr h.same.regs
  split
  case isTrue hagen =>
    refine Returns.pure ⟨h.quiet.env, ?_, h.same, h.other, ?_⟩
    · rw [readEvent, if_pos hagen, List.append_nil, h.quiet.accesses]
    · exact ⟨h.present, h.writeBack, h.address.trans heff.symm, h.size, fun hne => absurd hagen hne⟩
  case isFalse hagen =>
    have hdata : Bits.put 0 (w'.globals.memory i).size (w'.globals.memory i).data
        (w'.env.load (w'.globals.memory i).address ((w'.globals.memory i).size / 8)) =
        w.env.load (w'.globals.memory i).address (inst.memOperand i).length := by
      rw [h.size, h.data, Nat.mul_div_cancel_left _ (by decide), h.quiet.env]
      exact (Bits.put_zero _ _).trans ByteMemory.low_load
    refine ⟨(), _, readCell_run _ i w', ?_⟩
    rw [hdata]
    have hself (d : Data) : (w'.globals.setData i d).memory i =
        { w'.globals.memory i with data := d } := Globals.memory_setCell_self _ _ _
    refine ⟨h.quiet.env, ?_, h.same.trans ⟨rfl, rfl, rfl, rfl, rfl, rfl, rfl, rfl⟩, fun j hj => ?_, ?_⟩
    · have hsofar : w'.trace.filter Event.isAccess = w.trace.filter Event.isAccess :=
        h.quiet.accesses
      simp [World.accesses, World.withGlobals, World.called, isAccess_memHint, readEvent, hagen,
        hself, hsofar]
    · exact (Globals.memory_setCell_of_ne hj _ _).trans (h.other j hj)
    · have hregs (d : Data) : c.effectiveAddress inst i (w'.globals.setData i d) =
          c.effectiveAddress inst i w.globals := (effectiveAddress_congr rfl).trans heff
      refine ⟨?_, ?_, ?_, ?_, fun _ => ?_⟩
      all_goals simp only [World.withGlobals, World.called, hself, hregs]
      · exact h.present
      · exact h.writeBack
      · exact h.address
      · exact h.size

/-- A memory operand is read into its cell. -/
theorem readMemoryOperand_flat {inst : Inst} (hbit : inst.NoBitOp) (op : Operand) (i : Fin 2)
    (w : World (Flat c.width)) :
    Returns (c.executor.readMemoryOperand inst op i) w fun _ w' =>
      c.OperandRead inst op i w w' := by
  have hdesc := c.executor.describeCell_eq hbit op i w.globals
  have haddr : Executor.truncateAddress (inst.memOperand i).addressWidth
      ((c.executor.describedCell inst op i w.globals).base +
        (c.executor.describedCell inst op i w.globals).index *
          (c.executor.describedCell inst op i w.globals).scale +
        (c.executor.describedCell inst op i w.globals).displacement) =
      c.effectiveAddress inst i w.globals := rfl
  have hpresent : (c.executor.describedCell inst op i w.globals).present = true := rfl
  have hback : (c.executor.describedCell inst op i w.globals).writeBack = op.written := rfl
  generalize c.executor.describedCell inst op i w.globals = cell at hdesc haddr hpresent hback
  have hplace : Executor.placeCell (inst.memOperand i) i
      (cell.base + cell.index * cell.scale + cell.displacement) (w.globals.setCell i cell) =
      (w.globals.setCell i cell).setCell i
        { cell with
          address := c.effectiveAddress inst i w.globals
          size := 8 * (inst.memOperand i).length
          data := 0 } := by
    unfold Executor.placeCell
    rw [Globals.memory_setCell_self, haddr]
  unfold Executor.readMemoryOperand
  refine Returns.bind (Q := fun _ w' => Quiet w w' ∧ w'.globals = w.globals.setCell i cell)
    ⟨(), _, rfl, Quiet.withGlobals _ w, hdesc⟩ ?_
  rintro _ w₁ ⟨hq₁, hg₁⟩
  refine Returns.bind (Q := fun g w' => g = w₁.globals ∧ w' = w₁) ⟨_, _, rfl, rfl, rfl⟩ ?_
  rintro _ w₁' ⟨rfl, hw₁⟩
  rw [hw₁, hg₁, Globals.memory_setCell_self]
  refine Returns.bind (Q := fun a w' => a = cell.base + cell.index * cell.scale + cell.displacement ∧
    Quiet w w' ∧ w'.globals = w.globals.setCell i cell)
    ⟨_, _, rfl, rfl, hq₁.trans (Quiet.called rfl), hg₁⟩ ?_
  rintro _ w₂ ⟨rfl, hq₂, hg₂⟩
  refine Returns.bind (Q := fun _ w' => c.Located inst op i w w') ⟨(), _, rfl, ?_⟩
    fun _ w₃ h₃ => readLocated_flat h₃
  have hg₃ : (w₂.withGlobals (Executor.placeCell (inst.memOperand i) i
      (cell.base + cell.index * cell.scale + cell.displacement))).globals = _ :=
    (congrArg _ hg₂).trans hplace
  refine ⟨hq₂.trans (Quiet.withGlobals _ w₂), ?_, fun j hj => ?_, ?_, ?_, ?_, ?_, ?_⟩
  all_goals rw [hg₃]
  · exact ⟨rfl, rfl, rfl, rfl, rfl, rfl, rfl, rfl⟩
  · rw [Globals.memory_setCell_of_ne hj, Globals.memory_setCell_of_ne hj]
  · rw [Globals.memory_setCell_self, hpresent]
  · rw [Globals.memory_setCell_self, hback]
  all_goals rw [Globals.memory_setCell_self]

/-- What is known of the cells once the memory was read. -/
def CellsRead (c : FlatMachine) (e : Flat c.width) (inst : Inst) (g : Globals) : Prop :=
  ∀ i : Fin 2, match inst.memoryOperands[i.val]? with
    | some op => c.CellRead e inst op i g
    | none => (g.memory i).present = false

/-- The reads of an instruction's memory operands. -/
def readEvents (inst : Inst) (g : Globals) : List Event :=
  (List.finRange 2).flatMap fun i => match inst.memoryOperands[i.val]? with
    | some op => readEvent op (g.memory i)
    | none => []

/-- Operands that are not in memory are skipped. -/
theorem readMemoryAt_of_not_isMemory (inst : Inst) (op : Operand) (h : op.name.isMemory = false) :
    c.executor.readMemoryAt inst op = pure () := by
  unfold Executor.readMemoryAt
  cases hname : op.name <;> simp_all [OperandName.isMemory]

/-- `ReadMemory` fills the cells. -/
theorem readMemory_flat {inst : Inst} (hbit : inst.NoBitOp) (horder : inst.UsualOrder)
    (w : World (Flat c.width)) :
    Returns (c.executor.readMemory inst) w fun _ w' =>
      w'.env = w.env ∧ w'.accesses = w.accesses ++ readEvents inst w'.globals ∧
        SameButCells w.globals w'.globals ∧ c.CellsRead w.env inst w'.globals := by
  unfold Executor.readMemory
  refine Returns.bind (Q := fun _ w' => Quiet w w' ∧ SameButCells w.globals w'.globals ∧
    ∀ i, (w'.globals.memory i).present = false)
    ⟨(), _, rfl, Quiet.withGlobals _ w, ⟨rfl, rfl, rfl, rfl, rfl, rfl, rfl, rfl⟩, fun _ => rfl⟩ ?_
  rintro _ w₁ ⟨hq₁, hs₁, habsent⟩
  rw [forM_filter (readMemoryAt_of_not_isMemory inst)]
  change Returns (inst.memoryOperands.forM _) _ _
  have hone (op : Operand) (hname : op.name = .agen ∨ op.name = .mem0) :
      c.executor.readMemoryAt inst op = c.executor.readMemoryOperand inst op 0 := by
    unfold Executor.readMemoryAt
    rcases hname with h | h <;> rw [h]
  have htwo (op : Operand) (hname : op.name = .mem1) :
      c.executor.readMemoryAt inst op = c.executor.readMemoryOperand inst op 1 := by
    unfold Executor.readMemoryAt
    rw [hname]
  unfold Inst.UsualOrder at horder
  unfold CellsRead readEvents
  have hrange : List.finRange 2 = [0, 1] := rfl
  match hops : inst.memoryOperands with
  | [] =>
      refine Returns.pure ⟨hq₁.env, ?_, hs₁, fun i => habsent i⟩
      simp [hrange, hq₁.accesses]
  | [op] =>
      have hname : op.name = .agen ∨ op.name = .mem0 := by simpa [hops] using horder
      have hread := readMemoryOperand_flat hbit op 0 w₁
      rw [← hone op hname] at hread
      refine hread.bind fun _ w₂ h₂ => Returns.pure ⟨h₂.env.trans hq₁.env, ?_, hs₁.trans h₂.same, ?_⟩
      · simp [hrange, h₂.accesses, hq₁.accesses]
      · rw [Fin.forall_fin_two]
        have hcell := h₂.cell
        rw [hq₁.env] at hcell
        exact ⟨hcell, by rw [h₂.other 1 (by decide)]; exact habsent 1⟩
  | [op₀, op₁] =>
      have hname : op₀.name = .mem0 ∧ op₁.name = .mem1 := by simpa [hops] using horder
      have hfirst := readMemoryOperand_flat hbit op₀ 0 w₁
      rw [← hone op₀ (.inr hname.1)] at hfirst
      refine hfirst.bind fun _ w₂ h₂ => ?_
      have hsecond := readMemoryOperand_flat hbit op₁ 1 w₂
      rw [← htwo op₁ hname.2] at hsecond
      refine hsecond.bind fun _ w₃ h₃ => ?_
      have hkept : w₃.globals.memory 0 = w₂.globals.memory 0 := h₃.other 0 (by decide)
      have hcell₀ := h₂.cell.congr h₃.same hkept
      have hcell₁ := h₃.cell
      rw [hq₁.env] at hcell₀
      rw [h₂.env, hq₁.env] at hcell₁
      refine Returns.pure ⟨h₃.env.trans (h₂.env.trans hq₁.env), ?_,
        hs₁.trans (h₂.same.trans h₃.same), ?_⟩
      · simp [hrange, h₃.accesses, h₂.accesses, hq₁.accesses, hkept]
      · rw [Fin.forall_fin_two]
        exact ⟨hcell₀, hcell₁⟩
  | op₀ :: op₁ :: op₂ :: ops => simp [hops] at horder

end FlatMachine

end Microx
