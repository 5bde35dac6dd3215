import Microx.Executor.Execute
import Microx.Executor.SubRegister
import Microx.Lib.ByteMemory

/-!
# Microx.Executor.Flat

An environment of registers, condition codes and a flat memory, in which every
access succeeds, and what an emulated instruction does to it.

The globals an instruction starts with are arbitrary.  `Ready` says what is
known of them once the instruction has read its operands; `written` is the
environment after the results are written back.  `execute_flat` joins the two
halves: an emulated instruction without FPU or vector registers acts on the
environment as `Emulate` does on ready globals.
-/

namespace Microx

open Hoare

/-! ## the environment -/

/-- Registers by name, condition codes, and a memory of `2 ^ w` bytes. -/
@[ext] structure Flat (w : Nat) where
  regs : Reg → Data
  flags : Flag → Bool
  mem : BitVec w → Byte

namespace Flat

variable {w : Nat} (e : Flat w)

/-- Fill a buffer with a register or a flag. -/
def readReg (name : RegName) (size : Nat) (data : Data) : Data :=
  match name with
  | .reg r => Bits.put 0 size data (e.regs r)
  | .flag f => Bits.put 0 1 data (BitVec.ofBool (e.flags f))

def writeReg (name : RegName) (size : Nat) (data : Data) : Flat w :=
  match name with
  | .reg r => { e with regs := Function.update e.regs r (Bits.low size data) }
  | .flag f => { e with flags := Function.update e.flags f (data.getLsbD 0) }

/-- The `n` bytes at an address. -/
def load (addr : Word) (n : Nat) : Data := ByteMemory.load e.mem (addr.setWidth w) n

def store (addr : Word) (n : Nat) (data : Data) : Flat w :=
  { e with mem := ByteMemory.store e.mem (addr.setWidth w) n data }

end Flat

/-- A library and a processor for an executor over a flat memory. -/
structure FlatMachine where
  xed : Xed
  cpu : Cpu
  addrSize : AddressSize
  hasAVX : Bool
  hasAVX512 : Bool

namespace FlatMachine

variable (c : FlatMachine)

/-- The width of addresses. -/
abbrev width : Nat := c.addrSize.bits

/-- The executor; all segments start at zero. -/
abbrev executor : Executor (Flat c.width) where
  xed := c.xed
  cpu := c.cpu
  isInitialized := true
  addrSize := c.addrSize
  hasAVX := c.hasAVX
  hasAVX512 := c.hasAVX512
  computeAddress _ base index scale disp _ _ e := (base + index * scale + disp, e)
  readReg name size _ data e := (true, e.readReg name size data, e)
  writeReg name size data e := (true, e.writeReg name size data)
  readMem addr size _ data e := (true, Bits.put 0 size data (e.load addr (size / 8)), e)
  writeMem addr size data e := (true, e.store addr (size / 8) data)
  readFPU fpu e := (true, fpu, e)
  writeFPU _ e := (true, e)
  clearError e := e

/-- The program counter of an environment. -/
def pc (e : Flat c.width) : BitVec c.width := (e.regs c.executor.pcReg).setWidth _

/-- A general-purpose register of an environment, as wide as the mode has it. -/
def gpr (e : Flat c.width) (r : Gpr) : BitVec c.width := (e.regs (c.executor.wide r)).setWidth _

/-- The library decodes the bytes at the program counter. -/
def Decodes (e : Flat c.width) (inst : Inst) : Prop :=
  c.xed.decode c.addrSize ((List.range 15).map fun i => e.mem (c.pc e + BitVec.ofNat _ i)) =
    some inst

end FlatMachine

/-! ## scalar registers -/

namespace Reg

/-- No part of the FPU, and no vector register. -/
def isScalar : Reg → Bool
  | .x87 _ | .pseudoX87 _ | .mmx _ | .xmm _ | .ymm _ | .zmm _ => false
  | _ => true

/-- The register that is meant by a register operand. -/
def meant (reg : Reg) : Reg := if reg.isStackOp then .gpr32 .rsp else reg

end Reg

namespace Executor

variable {σ : Type} (ex : Executor σ)

/-- The name under which the register in a slot is requested. -/
def slotName (slot : Reg) : Reg :=
  match ex.addrSize with
  | .x64 => slot
  | .x32 => slot.largestEnclosing32

variable {ex} {reg : Reg}

theorem widestRegister_scalar (h : reg.isScalar = true) :
    ex.widestRegister reg = ex.slotName reg.largestEnclosing := by
  unfold widestRegister slotName
  cases ex.addrSize <;> cases reg <;>
    simp_all [Reg.isScalar, Reg.largestEnclosing, Reg.largestEnclosing32, Reg.withoutAVX512,
      Reg.withoutAVX]

/-- Scalar registers in one slot have one name. -/
theorem widestRegister_eq_of_slot {reg' : Reg} (h : reg.isScalar = true)
    (h' : reg'.isScalar = true) (hs : reg.largestEnclosing = reg'.largestEnclosing) :
    ex.widestRegister reg = ex.widestRegister reg' := by
  rw [widestRegister_scalar h, widestRegister_scalar h', hs]

/-- All parts of a general-purpose register have one name. -/
theorem widestRegister_of_family {r : Gpr} (h : reg.family = some r) :
    ex.widestRegister reg = ex.wide r := by
  have hs : reg.isScalar = true := by cases reg <;> simp_all [Reg.family, Reg.isScalar]
  exact widestRegister_eq_of_slot hs rfl (Reg.largestEnclosing_of_family h)

/-- The name of a register is in its slot. -/
theorem largestEnclosing_widestRegister (h : reg.isScalar = true) :
    (ex.widestRegister reg).largestEnclosing = reg.largestEnclosing := by
  rw [widestRegister_scalar h]
  unfold slotName
  cases ex.addrSize <;> cases reg <;>
    simp_all [Reg.isScalar, Reg.largestEnclosing, Reg.largestEnclosing32]

variable (ex) in
theorem pcReg_eq_slotName : ex.pcReg = ex.slotName .rip := by
  rw [pcReg, widestRegister_scalar rfl]
  rfl

variable (ex) in
theorem pcReg_cases :
    (ex.addrSize = .x64 ∧ ex.pcReg = .rip) ∨ (ex.addrSize = .x32 ∧ ex.pcReg = .eip) := by
  rw [pcReg_eq_slotName, slotName]
  cases ex.addrSize <;> simp [Reg.largestEnclosing32]

variable (ex) in
theorem largestEnclosing_pcReg : ex.pcReg.largestEnclosing = .rip := by
  rcases ex.pcReg_cases with h | h <;> rw [h.2] <;> rfl

variable (ex) in
theorem isScalar_pcReg : ex.pcReg.isScalar = true := by
  rcases ex.pcReg_cases with h | h <;> rw [h.2] <;> rfl

variable (ex) in
/-- The widest program counter is its own name. -/
theorem widestRegister_pcReg : ex.widestRegister ex.pcReg = ex.pcReg := by
  rw [widestRegister_scalar ex.isScalar_pcReg, largestEnclosing_pcReg, pcReg_eq_slotName]

variable (ex) in
@[simp] theorem width_pcReg : ex.width ex.pcReg = ex.addrSize.bits := by
  rcases ex.pcReg_cases with h | h <;> rw [h.1, h.2] <;> rfl

variable (ex) in
/-- The program counter that `ReadPC` read, as wide as the mode has it. -/
theorem readGPR_pcReg (g : Globals) :
    ex.readGPR ex.pcReg g = ((g.regs .rip).setWidth ex.addrSize.bits).setWidth 64 := by
  rcases ex.pcReg_cases with h | h <;> rw [h.1, h.2] <;> rfl

variable (ex) in
theorem truncatePC_eq (pc : Word) :
    ex.truncatePC pc = (pc.setWidth ex.addrSize.bits).setWidth 64 := by
  unfold truncatePC
  cases ex.addrSize
  · rfl
  · simp [AddressSize.bits]

/-- The slot of the program counter has one name. -/
theorem widestRegister_eq_pcReg (h : reg.isScalar = true)
    (hpc : (ex.widestRegister reg).largestEnclosing = .rip) : ex.widestRegister reg = ex.pcReg := by
  rw [largestEnclosing_widestRegister h] at hpc
  rw [widestRegister_scalar h, hpc, pcReg_eq_slotName]

theorem largestEnclosing_of_isPC (h : isPC reg = true) : reg.largestEnclosing = .rip := by
  have hor : reg = .eip ∨ reg = .rip := by simpa [isPC] using h
  rcases hor with rfl | rfl <;> rfl

end Executor

/-! ## accesses to data -/

/-- An access to the memory that is no instruction fetch. -/
def Event.isAccess : Event → Bool
  | .readMem _ _ hint _ => hint ≠ .readExecutable
  | .writeMem _ _ _ _ => true
  | _ => false

/-- The accesses to data so far. -/
def World.accesses {σ : Type} (w : World σ) : List Event := w.trace.filter Event.isAccess

/-- Nothing happened to the environment, and no data was accessed. -/
structure Quiet {σ : Type} (w w' : World σ) : Prop where
  env : w'.env = w.env
  accesses : w'.accesses = w.accesses

namespace Quiet

variable {σ : Type}

theorem refl (w : World σ) : Quiet w w := ⟨rfl, rfl⟩

theorem trans {w₁ w₂ w₃ : World σ} (h : Quiet w₁ w₂) (h' : Quiet w₂ w₃) : Quiet w₁ w₃ :=
  ⟨h'.env.trans h.env, h'.accesses.trans h.accesses⟩

theorem withGlobals (f : Globals → Globals) (w : World σ) : Quiet w (w.withGlobals f) := ⟨rfl, rfl⟩

theorem called {w : World σ} {e : Event} (h : e.isAccess = false) : Quiet w (w.called w.env e) :=
  ⟨rfl, by simp [World.accesses, World.called, h]⟩

end Quiet

/-! ## reading registers -/

/-- From `g` to `g'` more registers were read. -/
structure Grows (g g' : Globals) : Prop where
  used : ∀ r, g.usedRegs r = true → g'.usedRegs r = true
  modified : ∀ r, g.modifiedRegs r = true → g'.modifiedRegs r = true
  rflags : g'.regs .rflags = g.regs .rflags
  writeBackFlags : g'.writeBackFlags = g.writeBackFlags
  memory : g'.memory = g.memory
  immediate : g'.immediate = g.immediate

namespace Grows

theorem refl (g : Globals) : Grows g g := ⟨fun _ h => h, fun _ h => h, rfl, rfl, rfl, rfl⟩

theorem trans {g₁ g₂ g₃ : Globals} (h : Grows g₁ g₂) (h' : Grows g₂ g₃) : Grows g₁ g₃ where
  used r hr := h'.used r (h.used r hr)
  modified r hr := h'.modified r (h.modified r hr)
  rflags := h'.rflags.trans h.rflags
  writeBackFlags := h'.writeBackFlags.trans h.writeBackFlags
  memory := h'.memory.trans h.memory
  immediate := h'.immediate.trans h.immediate

end Grows

namespace FlatMachine

variable (c : FlatMachine)

/-- What is known of the globals while an instruction reads its registers: those that were read
hold what the environment has. -/
structure Loaded (e : Flat c.width) (g : Globals) : Prop where
  agrees : ∀ reg, reg.isScalar = true → reg.largestEnclosing ≠ .rflags →
    g.usedRegs (c.executor.widestRegister reg) = true →
      Bits.low (c.executor.width (c.executor.widestRegister reg)) (g.regs reg.largestEnclosing) =
        Bits.low (c.executor.width (c.executor.widestRegister reg))
          (e.regs (c.executor.widestRegister reg))
  onlyPC : ∀ r, r.largestEnclosing = .rip → g.usedRegs r = true → r = c.executor.pcReg
  noFPU : g.usesFPU = false
  noMMX : g.usesMMX = false
  noAlias : g.stackPtrAlias = .invalid

/-- A register was read, and is written back if it is to be. -/
def Requested (reg : Reg) (back : Bool) (g : Globals) : Prop :=
  reg ≠ .invalid → g.usedRegs (c.executor.widestRegister reg.meant) = true ∧
    (back = true ∨ reg.isStackOp = true →
      g.modifiedRegs (c.executor.widestRegister reg.meant) = true)

variable {c} {e : Flat c.width} {w : World (Flat c.width)} {reg : Reg}

theorem Requested.grows {g g' : Globals} {back : Bool} (h : c.Requested reg back g)
    (hg : Grows g g') : c.Requested reg back g' := fun hreg =>
  ⟨hg.used _ (h hreg).1, fun hback => hg.modified _ ((h hreg).2 hback)⟩

/-- Marking a register modified. -/
theorem Loaded.noteHint {g : Globals} (h : c.Loaded e g) (hint : RegRequestHint) (name : Reg) :
    c.Loaded e (g.noteHint hint name) := by
  unfold Globals.noteHint
  split
  · exact ⟨h.agrees, h.onlyPC, h.noFPU, h.noMMX, h.noAlias⟩
  · exact h

theorem noteHint_grows (hint : RegRequestHint) (name : Reg) (g : Globals) :
    Grows g (g.noteHint hint name) := by
  unfold Globals.noteHint
  split
  · refine ⟨fun _ h => h, fun r hr => ?_, rfl, rfl, rfl, rfl⟩
    by_cases hname : r = name
    · subst hname
      simp [Globals.setModified]
    · simp [Globals.setModified, hname, hr]
  · exact Grows.refl g

/-- What the environment returns for a register. -/
theorem low_readReg (size : Nat) (data : Data) (name : Reg) :
    Bits.low size (e.readReg (.reg name) size data) = Bits.low size (e.regs name) := by
  rw [Flat.readReg, Bits.low_put, BitVec.setWidth_eq]

variable (c) in
/-- The globals after a register was requested. -/
def request (e : Flat c.width) (reg : Reg) (g : Globals) : Globals :=
  let name := c.executor.widestRegister reg
  let size := c.executor.width name
  let cleared := g.clearReg reg.largestEnclosing size
  ((cleared.setReg reg.largestEnclosing
    (e.readReg (.reg name) size (cleared.regs reg.largestEnclosing))).setUsed name).setStore
      reg.largestEnclosing

theorem request_usedRegs (g : Globals) (r : Reg) :
    (c.request e reg g).usedRegs r = true ↔
      r = c.executor.widestRegister reg ∨ g.usedRegs r = true := by
  by_cases h : r = c.executor.widestRegister reg
  · simp [request, Globals.setUsed, Globals.setStore, h]
  · simp [request, Globals.setUsed, Globals.setStore, Globals.setReg, Globals.clearReg, h]

theorem request_regs_of_ne (g : Globals) {slot : Reg} (h : slot ≠ reg.largestEnclosing) :
    (c.request e reg g).regs slot = g.regs slot := by
  simp [request, Globals.setUsed, Globals.setStore, Globals.setReg, Globals.clearReg, h]

theorem request_regs_self (g : Globals) :
    Bits.low (c.executor.width (c.executor.widestRegister reg))
        ((c.request e reg g).regs reg.largestEnclosing) =
      Bits.low (c.executor.width (c.executor.widestRegister reg))
        (e.regs (c.executor.widestRegister reg)) := by
  simp only [request, Globals.setUsed, Globals.setStore, Globals.setReg, Function.update_self]
  exact low_readReg _ _ _

theorem request_grows (hf : reg.largestEnclosing ≠ .rflags) (g : Globals) :
    Grows g (c.request e reg g) where
  used r hr := (request_usedRegs g r).mpr (.inr hr)
  modified _ h := h
  rflags := request_regs_of_ne g (Ne.symm hf)
  writeBackFlags := rfl
  memory := rfl
  immediate := rfl

/-- A register was requested, and is loaded now. -/
theorem Loaded.request {g : Globals} (h : c.Loaded e g) (hs : reg.isScalar = true) :
    c.Loaded e (c.request e reg g) where
  agrees reg' hs' hf' hu := by
    by_cases hslot : reg'.largestEnclosing = reg.largestEnclosing
    · rw [Executor.widestRegister_eq_of_slot hs' hs hslot, hslot]
      exact request_regs_self g
    · rw [request_regs_of_ne g hslot]
      apply h.agrees reg' hs' hf'
      -- Registers of two slots have two names.
      have hname : c.executor.widestRegister reg' ≠ c.executor.widestRegister reg := by
        intro heq
        have hslot' := congrArg Reg.largestEnclosing heq
        rw [Executor.largestEnclosing_widestRegister hs',
          Executor.largestEnclosing_widestRegister hs] at hslot'
        exact hslot hslot'
      exact ((request_usedRegs g _).mp hu).resolve_left hname
  onlyPC r hr hu := by
    cases (request_usedRegs g r).mp hu with
    | inl heq => rw [heq] at hr ⊢; exact Executor.widestRegister_eq_pcReg hs hr
    | inr hold => exact h.onlyPC r hr hold
  noFPU := h.noFPU
  noMMX := h.noMMX
  noAlias := h.noAlias

/-- Requesting a register always succeeds. -/
theorem requestRegister_run (reg : Reg) (hint : RegRequestHint) (w : World (Flat c.width)) :
    c.executor.requestRegister reg (c.executor.widestRegister reg) hint w =
      .ok () ((w.withGlobals (c.request w.env reg)).called w.env
        (.readReg (.reg (c.executor.widestRegister reg))
          (c.executor.width (c.executor.widestRegister reg)) hint true)) := rfl

/-- What reading a register does: nothing but to load it. -/
def ReadsTo (c : FlatMachine) (w w' : World (Flat c.width)) : Prop :=
  Quiet w w' ∧ c.Loaded w.env w'.globals ∧ Grows w.globals w'.globals

theorem readWidest_flat (hs : reg.isScalar = true) {hint : RegRequestHint}
    (hw : c.Loaded w.env w.globals)
    (hf : reg.largestEnclosing = .rflags →
      w.globals.usedRegs (c.executor.widestRegister reg) = true) :
    Returns (c.executor.readWidest reg hint) w fun _ w' =>
      c.ReadsTo w w' ∧ w'.globals.usedRegs (c.executor.widestRegister reg) = true ∧
        (hint = .writeBack → w'.globals.modifiedRegs (c.executor.widestRegister reg) = true) := by
  have hnoted := hw.noteHint hint (c.executor.widestRegister reg)
  have hgrows := noteHint_grows hint (c.executor.widestRegister reg) w.globals
  have hmodified : hint = .writeBack →
      (w.globals.noteHint hint (c.executor.widestRegister reg)).modifiedRegs
        (c.executor.widestRegister reg) = true := by
    intro h
    simp [Globals.noteHint, h, Globals.setModified]
  unfold Executor.readWidest
  refine Returns.bind (Q := fun _ w' => w' = w.withGlobals
    (Globals.noteHint hint (c.executor.widestRegister reg))) ⟨(), _, rfl, rfl⟩ fun _ w' hw' => ?_
  subst hw'
  change Returns (if (w.globals.noteHint hint (c.executor.widestRegister reg)).usedRegs
    (c.executor.widestRegister reg) = true then _ else _) _ _
  split
  case isTrue hu => exact Returns.pure ⟨⟨Quiet.withGlobals _ w, hnoted, hgrows⟩, hu, hmodified⟩
  case isFalse hu =>
    have hflags : reg.largestEnclosing ≠ .rflags := fun h => hu (hgrows.used _ (hf h))
    have hrequest := request_grows (c := c) (e := w.env) hflags
      (w.globals.noteHint hint (c.executor.widestRegister reg))
    refine ⟨(), _, requestRegister_run reg hint _, ⟨?_, ?_, ?_⟩, ?_, fun h => ?_⟩
    · exact (Quiet.withGlobals _ w).trans ((Quiet.withGlobals _ _).trans (Quiet.called rfl))
    · exact hnoted.request hs
    · exact hgrows.trans hrequest
    · exact (request_usedRegs _ _).mpr (.inl rfl)
    · exact hrequest.modified _ (hmodified h)

/-- An operand, base or index register that a flat environment can deliver. -/
structure Readable (c : FlatMachine) (reg : Reg) (g : Globals) : Prop where
  scalar : reg.isScalar = true
  flags : reg.largestEnclosing = .rflags → g.usedRegs (c.executor.widestRegister reg) = true

theorem readRegister_flat {hint : RegRequestHint} (hr : c.Readable reg w.globals)
    (hw : c.Loaded w.env w.globals) :
    Returns (c.executor.readRegister reg hint) w fun _ w' =>
      c.ReadsTo w w' ∧ c.Requested reg (hint = .writeBack) w'.globals := by
  have hscalar := hr.scalar
  have hx87 : reg.isX87 = false := by cases reg <;> simp_all [Reg.isScalar, Reg.isX87]
  have hmmx : reg.isMMX = false := by cases reg <;> simp_all [Reg.isScalar, Reg.isMMX]
  unfold Executor.readRegister
  split
  case isTrue hinv =>
    exact Returns.pure ⟨⟨Quiet.refl w, hw, Grows.refl _⟩, fun h => absurd hinv h⟩
  case isFalse hinv =>
    rw [if_neg (by simp [hx87])]
    have hclass : Globals.noteClass reg = id := by
      funext g
      simp [Globals.noteClass, hmmx]
    rw [hclass]
    refine Returns.bind (Q := fun _ w' => w' = w) ⟨(), _, rfl, rfl⟩ fun _ w' hw' => ?_
    subst hw'
    split
    case isTrue hop =>
      have hmeant : reg.meant = .gpr32 .rsp := if_pos hop
      have hstack : (Reg.gpr32 .rsp).isScalar = true := rfl
      refine (readWidest_flat hstack hw nofun).post fun _ w' h => ⟨h.1, fun _ => ?_⟩
      rw [hmeant]
      exact ⟨h.2.1, fun _ => h.2.2 rfl⟩
    case isFalse hop =>
      have hmeant : reg.meant = reg := if_neg hop
      refine (readWidest_flat hscalar hw hr.flags).post fun _ w' h => ⟨h.1, fun _ => ?_⟩
      rw [hmeant]
      refine ⟨h.2.1, fun hback => h.2.2 ?_⟩
      cases hback with
      | inl h => simpa using h
      | inr h => exact absurd h hop

theorem ReadsTo.refl (hw : c.Loaded w.env w.globals) : c.ReadsTo w w :=
  ⟨Quiet.refl w, hw, Grows.refl _⟩

theorem ReadsTo.trans {w₁ w₂ w₃ : World (Flat c.width)} (h : c.ReadsTo w₁ w₂)
    (h' : c.ReadsTo w₂ w₃) : c.ReadsTo w₁ w₃ := by
  refine ⟨h.1.trans h'.1, ?_, h.2.2.trans h'.2.2⟩
  rw [← h.1.env]
  exact h'.2.1

theorem ReadsTo.loaded {w' : World (Flat c.width)} (h : c.ReadsTo w w') :
    c.Loaded w'.env w'.globals := by
  rw [h.1.env]
  exact h.2.1

theorem Readable.grows {g g' : Globals} (h : c.Readable reg g) (hg : Grows g g') :
    c.Readable reg g' := ⟨h.scalar, fun hf => hg.used _ (h.flags hf)⟩

/-! ### the registers of an instruction -/

end FlatMachine

/-- The memory operands of an instruction. -/
def Inst.memoryOperands (inst : Inst) : List Operand := inst.operands.filter (·.name.isMemory)

namespace FlatMachine

variable {c : FlatMachine} {w : World (Flat c.width)}

/-- Only memory operands matter to the first loop. -/
theorem readMemRegisters_filter (inst : Inst) (ops : List Operand) : ∀ i,
    c.executor.readMemRegisters inst i ops =
      c.executor.readMemRegisters inst i (ops.filter (·.name.isMemory)) := by
  induction ops with
  | nil => exact fun _ => rfl
  | cons op ops ih =>
      intro i
      cases h : op.name.isMemory with
      | true => simp [Executor.readMemRegisters, h, ih]
      | false => simp [Executor.readMemRegisters, h, ih]

variable (c) in
/-- The base and the index register of a memory operand were read. -/
def RequestedMem (inst : Inst) (i : Fin 2) (g : Globals) : Prop :=
  c.Requested (inst.memOperand i).baseReg false g ∧
    c.Requested (inst.memOperand i).indexReg false g

theorem readRegistersMemOp_flat {inst : Inst} {i : Fin 2}
    (hb : c.Readable (inst.memOperand i).baseReg w.globals)
    (hi : c.Readable (inst.memOperand i).indexReg w.globals) (hw : c.Loaded w.env w.globals) :
    Returns (c.executor.readRegistersMemOp inst i) w fun _ w' =>
      c.ReadsTo w w' ∧ c.RequestedMem inst i w'.globals := by
  refine (readRegister_flat hb hw).bind fun _ w₁ h₁ => ?_
  refine (readRegister_flat (hi.grows h₁.1.2.2) h₁.1.loaded).post fun _ w₂ h₂ => ?_
  exact ⟨h₁.1.trans h₂.1, h₁.2.grows h₂.1.2.2, h₂.2⟩

/-- The loop over the memory operands reads their registers. -/
theorem readMemRegisters_flat {inst : Inst} (ops : List Operand) :
    ∀ (i : Nat) (w : World (Flat c.width)),
      (∀ j, c.Readable (inst.memOperand j).baseReg w.globals ∧
        c.Readable (inst.memOperand j).indexReg w.globals) →
      c.Loaded w.env w.globals → (∀ op ∈ ops, op.name.isMemory = true) →
      Returns (c.executor.readMemRegisters inst i ops) w fun _ w' =>
        c.ReadsTo w w' ∧ ∀ j < ops.length, c.RequestedMem inst (Fin.ofNat 2 (i + j)) w'.globals := by
  induction ops with
  | nil => exact fun i w _ hw _ => Returns.pure ⟨ReadsTo.refl hw, by simp⟩
  | cons op ops ih =>
      intro i w hr hw hmem
      unfold Executor.readMemRegisters
      rw [if_pos (hmem op List.mem_cons_self)]
      refine (readRegistersMemOp_flat (hr _).1 (hr _).2 hw).bind fun _ w₁ h₁ => ?_
      have hr₁ (j : Fin 2) := hr j
      refine (ih (i + 1) w₁ (fun j => ⟨(hr j).1.grows h₁.1.2.2, (hr j).2.grows h₁.1.2.2⟩) h₁.1.loaded
        fun op' h => hmem op' (List.mem_cons_of_mem op h)).post fun _ w₂ h₂ => ?_
      refine ⟨h₁.1.trans h₂.1, fun j hj => ?_⟩
      cases j with
      | zero => exact ⟨h₁.2.1.grows h₂.1.2.2, h₁.2.2.grows h₂.1.2.2⟩
      | succ j =>
          have hrest := h₂.2 j (by simpa using hj)
          rwa [show i + 1 + j = i + (j + 1) by omega] at hrest

/-- The loop over register operands reads them. -/
theorem readOperandRegisters_flat {inst : Inst} (hint : RegRequestHint) (ops : List Operand) :
    ∀ w : World (Flat c.width),
      (∀ op ∈ ops, ∀ r, op.name = .reg r → c.Readable (inst.reg r) w.globals) →
      c.Loaded w.env w.globals →
      Returns (ops.forM (c.executor.readOperandRegister inst hint)) w fun _ w' =>
        c.ReadsTo w w' ∧ ∀ op ∈ ops, ∀ r, op.name = .reg r →
          c.Requested (inst.reg r) (hint = .writeBack) w'.globals := by
  induction ops with
  | nil => exact fun w _ hw => Returns.pure ⟨ReadsTo.refl hw, by simp⟩
  | cons op ops ih =>
      intro w hr hw
      have hfirst : Returns (c.executor.readOperandRegister inst hint op) w fun _ w' =>
          c.ReadsTo w w' ∧ ∀ r, op.name = .reg r →
            c.Requested (inst.reg r) (hint = .writeBack) w'.globals := by
        unfold Executor.readOperandRegister
        cases hname : op.name with
        | reg r =>
            refine (readRegister_flat (hr op List.mem_cons_self r hname) hw).post fun _ w' h => ?_
            refine ⟨h.1, fun r' hr' => ?_⟩
            cases hr'
            exact h.2
        | _ => exact Returns.pure ⟨ReadsTo.refl hw, nofun⟩
      refine hfirst.bind fun _ w₁ h₁ => ?_
      have hrest := ih w₁
        (fun op' h r hn => (hr op' (List.mem_cons_of_mem op h) r hn).grows h₁.1.2.2) h₁.1.loaded
      refine hrest.post fun _ w₂ h₂ => ⟨h₁.1.trans h₂.1, fun op' hop r hn => ?_⟩
      cases List.mem_cons.mp hop with
      | inl heq => subst heq; exact (h₁.2 r hn).grows h₂.1.2.2
      | inr hmem => exact h₂.2 op' hmem r hn

/-- All registers of an instruction were read. -/
structure RequestedAll (c : FlatMachine) (inst : Inst) (g : Globals) : Prop where
  operand : ∀ op ∈ inst.operands, ∀ r, op.name = .reg r → c.Requested (inst.reg r) op.written g
  memory : ∀ i : Fin 2, i.val < inst.memoryOperands.length → c.RequestedMem inst i g

/-- `ReadRegisters`, for an instruction whose registers are readable. -/
theorem readRegisters_flat {inst : Inst} (hw : c.Loaded w.env w.globals)
    (hop : ∀ op ∈ inst.operands, ∀ r, op.name = .reg r → c.Readable (inst.reg r) w.globals)
    (hmem : ∀ i, c.Readable (inst.memOperand i).baseReg w.globals ∧
      c.Readable (inst.memOperand i).indexReg w.globals) :
    Returns (c.executor.readRegisters inst) w fun _ w' =>
      c.ReadsTo w w' ∧ c.RequestedAll inst w'.globals := by
  unfold Executor.readRegisters
  rw [readMemRegisters_filter]
  have hfirst := readMemRegisters_flat inst.memoryOperands 0 w hmem hw
    fun op h => (List.mem_filter.mp h).2
  refine hfirst.bind fun _ w₁ h₁ => ?_
  have hsecond := readOperandRegisters_flat .general
    (inst.operands.filter (!·.written)) w₁
    (fun op h r hn => (hop op (List.mem_of_mem_filter h) r hn).grows h₁.1.2.2) h₁.1.loaded
  refine hsecond.bind fun _ w₂ h₂ => ?_
  have hgrows := h₁.1.2.2.trans h₂.1.2.2
  have hthird := readOperandRegisters_flat .writeBack
    (inst.operands.filter (·.written)) w₂
    (fun op h r hn => (hop op (List.mem_of_mem_filter h) r hn).grows hgrows) h₂.1.loaded
  refine hthird.post fun _ w₃ h₃ => ⟨(h₁.1.trans h₂.1).trans h₃.1, ?_, fun i hi => ?_⟩
  · intro op hmem r hn
    cases hback : op.written with
    | false =>
        have hin : op ∈ inst.operands.filter (!·.written) := by simp [hmem, hback]
        exact (h₂.2 op hin r hn).grows h₃.1.2.2
    | true =>
        have hin : op ∈ inst.operands.filter (·.written) := by simp [hmem, hback]
        exact h₃.2 op hin r hn
  · have hreq := h₁.2 i.val hi
    have hi0 : Fin.ofNat 2 (0 + i.val) = i := by
      ext
      simp [Fin.ofNat, Nat.mod_eq_of_lt i.isLt]
    rw [hi0] at hreq
    have hgrows' := h₂.1.2.2.trans h₃.1.2.2
    exact ⟨hreq.1.grows hgrows', hreq.2.grows hgrows'⟩

end FlatMachine

end Microx
