import Microx.Executor.FlatWrite

/-!
# Microx.Executor.Stepping

Runs of `Execute(1)` over a flat environment.
-/

namespace Microx

open Hoare

namespace Reg

/-- An operand that is a general-purpose register means itself. -/
theorem meant_of_family {reg : Reg} {r : Gpr} (h : reg.family = some r) : reg.meant = reg := by
  have hstack : reg.isStackOp = false := by cases reg <;> simp_all [family, isStackOp]
  rw [meant, hstack]
  rfl

end Reg

namespace AddressSize

variable (a : AddressSize)

theorem setWidth_add (x y : Word) :
    (x + y).setWidth a.bits = x.setWidth a.bits + y.setWidth a.bits :=
  BitVec.setWidth_add x y a.bits_le

theorem setWidth_sub (x y : Word) :
    (x - y).setWidth a.bits = x.setWidth a.bits - y.setWidth a.bits := by
  rw [BitVec.sub_eq_add_neg, setWidth_add, BitVec.setWidth_neg_of_le a.bits_le,
    BitVec.sub_eq_add_neg]

theorem bits_ne_zero : a.bits ≠ 0 := by cases a <;> decide

theorem zero_ne_one : (0 : BitVec a.bits) ≠ 1 := by cases a <;> decide

theorem setWidth_zero : (0 : Word).setWidth a.bits = 0 := by cases a <;> rfl

theorem setWidth_one : (1 : Word).setWidth a.bits = 1 := by cases a <;> rfl

theorem one_setWidth : (1 : BitVec a.bits).setWidth 64 = 1 := by cases a <;> rfl

/-- Addresses that are equal as words are equal. -/
theorem setWidth_inj {x y : BitVec a.bits} (h : x.setWidth 64 = y.setWidth 64) : x = y := by
  rw [← a.setWidth_setWidth x, h, setWidth_setWidth]

end AddressSize

namespace FlatMachine

variable (c : FlatMachine)

/-- `Execute(1)` succeeds. -/
def Step (w w' : World (Flat c.width)) : Prop := c.executor.execute 1 w = .ok () w'

/-- Any number of calls of `Execute(1)` succeed. -/
def Steps : World (Flat c.width) → World (Flat c.width) → Prop := Relation.ReflTransGen c.Step

/-- The address behind an instruction. -/
def behind (inst : Inst) (e : Flat c.width) : BitVec c.width :=
  c.pc e + BitVec.ofNat _ inst.length

/-- The target of a branch. -/
def branchTarget (inst : Inst) (e : Flat c.width) : BitVec c.width :=
  c.behind inst e + inst.branchDisplacement.setWidth _

variable {c} {w w' : World (Flat c.width)} {inst : Inst}

theorem Step.unique {w₁ w₂ : World (Flat c.width)} (h₁ : c.Step w w₁) (h₂ : c.Step w w₂) :
    w₁ = w₂ := by
  have h := h₁.symm.trans h₂
  cases h
  rfl

/-- `execute_flat`, as a step. -/
theorem step_flat (hp : c.Plain inst) (hd : c.Decodes w.env inst) :
    ∃ g, c.Ready w.env inst g ∧ ∀ pc g',
      c.executor.emulate inst (c.executor.getNextPC inst g) g = .emulated pc g' →
      ∃ w', c.Step w w' ∧ w'.env = c.written g' pc w.env ∧
        w'.accesses = w.accesses ++ readEvents inst g ++ writeEvents g' := by
  obtain ⟨g, hg, hrun⟩ := execute_flat hp hd
  refine ⟨g, hg, fun pc g' he => ?_⟩
  obtain ⟨_, w', hok, henv, hacc⟩ := hrun pc g' he
  exact ⟨w', hok, henv, hacc⟩

/-! ## program counters -/

section

variable {e : Flat c.width} {g : Globals}

theorem setWidth_truncatePC (pc : Word) :
    (c.executor.truncatePC pc).setWidth c.width = pc.setWidth c.width := by
  rw [Executor.truncatePC_eq]
  exact c.addrSize.setWidth_setWidth _

/-- The program counter that was read, as wide as the mode has it. -/
theorem Ready.setWidth_pcReg (h : c.Ready e inst g) :
    (c.executor.readGPR c.executor.pcReg g).setWidth c.width = c.pc e := by
  have hpc := congrArg (BitVec.setWidth c.width) (h.loaded.getPC h.usesPC)
  rwa [Executor.getPC, setWidth_truncatePC, AddressSize.setWidth_setWidth] at hpc

/-- The next program counter, as wide as the mode has it. -/
theorem Ready.setWidth_getNextPC (h : c.Ready e inst g) :
    (c.executor.getNextPC inst g).setWidth c.width = c.behind inst e := by
  rw [Executor.getNextPC, setWidth_truncatePC, AddressSize.setWidth_add, h.setWidth_pcReg, behind]
  congr 1
  exact BitVec.setWidth_ofNat_of_le c.addrSize.bits_le _

/-- `curr_pc` of `Emulate`, as wide as the mode has it. -/
theorem Ready.setWidth_rip (h : c.Ready e inst g) :
    (c.executor.readGPR .rip g).setWidth c.width = c.pc e := by
  have hrip : c.executor.readGPR .rip g = (g.regs .rip).setWidth 64 := rfl
  rw [hrip, ← h.setWidth_pcReg, c.executor.readGPR_pcReg, AddressSize.setWidth_setWidth]
  exact BitVec.setWidth_setWidth_of_le _ c.addrSize.bits_le

theorem Ready.setWidth_branchTarget (h : c.Ready e inst g) :
    (c.executor.branchTarget inst (c.executor.getNextPC inst g)).setWidth c.width =
      c.branchTarget inst e := by
  rw [Executor.branchTarget, setWidth_truncatePC, AddressSize.setWidth_add,
    h.setWidth_getNextPC, branchTarget]

end

/-- Without a memory operand the memory stays as it is. -/
theorem written_mem_of_absent {g : Globals} (h : ∀ i, (g.memory i).present = false) (pc : Word)
    (e : Flat c.width) : (c.written g pc e).mem = e.mem := by
  simp [written, storeCell, h]

/-- An instruction without memory operands leaves the memory alone. -/
theorem Ready.written_mem {e : Flat c.width} {g g' : Globals} {nextPC pc : Word}
    (h : c.Ready e inst g) (hnone : inst.memoryOperands = [])
    (he : c.executor.emulate inst nextPC g = .emulated pc g') (pc' : Word) :
    (c.written g' pc' e).mem = e.mem := by
  refine written_mem_of_absent (fun i => ?_) pc' e
  have hcell := h.cells i
  rw [hnone] at hcell
  have hsame := congrArg Place.present (congrFun (c.executor.places_of_emulated he) i)
  exact hsame.trans hcell

/-! ## a machine for samples -/

/-- A machine that tells its instructions by their first byte. -/
def sample (a : AddressSize) (insts : Byte → Option Inst) : FlatMachine where
  xed := Xed.ofDecoder (fun _ bytes => bytes.head?.bind insts) fun _ => false
  cpu := ⟨fun _ s => (.none, s), 0, 0⟩
  addrSize := a
  hasAVX := false
  hasAVX512 := false

theorem decodes_sample {a : AddressSize} {insts : Byte → Option Inst} {inst : Inst}
    {e : Flat (sample a insts).width} (h : insts (e.mem ((sample a insts).pc e)) = some inst) :
    (sample a insts).Decodes e inst := by
  change insts (e.mem ((sample a insts).pc e + 0#_)) = some inst
  rw [BitVec.add_zero, h]

/-- The world after `Execute(1)`, to follow a sample with. -/
def after (c : FlatMachine) (w : World (Flat c.width)) : World (Flat c.width) :=
  match c.executor.execute 1 w with
  | .ok _ w' => w'
  | .error _ w' => w'

theorem step_after {c : FlatMachine} {w : World (Flat c.width)} (h : ∃ w', c.Step w w') :
    c.Step w (c.after w) := by
  obtain ⟨w', hstep⟩ := h
  rw [after, show c.executor.execute 1 w = _ from hstep]
  exact hstep

/-- A machine in 64-bit mode that knows one instruction. -/
def oneInst (inst : Inst) : FlatMachine := .sample .x64 fun _ => some inst

def zeroStart (c : FlatMachine) : World (Flat c.width) := .start ⟨fun _ => 0, fun _ => false, fun _ => 0⟩

end FlatMachine

end Microx
