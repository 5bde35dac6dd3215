import Microx.Executor.State

/-!
# Microx.Executor.SubRegister

Reading and writing parts of general-purpose registers.

`ReadGPR` and `WriteGPR` work on the 64-byte buffer of the enclosing register;
here they are related to the register as a whole, as wide as the mode of the
executor has it.
-/

namespace Microx

variable {σ : Type}

namespace Reg

/-- The family of a general-purpose register. -/
def family : Reg → Option Gpr
  | .gpr64 g | .gpr32 g | .gpr16 g | .gpr8 g => some g
  | .gpr8h h => some h.family
  | _ => none

/-- The part of a register that is `w` bits wide as a whole. -/
def part {w : Nat} (reg : Reg) (x : BitVec w) : Word :=
  match reg with
  | .gpr64 _ => x.setWidth 64
  | .gpr32 _ => (x.setWidth 32).setWidth 64
  | .gpr16 _ => (x.setWidth 16).setWidth 64
  | .gpr8 _ => (x.setWidth 8).setWidth 64
  | .gpr8h _ => (x.setWidth 16).setWidth 64 >>> 8
  | _ => 0

/-- The whole register after a write to a part of it. -/
def merge {w : Nat} (reg : Reg) (x : BitVec w) (val : Word) : BitVec w :=
  match reg with
  | .gpr64 _ => val.setWidth w
  | .gpr32 _ => (val.setWidth 32).setWidth w
  | .gpr16 _ => Bits.put 0 16 x val
  | .gpr8 _ => Bits.put 0 8 x val
  | .gpr8h _ => Bits.put 8 8 x val
  | _ => x

theorem largestEnclosing_of_family {reg : Reg} {r : Gpr} (h : reg.family = some r) :
    reg.largestEnclosing = .gpr64 r := by
  cases reg <;> simp_all [family, largestEnclosing]

end Reg

theorem AddressSize.bits_le (a : AddressSize) : a.bits ≤ 64 := by cases a <;> decide

/-- An address survives being held in a word. -/
@[simp] theorem AddressSize.setWidth_setWidth (a : AddressSize) (x : BitVec a.bits) :
    (x.setWidth 64).setWidth a.bits = x := by
  rw [BitVec.setWidth_setWidth_of_le _ a.bits_le, BitVec.setWidth_eq]

theorem AddressSize.le_bits (a : AddressSize) : 32 ≤ a.bits := by cases a <;> decide

namespace Executor

variable (ex : Executor σ)

/-- A general-purpose register, as wide as the mode has it. -/
def wide (r : Gpr) : Reg := ex.widestRegister (.gpr32 r)

theorem wide_eq (r : Gpr) :
    ex.wide r = match ex.addrSize with
      | .x64 => .gpr64 r
      | .x32 => .gpr32 r := by
  unfold wide widestRegister
  cases ex.addrSize <;> simp [Reg.largestEnclosing, Reg.largestEnclosing32, Reg.withoutAVX512,
    Reg.withoutAVX]

theorem wide_family (r : Gpr) : (ex.wide r).family = some r := by
  rw [wide_eq]
  cases ex.addrSize <;> rfl

theorem wide_inj {r r' : Gpr} (h : ex.wide r = ex.wide r') : r = r' := by
  have hf := congrArg Reg.family h
  rw [wide_family, wide_family] at hf
  exact Option.some.inj hf

@[simp] theorem width_wide (r : Gpr) : ex.width (ex.wide r) = ex.addrSize.bits := by
  rw [wide_eq, width]
  cases ex.addrSize <;> rfl

/-- The value of a register, as wide as the mode has it. -/
def gpr (g : Globals) (r : Gpr) : BitVec ex.addrSize.bits := (g.regs (.gpr64 r)).setWidth _

theorem gpr_congr {g g' : Globals} {r : Gpr} (h : g'.regs (.gpr64 r) = g.regs (.gpr64 r)) :
    ex.gpr g' r = ex.gpr g r := by
  rw [gpr, gpr, h]

/-! ## reading -/

/-- A register that the mode can name. -/
def IsLegal (reg : Reg) : Prop := ex.width reg ≤ ex.addrSize.bits

/-- `ReadGPR` reads a part of the register. -/
theorem readGPR_eq_part {reg : Reg} {r : Gpr} (hr : reg.family = some r) (hl : ex.IsLegal reg)
    (g : Globals) : ex.readGPR reg g = reg.part (ex.gpr g r) := by
  have h32 := ex.addrSize.le_bits
  have hnarrow {n : Nat} (hn : n ≤ ex.addrSize.bits) :
      (g.regs (.gpr64 r)).setWidth n = (ex.gpr g r).setWidth n :=
    (BitVec.setWidth_setWidth_of_le _ hn).symm
  have hvalue (n : Nat) :
      g.readValue n reg = ((g.regs (.gpr64 r)).setWidth n).setWidth 64 := by
    rw [Globals.readValue, Reg.largestEnclosing_of_family hr]
  have h16 : 16 ≤ ex.addrSize.bits := by omega
  have h8 : 8 ≤ ex.addrSize.bits := by omega
  cases reg with
  | gpr64 f =>
      have h64 : 64 ≤ ex.addrSize.bits := hl
      simp [readGPR, Globals.readGPR, hvalue, Reg.isGPR8h, width, Reg.widthBits64, Reg.part,
        hnarrow h64]
  | gpr32 f => simp [readGPR, Globals.readGPR, hvalue, Reg.isGPR8h, width, Reg.widthBits64,
      Reg.part, hnarrow h32]
  | gpr16 f => simp [readGPR, Globals.readGPR, hvalue, Reg.isGPR8h, width, Reg.widthBits64,
      Reg.part, hnarrow h16]
  | gpr8 f => simp [readGPR, Globals.readGPR, hvalue, Reg.isGPR8h, width, Reg.widthBits64,
      Reg.part, hnarrow h8]
  | gpr8h h => simp [readGPR, Globals.readGPR, hvalue, Reg.isGPR8h, Reg.part, hnarrow h16]
  | _ => simp [Reg.family] at hr

theorem isLegal_wide (r : Gpr) : ex.IsLegal (ex.wide r) := Nat.le_of_eq (ex.width_wide r)

theorem wide_cases (r : Gpr) :
    (ex.addrSize = .x64 ∧ ex.wide r = .gpr64 r) ∨ (ex.addrSize = .x32 ∧ ex.wide r = .gpr32 r) := by
  rw [wide_eq]
  cases ex.addrSize <;> simp

/-- The whole register. -/
theorem readGPR_wide (r : Gpr) (g : Globals) :
    ex.readGPR (ex.wide r) g = (ex.gpr g r).setWidth 64 := by
  rw [ex.readGPR_eq_part (ex.wide_family r) (ex.isLegal_wide r)]
  rcases ex.wide_cases r with ⟨-, hr⟩ | ⟨ha, hr⟩
  · rw [hr]
    rfl
  · have h32 : ex.addrSize.bits = 32 := by rw [ha]; rfl
    rw [hr]
    apply Bits.eq_of_bits
    intro i hi
    by_cases h : i < 32
    · simp [Reg.part, hi, h]
    · have hge := BitVec.getLsbD_of_ge (ex.gpr g r) i (by omega)
      simp [Reg.part, hi, h, hge]

/-! ## writing -/

theorem gpr_setReg (f : Gpr) (d : Data) (g : Globals) (r : Gpr) :
    ex.gpr (g.setReg (.gpr64 f) d) r = if r = f then d.setWidth _ else ex.gpr g r := by
  by_cases h : r = f
  · subst h
    simp [gpr, Globals.setReg]
  · simp [gpr, Globals.setReg, h]

/-- `AH` and its like are written through the whole register. -/
theorem put_high (x val : Word) :
    (x &&& ~~~0xFF00#64) ||| ((val &&& 0xFF#64) <<< 8) = Bits.put 8 8 x val := by
  have hmask : Bits.mask 64 8 8 = 0xFF00#64 := by decide
  have hlow : Bits.low 8 val = val &&& 0xFF#64 := by
    rw [show 0xFF#64 = Bits.mask 64 0 8 by decide]
    apply Bits.eq_of_bits
    intro i hi
    simp [hi, Bits.getElem_mask, Bool.and_comm]
  rw [Bits.put, hmask, hlow, BitVec.setWidth_eq]

/-- `WriteGPR` merges into the register and leaves the other registers alone. -/
theorem gpr_writeGPR {reg : Reg} {f : Gpr} (hf : reg.family = some f) (val : Word) (g : Globals)
    (r : Gpr) :
    ex.gpr (ex.writeGPR reg val g) r = if r = f then reg.merge (ex.gpr g f) val else ex.gpr g r := by
  have h64 := ex.addrSize.bits_le
  have henc := Reg.largestEnclosing_of_family hf
  have hwrite (n : Nat) (x : Word) : ex.gpr (g.writeValue n reg x) r =
      if r = f then (Bits.put 0 n (g.regs (.gpr64 f)) x).setWidth _ else ex.gpr g r := by
    rw [Globals.writeValue, henc, gpr_setReg]
  have hnarrow (n : Nat) (x : Word) :
      (Bits.put 0 n (g.regs (.gpr64 f)) x).setWidth _ = Bits.put 0 n (ex.gpr g f) x :=
    Bits.setWidth_put_narrow (by omega) 0 n _ x
  have hall (x : Word) : Bits.put 0 64 (ex.gpr g f) x = x.setWidth _ := Bits.put_all h64 _ x
  simp only [hnarrow] at hwrite
  cases reg with
  | gpr64 f' => simp [writeGPR, Globals.writeGPR, width, Reg.widthBits64, hwrite, hall, Reg.merge]
  | gpr32 f' =>
      have hto : (BitVec.setWidth 64 (val.setWidth 32)).setWidth ex.addrSize.bits =
          (val.setWidth 32).setWidth _ := by
        apply Bits.eq_of_bits
        intro i hi
        simp [hi, Nat.lt_of_lt_of_le hi h64]
      simp [writeGPR, Globals.writeGPR, width, Reg.widthBits64, hwrite, hall, Reg.merge, hto]
  | gpr16 f' => simp [writeGPR, Globals.writeGPR, width, Reg.widthBits64, hwrite, Reg.merge]
  | gpr8 f' =>
      simp [writeGPR, Globals.writeGPR, width, Reg.widthBits64, hwrite, Reg.merge, Reg.isGPR8h]
  | gpr8h h' =>
      have hread : (g.readValue 64 (.gpr8h h')).setWidth ex.addrSize.bits = ex.gpr g f := by
        rw [Globals.readValue, henc, gpr]
        apply Bits.eq_of_bits
        intro i hi
        simp [hi, Nat.lt_of_lt_of_le hi h64]
      have hrun : ex.writeGPR (.gpr8h h') val g =
          g.writeValue 64 (.gpr8h h') (Bits.put 8 8 (g.readValue 64 (.gpr8h h')) val) := by
        rw [← put_high]
        rfl
      rw [hrun, hwrite, hall, Bits.setWidth_put_narrow h64, hread, Reg.merge]
  | _ => simp [Reg.family] at hf

@[simp] theorem gpr_writeGPR_wide (f : Gpr) (val : Word) (g : Globals) (r : Gpr) :
    ex.gpr (ex.writeGPR (ex.wide f) val g) r =
      if r = f then val.setWidth _ else ex.gpr g r := by
  rw [ex.gpr_writeGPR (ex.wide_family f)]
  rcases ex.wide_cases f with ⟨-, hr⟩ | ⟨ha, hr⟩
  · rw [hr]
    rfl
  · have h32 : ex.addrSize.bits = 32 := by rw [ha]; rfl
    have hto : (val.setWidth 32).setWidth ex.addrSize.bits = val.setWidth _ := by
      apply Bits.eq_of_bits
      intro i hi
      simp [hi, show i < 32 by omega]
    rw [hr, Reg.merge, hto]

/-! ## what other changes leave alone -/

/-- A write changes one slot. -/
theorem regs_writeGPR_of_ne {reg slot : Reg} (h : slot ≠ reg.largestEnclosing) (val : Word)
    (g : Globals) : (ex.writeGPR reg val g).regs slot = g.regs slot := by
  unfold writeGPR Globals.writeGPR Globals.writeValue
  split_ifs <;> simp [Globals.setReg, h]

/-- The flags are in a slot of their own. -/
theorem aflag_writeGPR {reg : Reg} {r : Gpr} (h : reg.family = some r) (val : Word) (g : Globals) :
    (ex.writeGPR reg val g).aflag = g.aflag := by
  have hslot : Reg.rflags ≠ reg.largestEnclosing := by
    rw [Reg.largestEnclosing_of_family h]
    exact nofun
  rw [Globals.aflag, regs_writeGPR_of_ne ex hslot, Globals.aflag]

@[simp] theorem gpr_setModified (reg : Reg) (g : Globals) (r : Gpr) :
    ex.gpr (g.setModified reg) r = ex.gpr g r := rfl

@[simp] theorem gpr_setMem (i : Fin 2) (val : Word) (g : Globals) (r : Gpr) :
    ex.gpr (g.setMem i val) r = ex.gpr g r := rfl

@[simp] theorem gpr_setAflag (val : Word) (g : Globals) (r : Gpr) :
    ex.gpr (g.setAflag val) r = ex.gpr g r := by
  simp [gpr, Globals.setAflag, Globals.setReg]

end Executor

end Microx
