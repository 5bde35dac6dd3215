import Microx.Executor.SubRegister

/-!
# Microx.Executor.RegisterFile

The general-purpose registers as x86 has them, and that `ReadGPR` and
`WriteGPR` implement them.

A register file is one word for each family; a name reads and writes some of
the bits of its family's word (`RegisterFile.read`, `RegisterFile.write`).  The
executor keeps the words in the buffers of the 64-bit registers.  One write
commutes with forgetting everything but these words (`file_writeGPR`), so any
sequence of writes does (`registers_obey_x86`).
-/

namespace Microx

/-! ## x86 -/

/-- The word of each family. -/
abbrev RegisterFile := Gpr → Word

/-- The name of a general-purpose register or of a part of one. -/
def GprName := { reg : Reg // reg.family.isSome }

/-- The family a name belongs to. -/
def GprName.family (name : GprName) : Gpr := name.1.family.get name.2

theorem GprName.family_eq (name : GprName) : name.1.family = some name.family :=
  (Option.some_get name.2).symm

namespace RegisterFile

/-- The value of a name: some of the bits of its word. -/
def read (file : RegisterFile) : Reg → Word
  | .gpr64 r => file r
  | .gpr32 r => ((file r).extractLsb' 0 32).setWidth 64
  | .gpr16 r => ((file r).extractLsb' 0 16).setWidth 64
  | .gpr8 r => ((file r).extractLsb' 0 8).setWidth 64
  | .gpr8h h => ((file h.family).extractLsb' 8 8).setWidth 64
  | _ => 0

/-- The word of a family after a write to a name of it: a 64-bit write replaces it, a 32-bit write
clears its upper half, and a write to a smaller part keeps the bits around that part. -/
def merge (word : Word) (reg : Reg) (val : Word) : Word :=
  match reg with
  | .gpr64 _ => val
  | .gpr32 _ => 0#32 ++ val.extractLsb' 0 32
  | .gpr16 _ => word.extractLsb' 16 48 ++ val.extractLsb' 0 16
  | .gpr8 _ => word.extractLsb' 8 56 ++ val.extractLsb' 0 8
  | .gpr8h _ => word.extractLsb' 16 48 ++ (val.extractLsb' 0 8 ++ word.extractLsb' 0 8)
  | _ => word

/-- The file after a write to a name: one word changes. -/
def write (file : RegisterFile) (name : GprName) (val : Word) : RegisterFile :=
  Function.update file name.family (merge (file name.family) name.1 val)

/-- The file after writes, the first of the list first. -/
def writes (file : RegisterFile) (vals : List (GprName × Word)) : RegisterFile :=
  vals.foldl (fun file val => file.write val.1 val.2) file

end RegisterFile

/-! ## the windows of the executor -/

namespace Reg

/-- The bits that `ReadGPR` takes out of a word are those of the name. -/
theorem part_eq_read {reg : Reg} {r : Gpr} (h : reg.family = some r) (file : RegisterFile) :
    reg.part (file r) = file.read reg := by
  cases reg with
  | gpr64 f =>
      obtain rfl : f = r := Option.some.inj h
      exact BitVec.setWidth_eq _
  | gpr32 f | gpr16 f | gpr8 f =>
      obtain rfl : f = r := Option.some.inj h
      apply Bits.eq_of_bits
      intro i hi
      simp [part, RegisterFile.read, hi]
  | gpr8h f =>
      obtain rfl : f.family = r := Option.some.inj h
      apply Bits.eq_of_bits
      intro i hi
      have hwidth : 8 + i < 16 ↔ i < 8 := by omega
      simp [part, RegisterFile.read, hi, hwidth]
      omega
  | _ => simp [family] at h

/-- What `WriteGPR` makes of a word is what x86 makes of it. -/
theorem merge_eq_merge {reg : Reg} (h : reg.family.isSome) (word val : Word) :
    reg.merge word val = RegisterFile.merge word reg val := by
  cases reg with
  | gpr64 f => exact BitVec.setWidth_eq _
  | gpr32 f | gpr16 f | gpr8 f | gpr8h f =>
      apply Bits.eq_of_bits
      intro i hi
      simp only [merge, RegisterFile.merge, BitVec.getLsbD_append, BitVec.getLsbD_extractLsb',
        BitVec.getLsbD_zero, BitVec.getLsbD_setWidth, Bits.getLsbD_put _ _ _ _ _ hi]
      grind
  | _ => simp [family] at h

end Reg

/-! ## the executor -/

namespace Executor

variable {σ : Type} (ex : Executor σ)

/-- The words that the globals hold for the families. -/
def file (g : Globals) : RegisterFile := fun r => (g.regs (.gpr64 r)).setWidth 64

/-- `WriteGPR`, for each pair of a list. -/
def writeGPRs (vals : List (GprName × Word)) (g : Globals) : Globals :=
  vals.foldl (fun g val => ex.writeGPR val.1.1 val.2 g) g

/-- `ReadGPR` reads the file. -/
theorem readGPR_eq_read (name : GprName) (g : Globals) :
    ex.readGPR name.1 g = (file g).read name.1 := by
  -- The width of a name does not depend on the mode, and 64-bit mode can name all of them.
  have hlegal : ({ ex with addrSize := .x64 } : Executor σ).IsLegal name.1 := by
    have hfamily := name.family_eq
    unfold IsLegal width
    cases hreg : name.1 <;> simp_all [Reg.family, Reg.widthBits64, AddressSize.bits]
  have hpart := ({ ex with addrSize := .x64 } : Executor σ).readGPR_eq_part name.family_eq hlegal g
  exact hpart.trans (Reg.part_eq_read name.family_eq (file g))

/-- **`WriteGPR`** writes the file. -/
theorem file_writeGPR (name : GprName) (val : Word) (g : Globals) :
    file (ex.writeGPR name.1 val g) = (file g).write name val := by
  funext r
  have hwrite := ({ ex with addrSize := .x64 } : Executor σ).gpr_writeGPR name.family_eq val g r
  rw [RegisterFile.write, Function.update_apply, ← Reg.merge_eq_merge name.2]
  exact hwrite

theorem file_writeGPRs (vals : List (GprName × Word)) (g : Globals) :
    file (ex.writeGPRs vals g) = (file g).writes vals := by
  induction vals generalizing g with
  | nil => rfl
  | cons val vals ih => rw [writeGPRs, List.foldl_cons, RegisterFile.writes, List.foldl_cons,
      ← ex.file_writeGPR, ← writeGPRs, ← RegisterFile.writes, ih]

/-- **The sub-register rules.**  After any writes to any names, from any contents, a name reads as
it does in the register file of x86. -/
theorem registers_obey_x86 (vals : List (GprName × Word)) (g : Globals) (name : GprName) :
    ex.readGPR name.1 (ex.writeGPRs vals g) = ((file g).writes vals).read name.1 := by
  rw [readGPR_eq_read, file_writeGPRs]

end Executor

end Microx
