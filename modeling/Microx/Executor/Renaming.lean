import Microx.Executor.Gathered
import Microx.Executor.SideBySide

/-!
# Microx.Executor.Renaming

An instruction for the processor that names the stack pointer is run on an
alias of it: a register that the instruction does not read is given the value
of the stack pointer, stands for it in the encoded instruction, and is copied
back before the registers are written.

`executeDirect` is the executor without the alias.  It hands every instruction
over as it is, to a processor that has the stack pointer of the environment.
That the processor commutes with renaming registers is all that is asked of it
(`CommutesWithRenaming`).
-/

namespace Microx

open Hoare

variable {σ α : Type}

/-! ## renaming registers -/

/-- Rename the general-purpose families; `AH` and its like keep their names. -/
def Reg.rename (π : Equiv.Perm Gpr) : Reg → Reg
  | .gpr64 x => .gpr64 (π x)
  | .gpr32 x => .gpr32 (π x)
  | .gpr16 x => .gpr16 (π x)
  | .gpr8 x => .gpr8 (π x)
  | r => r

/-- A renaming that fixes a family moves no register into it. -/
theorem Reg.largestEnclosing_of_rename {π : Equiv.Perm Gpr} {r : Reg} {y : Gpr} (hy : π y = y)
    (h : (r.rename π).largestEnclosing = .gpr64 y) : r.largestEnclosing = .gpr64 y := by
  have hback {z : Gpr} (hz : Reg.gpr64 (π z) = .gpr64 y) : Reg.gpr64 z = .gpr64 y := by
    rw [π.injective ((Reg.gpr64.inj hz).trans hy.symm)]
  cases r <;> first | exact h | exact hback h

def EncOperand.rename (π : Equiv.Perm Gpr) : EncOperand → EncOperand
  | .reg r widthBits => .reg (r.rename π) widthBits
  | op => op

theorem EncOperand.rename_refl (op : EncOperand) : op.rename (Equiv.refl Gpr) = op := by
  cases op with
  | reg r n => cases r <;> rfl
  | _ => rfl

namespace EncInst

def rename (π : Equiv.Perm Gpr) (enc : EncInst) : EncInst :=
  { enc with operands := enc.operands.map (EncOperand.rename π) }

theorem rename_refl (enc : EncInst) : enc.rename (Equiv.refl Gpr) = enc := by
  have hoperands : enc.operands.map (EncOperand.rename (Equiv.refl Gpr)) = enc.operands :=
    (List.map_congr_left fun op _ => op.rename_refl).trans (List.map_id _)
  rw [rename, hoperands]

/-- A register of a family is among the operands. -/
def Names (enc : EncInst) (x : Gpr) : Prop :=
  ∃ r n, EncOperand.reg r n ∈ enc.operands ∧ r.largestEnclosing = .gpr64 x

/-- A high byte register of a family is among the operands. -/
def NamesHighByte (enc : EncInst) (x : Gpr) : Prop :=
  ∃ h n, EncOperand.reg (.gpr8h h) n ∈ enc.operands ∧ h.family = x

/-- The instruction uses a family, which may be implicit in it. -/
def Uses (implicit : EncInst → Gpr → Prop) (enc : EncInst) (x : Gpr) : Prop :=
  enc.Names x ∨ implicit enc x

/-- The renaming leaves alone what has no other name: implicit registers and high bytes. -/
def Renamable (implicit : EncInst → Gpr → Prop) (π : Equiv.Perm Gpr) (enc : EncInst) : Prop :=
  ∀ x, implicit enc x ∨ enc.NamesHighByte x → π x = x

end EncInst

/-- One state is the other, renamed, as far as some families go. -/
structure NativeState.Renamed (uses : Gpr → Prop) (π : Equiv.Perm Gpr) (s t : NativeState) :
    Prop where
  gpr : ∀ x, uses x → t.gpr (π x) = s.gpr x
  xmm : t.xmm = s.xmm
  rflags : t.rflags = s.rflags
  cell : t.cell = s.cell
  fpu : t.fpu = s.fpu

/-- The processor does not care how registers are called, and changes those only that an
instruction uses. -/
structure CommutesWithRenaming (cpu : Cpu) (implicit : EncInst → Gpr → Prop) : Prop where
  same_implicit : ∀ {enc π x}, enc.Renamable implicit π → implicit (enc.rename π) x → implicit enc x
  signal : ∀ {enc π s t}, enc.Renamable implicit π →
    NativeState.Renamed (enc.Uses implicit) π s t →
    (cpu.native (enc.rename π) t).1 = (cpu.native enc s).1
  native : ∀ {enc π s t}, enc.Renamable implicit π →
    NativeState.Renamed (enc.Uses implicit) π s t → (cpu.native enc s).1 = .none →
    NativeState.Renamed (enc.Uses implicit) π (cpu.native enc s).2 (cpu.native (enc.rename π) t).2
  kept : ∀ {enc s x}, ¬enc.Uses implicit x → (cpu.native enc s).1 = .none →
    (cpu.native enc s).2.gpr x = s.gpr x

/-- XED enumerates the general-purpose registers of each width in the same order. -/
def Xed.SameOrder (xed : Xed) : Prop :=
  ∀ r ∈ [Reg.gpr8, Reg.gpr16, Reg.gpr32], ∀ x,
    xed.index (r x) - xed.index (r .rax) = xed.index (.gpr64 x) - xed.index (.gpr64 .rax)

/-! ## without the alias -/

namespace Executor

variable (ex : Executor σ)

/-- `DecodeRegN` without the alias. -/
def directOperand (inst : Inst) (op : Operand) (opIndex : Nat) (g : Globals) :
    EncOperand × Globals :=
  match op.name with
  | .reg r =>
      if isEncodable r ∧ inst.reg r ≠ .invalid then
        (.reg (inst.reg r) (ex.width (inst.reg r)), g)
      else (.invalid, g)
  | _ => ex.encodableOperand inst op opIndex g

def directOperands (inst : Inst) :
    List Operand → List EncOperand → Globals → List EncOperand × Globals
  | [], encoded, g => (encoded, g)
  | op :: ops, encoded, g =>
      if op.visibility = .suppressed then directOperands inst ops encoded g
      else
        let r := ex.directOperand inst op encoded.length g
        directOperands inst ops (encoded ++ [r.1]) r.2

/-- The instruction as it is, for the encoder. -/
def createDirect (inst : Inst) (g : Globals) : EncInst × Globals :=
  let r := ex.directOperands inst inst.operands [] g
  ({ iclass := inst.iclass, operandWidth := inst.operandWidth, operands := r.1 }, r.2)

def encodeDirect (inst : Inst) : ExecM σ EncInst := do
  let g ← getGlobals
  let r := ex.createDirect inst g
  onGlobals fun _ => r.2
  check (ex.xed.encode r.1) .errorExecute
  if (r.2.memory 0).present then do
    let enc := relativize (r.2.memory 0).memOp r.1
    check (ex.xed.encode enc) .errorExecute
    pure enc
  else pure r.1

/-- The state to run on, with the stack pointer of the environment. -/
def loadDirect (g : Globals) : NativeState :=
  { ex.loadNative g with gpr := fun x => (g.regs (.gpr64 x)).setWidth 64 }

/-- What is kept of the state after the run, the stack pointer included. -/
def storeDirect (s : NativeState) (g : Globals) : Globals :=
  (storeNative s g).setReg (.gpr64 .rsp) (Bits.put 0 64 (g.regs (.gpr64 .rsp)) (s.gpr .rsp))

def runDirect (inst : Inst) : ExecM σ Unit := do
  let enc ← ex.encodeDirect inst
  let g ← getGlobals
  let r : Signal × Globals :=
    if ex.hasAVX512 ∨ ex.hasAVX then (.ill, g)
    else
      let r := ex.cpu.native enc (ex.loadDirect g)
      (r.1, storeDirect r.2 g)
  onGlobals fun _ => r.2
  checkSignal r.1

/-- `carryOut`, directly. -/
def carryOutDirect (inst : Inst) (nextPC : Word) : ExecM σ Word := do
  let g ← getGlobals
  match ex.emulate inst nextPC g with
  | .emulated nextPC g => do
      onGlobals fun _ => g
      pure nextPC
  | .unsupported status => throw status
  | .notEmulated nextPC => do
      ex.runDirect inst
      pure nextPC

/-- `perform`, directly. -/
def performDirect (inst : Inst) : ExecM σ Word := do
  let g ← getGlobals
  let nextPC := ex.getNextPC inst g
  if isNop inst then pure nextPC
  else do
    ex.readOperands inst
    let nextPC ← ex.carryOutDirect inst nextPC
    ex.writeOperands
    pure nextPC

/-- One instruction, directly. -/
def executeDirect : ExecM σ Unit := do
  check ex.isInitialized .errorNotInitialized
  let inst ← ex.fetch
  ex.readState inst
  let nextPC ← ex.performDirect inst
  ex.commit nextPC

/-- An encoding of an instruction, with its memory operand pointing to the cell or not yet. -/
def Encodes (inst : Inst) (enc : EncInst) : Prop :=
  ∃ memOp g, enc = relativize memOp (ex.createDirect inst g).1

end Executor

/-! ## operands -/

/-- A part of the stack pointer. -/
def Reg.isStackPointer (r : Reg) : Bool := r.largestEnclosing = .gpr64 .rsp

namespace Inst

variable (inst : Inst)

/-- The register of an operand that `CreateEncodableInstruction` hands over. -/
def encodableReg (op : Operand) : Option Reg :=
  match op.name with
  | .reg r => if Executor.isEncodable r ∧ inst.reg r ≠ .invalid then some (inst.reg r) else none
  | _ => none

/-- The registers that `CreateEncodableInstruction` hands over. -/
def encodableRegs (ops : List Operand) : List Reg :=
  (ops.filter (·.visibility ≠ .suppressed)).filterMap inst.encodableReg

/-- Among the registers handed over is the stack pointer. -/
def handsStackPointer (ops : List Operand) : Bool :=
  (inst.encodableRegs ops).any Reg.isStackPointer

variable {inst}

theorem reads_of_encodable {r : Reg} (hr : r ∈ inst.encodableRegs inst.operands) {x : Gpr}
    (hx : r.largestEnclosing = .gpr64 x) : inst.Reads x := by
  obtain ⟨op, hop, hreg⟩ := List.mem_filterMap.mp hr
  unfold encodableReg at hreg
  split at hreg
  case h_1 r' hname =>
    split at hreg
    · cases hreg
      refine ⟨_, operand_mem_readRegs (List.mem_of_mem_filter hop) hname, ?_⟩
      have hstack : (inst.reg r').isStackOp = false := by
        cases hr' : inst.reg r' <;> rw [hr'] at hx <;> first | rfl | cases hx
      simp [Reg.stored, hstack, hx]
    · cases hreg
  · cases hreg

end Inst

namespace EncOperand

variable {op : EncOperand} {r : Reg} {n : Nat}

theorem pointToCell_eq_reg : Executor.pointToCell op = .reg r n ↔ op = .reg r n := by
  cases op <;> simp [Executor.pointToCell]

theorem rename_pointToCell (π : Equiv.Perm Gpr) (op : EncOperand) :
    (Executor.pointToCell op).rename π = Executor.pointToCell (op.rename π) := by
  cases op <;> rfl

end EncOperand

namespace Executor

/-- Pointing to the cell and renaming do not interfere. -/
theorem relativize_rename (memOp : Option Nat) (enc : EncInst) (π : Equiv.Perm Gpr) :
    relativize memOp (enc.rename π) = (relativize memOp enc).rename π := by
  have hmodify (l : List EncOperand) : ∀ i, (l.map (EncOperand.rename π)).modify i pointToCell =
      (l.modify i pointToCell).map (EncOperand.rename π) := by
    induction l with
    | nil => intro i; simp
    | cons op l ih =>
        intro i
        cases i with
        | zero => simp [EncOperand.rename_pointToCell]
        | succ i => simp [ih i]
  cases memOp with
  | none => rfl
  | some i => simp [relativize, EncInst.rename, hmodify]

/-- Pointing to the cell changes no register operand. -/
theorem reg_mem_relativize {memOp : Option Nat} {enc : EncInst} {r : Reg} {n : Nat} :
    EncOperand.reg r n ∈ (relativize memOp enc).operands ↔ EncOperand.reg r n ∈ enc.operands := by
  have hmodify (l : List EncOperand) : ∀ i,
      EncOperand.reg r n ∈ l.modify i pointToCell ↔ EncOperand.reg r n ∈ l := by
    induction l with
    | nil => intro i; simp
    | cons op l ih =>
        intro i
        cases i with
        | zero => rw [List.modify_zero_cons, List.mem_cons, List.mem_cons, eq_comm, EncOperand.pointToCell_eq_reg,
              eq_comm]
        | succ i => simp only [List.modify_succ_cons, List.mem_cons, ih i]
  cases memOp with
  | none => rfl
  | some i => exact hmodify enc.operands i

variable (ex : Executor σ) (inst : Inst)

/-- The register operands of the direct encoding are the registers handed over. -/
theorem reg_mem_directOperands {r : Reg} (ops : List Operand) : ∀ {encoded : List EncOperand}
    {g : Globals}, (∃ n, EncOperand.reg r n ∈ (ex.directOperands inst ops encoded g).1) ↔
      (∃ n, EncOperand.reg r n ∈ encoded) ∨ r ∈ inst.encodableRegs ops := by
  induction ops with
  | nil => simp [directOperands, Inst.encodableRegs]
  | cons op ops ih =>
      intro encoded g
      unfold directOperands
      by_cases hsup : op.visibility = .suppressed
      · rw [if_pos hsup, ih]
        simp [Inst.encodableRegs, hsup]
      · have hcons : inst.encodableRegs (op :: ops) =
            (inst.encodableReg op).toList ++ inst.encodableRegs ops := by
          simp only [Inst.encodableRegs, List.filter_cons, hsup, ne_eq, not_false_eq_true, decide_true,
            if_true, List.filterMap_cons]
          cases inst.encodableReg op <;> rfl
        have hone : (∃ n, EncOperand.reg r n = (ex.directOperand inst op encoded.length g).1) ↔
            r ∈ (inst.encodableReg op).toList := by
          have himm (n : Nat) (name : OperandName) : EncOperand.reg r n ≠ decodeImm0 inst name g := by
            unfold decodeImm0
            split <;> exact EncOperand.noConfusion
          unfold directOperand Inst.encodableReg
          cases hname : op.name with
          | reg r' =>
              by_cases henc : isEncodable r' ∧ inst.reg r' ≠ .invalid
              · simp [henc]
              · simp [henc]
          | _ => simp [encodableOperand, hname, decodeMem0, himm, decodeImm1]
        rw [if_neg hsup, ih, hcons]
        simp only [List.mem_append, List.mem_singleton, exists_or, hone, or_assoc]

end Executor

/-! ## the alias -/

theorem Reg.rename_of_ne {r : Reg} {x : Gpr} (hrsp : r.isStackPointer = false)
    (hx : r.largestEnclosing ≠ .gpr64 x) : r.rename (Equiv.swap .rsp x) = r := by
  have hfix {y : Gpr} (hr : r.largestEnclosing = .gpr64 y) : Equiv.swap .rsp x y = y := by
    refine Equiv.swap_apply_of_ne_of_ne ?_ ?_
    · rintro rfl
      simp [Reg.isStackPointer, hr] at hrsp
    · rintro rfl
      exact hx hr
  cases r <;> first | rfl | (simp only [Reg.rename]; rw [hfix rfl])

theorem Xed.ofIndex_index (xed : Xed) (r : Reg) : xed.ofIndex (xed.index r) = r := by
  have hlt := List.idxOf_lt_length_of_mem (xed.mem_regs r)
  rw [ofIndex, index, Int.toNat_natCast, List.getD_eq_getElem _ _ hlt, List.getElem_idxOf hlt]

namespace Executor

variable (ex : Executor σ)

/-- The globals with an alias taken. -/
def withAlias (x : Gpr) (g : Globals) : Globals :=
  ex.writeGPR (.gpr64 x) (ex.readGPR (.gpr64 .rsp) g) { g with stackPtrAlias := .gpr64 x }

/-- The globals, with an alias perhaps. -/
def aliasedIf (taken : Bool) (x : Gpr) (g : Globals) : Globals :=
  if taken then ex.withAlias x g else g

theorem takeAlias_aliasedIf (taken : Bool) {x : Gpr} {g : Globals}
    (halias : g.stackPtrAlias = .invalid) (hfree : freeRegister g = .gpr64 x) :
    ex.takeAlias (ex.aliasedIf taken x g) = ex.withAlias x g := by
  cases taken with
  | false =>
      rw [aliasedIf, if_neg Bool.false_ne_true, takeAlias, if_pos halias, hfree, withAlias]
  | true =>
      have htaken : (ex.withAlias x g).stackPtrAlias = .gpr64 x := rfl
      rw [aliasedIf, if_pos rfl, takeAlias, if_neg (by simp [htaken])]

/-- Scaled down, the alias is the renamed register. -/
theorem scaleAlias_eq (horder : ex.xed.SameOrder) {reg : Reg} (hreg : reg.isStackPointer = true)
    (x : Gpr) : ex.scaleAlias reg (.gpr64 x) = reg.rename (Equiv.swap .rsp x) := by
  have hscaled {r : Gpr → Reg} (hr : r ∈ [Reg.gpr8, Reg.gpr16, Reg.gpr32]) :
      ex.xed.ofIndex (ex.xed.index (.gpr64 x) - ex.xed.index (.gpr64 .rax) + ex.xed.index (r .rax)) =
        r x := by
    rw [← horder r hr x, sub_add_cancel, ex.xed.ofIndex_index]
  have hlargest : reg.largestEnclosing = .gpr64 .rsp := by simpa [Reg.isStackPointer] using hreg
  cases reg with
  | gpr64 y => cases hlargest; simp [scaleAlias, Reg.rename]
  | gpr32 y => cases hlargest; simpa [scaleAlias, Reg.rename] using hscaled (r := Reg.gpr32) (by simp)
  | gpr16 y => cases hlargest; simpa [scaleAlias, Reg.rename] using hscaled (r := Reg.gpr16) (by simp)
  | gpr8 y => cases hlargest; simpa [scaleAlias, Reg.rename] using hscaled (r := Reg.gpr8) (by simp)
  | gpr8h h => cases h <;> cases hlargest
  | _ => cases hlargest

/-- A register operand with the alias is the operand without it, renamed. -/
theorem decodeRegN_eq (horder : ex.xed.SameOrder) (taken : Bool) {x : Gpr} {g : Globals}
    (halias : g.stackPtrAlias = .invalid) {reg : Reg} (hx : reg.largestEnclosing ≠ .gpr64 x)
    (hfree : reg.isStackPointer = true → freeRegister g = .gpr64 x) :
    ex.decodeRegN reg (ex.aliasedIf taken x g) =
      ((EncOperand.reg reg (ex.width reg)).rename (Equiv.swap .rsp x),
        ex.aliasedIf (taken || reg.isStackPointer) x g) := by
  unfold decodeRegN
  cases hreg : reg.isStackPointer with
  | false =>
      have hne : reg.largestEnclosing ≠ .gpr64 .rsp := by simpa [Reg.isStackPointer] using hreg
      rw [if_neg hne, EncOperand.rename, Reg.rename_of_ne hreg hx, Bool.or_false]
  | true =>
      have heq : reg.largestEnclosing = .gpr64 .rsp := by simpa [Reg.isStackPointer] using hreg
      have hwidth : ex.width (reg.rename (Equiv.swap .rsp x)) = ex.width reg := by
        cases reg <;> rfl
      have halias' : (ex.withAlias x g).stackPtrAlias = .gpr64 x := rfl
      rw [if_pos heq, getStackPointerAlias, ex.takeAlias_aliasedIf taken halias (hfree hreg), halias',
        ex.scaleAlias_eq horder hreg]
      dsimp only
      rw [hwidth, Bool.or_true, EncOperand.rename, aliasedIf, if_pos rfl]

theorem aliasedIf_setCell (taken : Bool) (x : Gpr) (g : Globals) (cell : Cell) :
    ex.aliasedIf taken x (g.setCell 0 cell) = (ex.aliasedIf taken x g).setCell 0 cell := by
  cases taken <;> rfl

theorem memory_aliasedIf (taken : Bool) (x : Gpr) (g : Globals) :
    (ex.aliasedIf taken x g).memory = g.memory := by
  cases taken <;> rfl

theorem immediate_aliasedIf (taken : Bool) (x : Gpr) (g : Globals) :
    (ex.aliasedIf taken x g).immediate = g.immediate := by
  cases taken <;> rfl

variable (inst : Inst)

/-- What an operand needs so that the alias can stand for the stack pointer. -/
def AliasFits (inst : Inst) (ops : List Operand) (x : Gpr) (g : Globals) : Prop :=
  g.stackPtrAlias = .invalid ∧ (∀ r ∈ inst.encodableRegs ops, r.largestEnclosing ≠ .gpr64 x) ∧
    (inst.handsStackPointer ops = true → freeRegister g = .gpr64 x)

/-- Describing operands directly changes nothing but where the memory operand is. -/
def DescribesOnly (g g' : Globals) : Prop :=
  g'.stackPtrAlias = g.stackPtrAlias ∧ g'.usedRegs = g.usedRegs ∧ g'.storeRegs = g.storeRegs

theorem directOperand_kept (op : Operand) (i : Nat) (g : Globals) :
    DescribesOnly g (ex.directOperand inst op i g).2 := by
  unfold directOperand
  cases hname : op.name with
  | reg r => dsimp only; split <;> exact ⟨rfl, rfl, rfl⟩
  | _ => dsimp only; rw [encodableOperand, hname]; exact ⟨rfl, rfl, rfl⟩

theorem directOperands_kept (ops : List Operand) : ∀ encoded g,
    DescribesOnly g (ex.directOperands inst ops encoded g).2 := by
  induction ops with
  | nil => exact fun _ _ => ⟨rfl, rfl, rfl⟩
  | cons op ops ih =>
      intro encoded g
      unfold directOperands
      split
      · exact ih _ _
      · obtain ⟨halias, hused, hstore⟩ := ih (encoded ++ [(ex.directOperand inst op encoded.length g).1])
          (ex.directOperand inst op encoded.length g).2
        obtain ⟨halias', hused', hstore'⟩ := ex.directOperand_kept inst op encoded.length g
        exact ⟨halias.trans halias', hused.trans hused', hstore.trans hstore'⟩

theorem DescribesOnly.freeRegister_eq {g g' : Globals} (h : DescribesOnly g g') :
    freeRegister g' = freeRegister g := by
  simp only [freeRegister, h.2.2]

theorem encodableOperand_eq (horder : ex.xed.SameOrder) (taken : Bool) {op : Operand}
    (hvisible : op.visibility ≠ .suppressed) {x : Gpr} {g : Globals} (hfits : AliasFits inst [op] x g)
    (i : Nat) :
    ex.encodableOperand inst op i (ex.aliasedIf taken x g) =
      ((ex.directOperand inst op i g).1.rename (Equiv.swap .rsp x),
        ex.aliasedIf (taken || inst.handsStackPointer [op]) x (ex.directOperand inst op i g).2) := by
  obtain ⟨halias, hne, hfree⟩ := hfits
  have hregs : inst.encodableRegs [op] = (inst.encodableReg op).toList := by
    simp only [Inst.encodableRegs, List.filter_cons, hvisible, ne_eq, not_false_eq_true, decide_true,
      if_true, List.filter_nil, List.filterMap_cons, List.filterMap_nil]
    cases inst.encodableReg op <;> rfl
  unfold Inst.handsStackPointer at hfree ⊢
  rw [hregs] at hne hfree ⊢
  unfold Inst.encodableReg at hne hfree ⊢
  cases hname : op.name with
  | reg r =>
      simp only [encodableOperand, directOperand, hname] at hne hfree ⊢
      by_cases henc : isEncodable r ∧ inst.reg r ≠ .invalid
      · simp only [if_pos henc, Option.toList_some, List.any_cons, List.any_nil, Bool.or_false]
          at hne hfree ⊢
        exact ex.decodeRegN_eq horder taken halias (hne _ List.mem_cons_self) hfree
      · simp only [if_neg henc, Option.toList_none, List.any_nil, Bool.or_false, EncOperand.rename]
  | mem0 =>
      simp only [encodableOperand, directOperand, hname, decodeMem0, Option.toList_none, List.any_nil,
        Bool.or_false, EncOperand.rename, memory_aliasedIf, aliasedIf_setCell]
  | imm0 | imm0signed =>
      simp only [encodableOperand, directOperand, hname, decodeImm0, Option.toList_none, List.any_nil,
        Bool.or_false, immediate_aliasedIf]
      split <;> rfl
  | _ =>
      simp only [encodableOperand, directOperand, hname, decodeImm1, Option.toList_none, List.any_nil,
        Bool.or_false, EncOperand.rename]

/-- The operands with the alias are those without it, renamed. -/
theorem encodableOperands_eq (horder : ex.xed.SameOrder) {x : Gpr} (ops : List Operand) :
    ∀ {taken : Bool} {encoded : List EncOperand} {g : Globals}, AliasFits inst ops x g →
      ex.encodableOperands inst ops (encoded.map (EncOperand.rename (Equiv.swap .rsp x)))
          (ex.aliasedIf taken x g) =
        ((ex.directOperands inst ops encoded g).1.map (EncOperand.rename (Equiv.swap .rsp x)),
          ex.aliasedIf (taken || inst.handsStackPointer ops) x (ex.directOperands inst ops encoded g).2) := by
  induction ops with
  | nil =>
      intro taken encoded g _
      simp [encodableOperands, directOperands, Inst.handsStackPointer, Inst.encodableRegs]
  | cons op ops ih =>
      intro taken encoded g hfits
      unfold encodableOperands directOperands
      by_cases hsup : op.visibility = .suppressed
      · have hregs : inst.encodableRegs (op :: ops) = inst.encodableRegs ops := by
          simp [Inst.encodableRegs, hsup]
        rw [AliasFits, Inst.handsStackPointer, hregs] at hfits
        rw [if_pos hsup, if_pos hsup, ih hfits, Inst.handsStackPointer, Inst.handsStackPointer, hregs]
      · have hregs : inst.encodableRegs (op :: ops) =
            inst.encodableRegs [op] ++ inst.encodableRegs ops := by
          simp only [Inst.encodableRegs, List.filter_cons, hsup, ne_eq, not_false_eq_true, decide_true,
            if_true, List.filter_nil, List.filterMap_cons, List.filterMap_nil]
          cases inst.encodableReg op <;> rfl
        obtain ⟨halias, hne, hfree⟩ := hfits
        rw [Inst.handsStackPointer, hregs, List.any_append, Bool.or_eq_true] at hfree
        rw [hregs] at hne
        have hone : AliasFits inst [op] x g :=
          ⟨halias, fun r hr => hne r (List.mem_append_left _ hr), fun h => hfree (.inl h)⟩
        have hkept := ex.directOperand_kept inst op encoded.length g
        have hrest : AliasFits inst ops x (ex.directOperand inst op encoded.length g).2 :=
          ⟨hkept.1.trans halias, fun r hr => hne r (List.mem_append_right _ hr),
            fun h => hkept.freeRegister_eq.trans (hfree (.inr h))⟩
        have hstep := ex.encodableOperand_eq inst horder taken hsup hone encoded.length
        rw [if_neg hsup, if_neg hsup, List.length_map, hstep]
        have hmap : encoded.map (EncOperand.rename (Equiv.swap .rsp x)) ++
            [(ex.directOperand inst op encoded.length g).1.rename (Equiv.swap .rsp x)] =
            (encoded ++ [(ex.directOperand inst op encoded.length g).1]).map
              (EncOperand.rename (Equiv.swap .rsp x)) := by simp
        dsimp only
        rw [hmap, ih hrest]
        congr 2
        rw [Inst.handsStackPointer, Inst.handsStackPointer, Inst.handsStackPointer, hregs,
          List.any_append, Bool.or_assoc]

end Executor

/-! ## the run on the processor -/

/-- Which register is renamed to the stack pointer: the alias, or itself if there is no alias. -/
inductive ChosenAlias (inst : Inst) (g : Globals) (x : Gpr) : Prop where
  | none (hands : inst.handsStackPointer inst.operands = false) (hx : x = .rsp)
  | taken (hands : inst.handsStackPointer inst.operands = true) (unread : ¬inst.Reads x)
      (free : Executor.freeRegister g = .gpr64 x)

namespace ChosenAlias

variable {ex : Executor σ} {inst : Inst} {g : Globals} {x y : Gpr} {enc : EncInst}
  {implicit : EncInst → Gpr → Prop} (hx : ChosenAlias inst g x)

/-- The registers an encoding names are handed over. -/
theorem names_iff (henc : ex.Encodes inst enc) : enc.Names y ↔
    ∃ r ∈ inst.encodableRegs inst.operands, r.largestEnclosing = .gpr64 y := by
  obtain ⟨memOp, g, rfl⟩ := henc
  have hiff (r : Reg) := @Executor.reg_mem_directOperands _ ex inst r inst.operands [] g
  simp only [List.not_mem_nil, exists_false, false_or] at hiff
  unfold EncInst.Names
  simp only [Executor.reg_mem_relativize, ← hiff]
  exact ⟨fun ⟨r, n, hn, hr⟩ => ⟨r, ⟨n, hn⟩, hr⟩, fun ⟨r, ⟨n, hn⟩, hr⟩ => ⟨r, n, hn, hr⟩⟩

/-- The stack pointer is handed over just if the encoding names it. -/
theorem names_rsp_iff (henc : ex.Encodes inst enc) :
    enc.Names .rsp ↔ inst.handsStackPointer inst.operands = true := by
  rw [names_iff henc, Inst.handsStackPointer, List.any_eq_true]
  simp only [Reg.isStackPointer, decide_eq_true_eq]

include hx

theorem fits (halias : g.stackPtrAlias = .invalid) : Executor.AliasFits inst inst.operands x g := by
  refine ⟨halias, fun r hr heq => ?_, fun hands => ?_⟩
  · cases hx with
    | none hands hrsp =>
        refine Bool.false_ne_true (hands.symm.trans (List.any_eq_true.mpr ⟨r, hr, ?_⟩))
        rw [Reg.isStackPointer, heq, hrsp, decide_eq_true rfl]
    | taken _ unread _ => exact unread (Inst.reads_of_encodable hr heq)
  · cases hx with
    | none hands' _ => cases hands'.symm.trans hands
    | taken _ _ free => exact free

variable (henc : ex.Encodes inst enc)
  (hlist : ∀ {y}, implicit enc y → inst.Reads y ∧ y ≠ .rsp)

include henc hlist

/-- The instruction does not use the alias. -/
theorem ne_of_uses (huses : enc.Uses implicit y) : y ≠ x := by
  rintro rfl
  cases hx with
  | none hands hrsp =>
      subst hrsp
      obtain hnames | himplicit := huses
      · cases hands.symm.trans ((names_rsp_iff henc).mp hnames)
      · exact (hlist himplicit).2 rfl
  | taken _ unread _ =>
      obtain hnames | himplicit := huses
      · obtain ⟨r, hr, heq⟩ := (names_iff henc).mp hnames
        exact unread (Inst.reads_of_encodable hr heq)
      · exact unread (hlist himplicit).1

theorem renamable : enc.Renamable implicit (Equiv.swap .rsp x) := by
  rintro y hy
  refine Equiv.swap_apply_of_ne_of_ne ?_ ?_
  · rintro rfl
    obtain himplicit | ⟨h, n, -, hfamily⟩ := hy
    · exact (hlist himplicit).2 rfl
    · cases h <;> cases hfamily
  · refine hx.ne_of_uses henc hlist ?_
    obtain himplicit | ⟨h, n, hmem, rfl⟩ := hy
    · exact .inr himplicit
    · exact .inl ⟨_, n, hmem, rfl⟩

/-- What the renamed instruction does not use, apart from the alias and the stack pointer. -/
theorem not_uses_rename (hcomm : CommutesWithRenaming ex.cpu implicit) (hrsp : y ≠ .rsp)
    (hyx : y ≠ x) (huses : ¬enc.Uses implicit y) :
    ¬(enc.rename (Equiv.swap .rsp x)).Uses implicit y := by
  rintro (⟨r, n, hmem, hr⟩ | himplicit)
  · obtain ⟨op, hop, heq⟩ := List.mem_map.mp hmem
    cases op with
    | reg r' n' =>
        simp only [EncOperand.rename, EncOperand.reg.injEq] at heq
        obtain ⟨rfl, rfl⟩ := heq
        have hfixed : Equiv.swap .rsp x y = y := Equiv.swap_apply_of_ne_of_ne hrsp hyx
        exact huses (.inl ⟨r', n', hop, Reg.largestEnclosing_of_rename hfixed hr⟩)
    | _ => cases heq
  · exact huses (.inr (hcomm.same_implicit (hx.renamable henc hlist) himplicit))

end ChosenAlias

namespace Executor

variable {ex : Executor σ} {inst : Inst} {g : Globals} {x : Gpr} {taken : Bool}

theorem regs_aliasedIf_of_ne {r : Reg} (hr : r ≠ .gpr64 x) :
    (ex.aliasedIf taken x g).regs r = g.regs r := by
  cases taken with
  | false => rfl
  | true => exact Function.update_of_ne hr _ _

theorem setWidth_regs_withAlias :
    ((ex.withAlias x g).regs (.gpr64 x)).setWidth 64 = (g.regs (.gpr64 .rsp)).setWidth 64 := by
  have hself : (ex.withAlias x g).regs (.gpr64 x) =
      Bits.put 0 64 (g.regs (.gpr64 x)) (ex.readGPR (.gpr64 .rsp) g) :=
    Function.update_self _ _ _
  rw [hself, Bits.setWidth_put le_rfl (by decide)]
  simp [readGPR, Globals.readGPR, Globals.readValue, Reg.isGPR8h, width, Reg.widthBits64,
    Reg.largestEnclosing]

end Executor

namespace Executor

variable {s s' : NativeState} {regs regs' : Reg → Data}

theorem nativeReg_gpr {y : Gpr} (hrsp : y ≠ .rsp) :
    nativeReg s regs (.gpr64 y) = Bits.put 0 64 (regs (.gpr64 y)) (s.gpr y) := by
  cases y <;> first | rfl | exact absurd rfl hrsp

theorem nativeReg_congr {r : Reg} (hr : ∀ y, r ≠ .gpr64 y) (hregs : regs' r = regs r)
    (hxmm : s'.xmm = s.xmm) (hrflags : s'.rflags = s.rflags) :
    nativeReg s' regs' r = nativeReg s regs r := by
  cases r with
  | gpr64 y => exact absurd rfl (hr y)
  | rflags => simp only [nativeReg, hregs, hrflags]
  | ymm i => simp only [nativeReg, hregs, hxmm]
  | _ => exact hregs

end Executor

namespace ChosenAlias

variable {ex : Executor σ} {inst : Inst} {g : Globals} {x : Gpr} {enc : EncInst}
  {implicit : EncInst → Gpr → Prop}

/-- The state to run on with the alias is the one to run on directly, renamed. -/
theorem load_renamed (hx : ChosenAlias inst g x) (henc : ex.Encodes inst enc)
    (hlist : ∀ {y}, implicit enc y → inst.Reads y ∧ y ≠ .rsp) :
    NativeState.Renamed (enc.Uses implicit) (Equiv.swap .rsp x) (ex.loadDirect g)
      (ex.loadNative (ex.aliasedIf (inst.handsStackPointer inst.operands) x g)) := by
  constructor
  case gpr =>
    intro y huses
    have hyx := hx.ne_of_uses henc hlist huses
    by_cases hrsp : y = .rsp
    · subst hrsp
      cases hx with
      | none _ hx => exact absurd hx.symm hyx
      | taken hands _ _ =>
          rw [Equiv.swap_apply_left, hands]
          change (if x = .rsp then _ else ((ex.withAlias x g).regs (.gpr64 x)).setWidth 64) = _
          rw [if_neg hyx.symm, Executor.setWidth_regs_withAlias]
          rfl
    · rw [Equiv.swap_apply_of_ne_of_ne hrsp hyx]
      change (if y = .rsp then _ else ((Executor.aliasedIf ex _ x g).regs (.gpr64 y)).setWidth 64) = _
      rw [if_neg hrsp, Executor.regs_aliasedIf_of_ne fun heq => hyx (Reg.gpr64.inj heq)]
      rfl
  case xmm =>
    funext i
    change ((Executor.aliasedIf ex _ x g).regs (.ymm _)).setWidth 128 = (g.regs (.ymm _)).setWidth 128
    rw [Executor.regs_aliasedIf_of_ne Reg.noConfusion]
  case rflags =>
    change ((Executor.aliasedIf ex _ x g).regs .rflags).setWidth 64 = (g.regs .rflags).setWidth 64
    rw [Executor.regs_aliasedIf_of_ne Reg.noConfusion]
  case cell =>
    change ((Executor.aliasedIf ex _ x g).memory 0).data = (g.memory 0).data
    rw [Executor.memory_aliasedIf]
  case fpu => cases inst.handsStackPointer inst.operands <;> rfl

/-- What is known of the states after the two runs. -/
structure Carried (g : Globals) (x : Gpr) (taken : Bool) (s t : NativeState) : Prop where
  gpr : ∀ {y}, y ≠ .rsp → y ≠ x → t.gpr y = s.gpr y
  aliased : taken = true → t.gpr x = s.gpr .rsp
  rsp : taken = false → s.gpr .rsp = (g.regs (.gpr64 .rsp)).setWidth 64
  xmm : t.xmm = s.xmm
  rflags : t.rflags = s.rflags
  cell : t.cell = s.cell
  fpu : t.fpu = s.fpu

/-- What the two runs leave in the registers is the same once the alias is dropped. -/
theorem finalReg_carried (hx : ChosenAlias inst g x) (hg : Gathered inst.readRegs g)
    {s t : NativeState} (hcarried : Carried g x (inst.handsStackPointer inst.operands) s t) {r : Reg}
    (hused : g.usedRegs r = true) :
    let taken := inst.handsStackPointer inst.operands
    ex.finalReg (Executor.storeDirect s g) r =
      ex.finalReg (Executor.storeNative t (ex.aliasedIf taken x g)) r := by
  intro taken
  have hdirect : ex.finalReg (Executor.storeDirect s g) r =
      Function.update (Executor.nativeReg s g.regs) (.gpr64 .rsp)
        (Bits.put 0 64 (g.regs (.gpr64 .rsp)) (s.gpr .rsp)) r.largestEnclosing := by
    have hnone : (Executor.storeDirect s g).stackPtrAlias = .invalid := hg.noAlias
    rw [Executor.finalReg, ex.regs_dropAlias, if_pos hnone]
    rfl
  rw [hdirect]
  by_cases hgpr : ∃ y, r.largestEnclosing = .gpr64 y
  · obtain ⟨y, hy⟩ := hgpr
    have hread : inst.Reads y := (hg.stored y).mp (hg.used r y hused hy)
    rw [Executor.finalReg, ex.regs_dropAlias, hy]
    by_cases hrsp : y = .rsp
    · subst hrsp
      rw [Function.update_self]
      cases hx with
      | none hands hx =>
          have hnone : (Executor.storeNative t (ex.aliasedIf taken x g)).stackPtrAlias = .invalid := by
            have htaken : taken = false := hands
            rw [htaken]
            exact hg.noAlias
          have hregs : (ex.aliasedIf taken x g).regs (.gpr64 .rsp) = g.regs (.gpr64 .rsp) := by
            have htaken : taken = false := hands
            rw [htaken]
            rfl
          rw [if_pos hnone, hcarried.rsp hands, Bits.put_self]
          exact hregs.symm
      | taken hands unread _ =>
          have htaken : taken = true := hands
          have hxrsp : x ≠ .rsp := by
            rintro rfl
            exact unread hread
          have halias : (Executor.storeNative t (ex.aliasedIf taken x g)).stackPtrAlias = .gpr64 x := by
            rw [htaken]
            rfl
          have hvalue : ex.readGPR (.gpr64 x) (Executor.storeNative t (ex.aliasedIf taken x g)) =
              s.gpr .rsp := by
            change ((Executor.nativeReg t (ex.aliasedIf taken x g).regs (.gpr64 x)).setWidth 64).setWidth 64 = _
            rw [Executor.nativeReg_gpr hxrsp, Bits.setWidth_put le_rfl (by decide), hcarried.aliased hands]
            simp
          rw [halias, if_neg Reg.noConfusion, Function.update_self, hvalue]
          change _ = Bits.put 0 64 ((ex.aliasedIf taken x g).regs (.gpr64 .rsp)) _
          rw [Executor.regs_aliasedIf_of_ne fun heq => hxrsp (Reg.gpr64.inj heq).symm]
    · have hyx : y ≠ x := by
        rintro rfl
        cases hx with
        | none _ hx => exact hrsp hx
        | taken _ unread _ => exact unread hread
      have hne : Reg.gpr64 y ≠ .gpr64 .rsp := fun heq => hrsp (Reg.gpr64.inj heq)
      have hregs : (Executor.storeNative t (ex.aliasedIf taken x g)).regs (.gpr64 y) =
          Executor.nativeReg s g.regs (.gpr64 y) := by
        change Executor.nativeReg t (ex.aliasedIf taken x g).regs (.gpr64 y) = _
        rw [Executor.nativeReg_gpr hrsp, Executor.nativeReg_gpr hrsp, hcarried.gpr hrsp hyx,
          Executor.regs_aliasedIf_of_ne fun heq => hyx (Reg.gpr64.inj heq)]
      rw [Function.update_of_ne hne]
      split
      · exact hregs.symm
      · rw [Function.update_of_ne hne]
        exact hregs.symm
  · have hne (y : Gpr) : r.largestEnclosing ≠ .gpr64 y := fun hy => hgpr ⟨y, hy⟩
    rw [Executor.finalReg, ex.regs_dropAlias_of_ne hne, Function.update_of_ne (hne .rsp)]
    exact (Executor.nativeReg_congr hne (Executor.regs_aliasedIf_of_ne (hne x)) hcarried.xmm
      hcarried.rflags).symm

/-- The same will be written after the two runs. -/
theorem store_alike (hx : ChosenAlias inst g x) (hg : Gathered inst.readRegs g)
    {s t : NativeState} (hcarried : Carried g x (inst.handsStackPointer inst.operands) s t) :
    let taken := inst.handsStackPointer inst.operands
    WritesAlike ex (fun _ d d' => d' = d)
      (Executor.storeNative t (ex.aliasedIf taken x g)) (Executor.storeDirect s g) := by
  intro taken
  obtain ⟨regs, alias', haliased⟩ : ∃ regs alias', ex.aliasedIf taken x g =
      { g with regs := regs, stackPtrAlias := alias' } := by
    cases taken with
    | false => exact ⟨_, _, rfl⟩
    | true => exact ⟨_, _, rfl⟩
  have hrflags : (ex.aliasedIf taken x g).regs .rflags = g.regs .rflags :=
    Executor.regs_aliasedIf_of_ne Reg.noConfusion
  have haflag : (Executor.storeDirect s g).aflag =
      (Executor.storeNative t (ex.aliasedIf taken x g)).aflag := by
    change (Bits.put 0 64 (g.regs .rflags) s.rflags).setWidth 64 =
      (Bits.put 0 64 ((ex.aliasedIf taken x g).regs .rflags) t.rflags).setWidth 64
    rw [hrflags, hcarried.rflags]
  have hcell (i : Fin 2) : (Executor.storeDirect s g).memory i =
      (Executor.storeNative t (ex.aliasedIf taken x g)).memory i := by
    rw [haliased]
    change Function.update g.memory 0 { g.memory 0 with data := s.cell } i =
      Function.update g.memory 0 { g.memory 0 with data := t.cell } i
    rw [hcarried.cell]
  constructor
  case usedRegs => rw [haliased]; rfl
  case modifiedRegs => rw [haliased]; rfl
  case writeBackFlags => rw [haliased]; rfl
  case usesFPU => rw [haliased]; rfl
  case usesMMX => rw [haliased]; rfl
  case fpu =>
    intro _
    rw [haliased]
    change (if g.usesFPU then s.fpu else g.fpu) = if g.usesFPU then t.fpu else g.fpu
    rw [hcarried.fpu]
  case present => intro i; rw [hcell]
  case place => intro i _; rw [hcell]
  case data => intro i _; rw [hcell]
  case flag => intro f _; rw [haflag]
  case aliases =>
    refine ⟨?_, .inl hg.noAlias⟩
    cases htaken : taken with
    | false => exact .inl hg.noAlias
    | true => exact .inr ⟨x, rfl⟩
  case reg =>
    intro r hused _
    have hused' : g.usedRegs r = true := by
      rw [haliased] at hused
      exact hused
    exact hx.finalReg_carried hg hcarried hused'

/-- What the processor makes of the renamed instruction. -/
theorem carried (hx : ChosenAlias inst g x) (henc : ex.Encodes inst enc)
    (hlist : ∀ {y}, implicit enc y → inst.Reads y ∧ y ≠ .rsp)
    (hcomm : CommutesWithRenaming ex.cpu implicit)
    (hgood : (ex.cpu.native enc (ex.loadDirect g)).1 = .none) :
    let taken := inst.handsStackPointer inst.operands
    Carried g x taken (ex.cpu.native enc (ex.loadDirect g)).2
      (ex.cpu.native (enc.rename (Equiv.swap .rsp x)) (ex.loadNative (ex.aliasedIf taken x g))).2 := by
  intro taken
  have hren := hx.renamable henc hlist
  have hload := hx.load_renamed henc hlist
  have hafter := hcomm.native hren hload hgood
  have hgood' := (hcomm.signal hren hload).trans hgood
  refine ⟨fun {y} hrsp hyx => ?_, fun hands => ?_, fun hands => ?_, hafter.xmm, hafter.rflags,
    hafter.cell, hafter.fpu⟩
  · have hfixed : Equiv.swap .rsp x y = y := Equiv.swap_apply_of_ne_of_ne hrsp hyx
    by_cases huses : enc.Uses implicit y
    · rw [← hafter.gpr y huses, hfixed]
    · have hunused := hx.not_uses_rename henc hlist hcomm hrsp hyx huses
      rw [hcomm.kept huses hgood, hcomm.kept hunused hgood']
      change (if y = .rsp then _ else ((Executor.aliasedIf ex _ x g).regs (.gpr64 y)).setWidth 64) = _
      rw [if_neg hrsp, Executor.regs_aliasedIf_of_ne fun heq => hyx (Reg.gpr64.inj heq)]
      rfl
  · have huses : enc.Uses implicit .rsp := .inl ((names_rsp_iff henc).mpr hands)
    rw [← hafter.gpr .rsp huses, Equiv.swap_apply_left]
  · have huses : ¬enc.Uses implicit .rsp := by
      intro huses
      refine hx.ne_of_uses henc hlist huses ?_
      cases hx with
      | none _ hx => exact hx.symm
      | taken hands' _ _ => cases hands.symm.trans hands'
    exact hcomm.kept huses hgood

end ChosenAlias

end Microx
