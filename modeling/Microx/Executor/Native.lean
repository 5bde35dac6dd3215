import Microx.Executor.Emulate

/-!
# Microx.Executor.Native

Instructions that run on the processor: the stack pointer is renamed to a free
register, the instruction is encoded again, and it is called with the registers
of the executor loaded.

The POSIX half of the source is modelled, for a 64-bit build.
-/

namespace Microx

namespace Executor

variable {σ : Type} (ex : Executor σ)

/-! ## the alias of the stack pointer -/

/-- A register that stores nothing the instruction needs. -/
def freeRegister (g : Globals) : Reg :=
  if !g.storeRegs (.gpr64 .rax) then .gpr64 .rax
  else if !g.storeRegs (.gpr64 .rcx) then .gpr64 .rcx
  else if !g.storeRegs (.gpr64 .rdx) then .gpr64 .rdx
  else if !g.storeRegs (.gpr64 .rbx) then .gpr64 .rbx
  -- Uh oh.
  else .invalid

/-- The first half of `GetStackPointerAlias`: make sure that there is an alias. -/
def takeAlias (g : Globals) : Globals :=
  if g.stackPtrAlias = .invalid then
    ex.writeGPR (freeRegister g) (ex.readGPR (.gpr64 .rsp) g)
      { g with stackPtrAlias := freeRegister g }
  else g

/-- The second half of `GetStackPointerAlias`: scale the alias down to the desired size. -/
def scaleAlias (reg stackPtrAlias : Reg) : Reg :=
  let offset := ex.xed.index stackPtrAlias - ex.xed.index (.gpr64 .rax)
  match reg with
  | .gpr8 .rsp => ex.xed.ofIndex (offset + ex.xed.index (.gpr8 .rax))
  | .gpr16 .rsp => ex.xed.ofIndex (offset + ex.xed.index (.gpr16 .rax))
  | .gpr32 .rsp => ex.xed.ofIndex (offset + ex.xed.index (.gpr32 .rax))
  | .gpr64 .rsp => stackPtrAlias
  | _ => .invalid

/-- `GetStackPointerAlias`. -/
def getStackPointerAlias (reg : Reg) (g : Globals) : Reg × Globals :=
  (ex.scaleAlias reg (ex.takeAlias g).stackPtrAlias, ex.takeAlias g)

/-! ## encoding -/

/-- `DecodeRegN`. -/
def decodeRegN (reg : Reg) (g : Globals) : EncOperand × Globals :=
  if reg.largestEnclosing = .gpr64 .rsp then
    let r := ex.getStackPointerAlias reg g
    (.reg r.1 (ex.width r.1), r.2)
  else (.reg reg (ex.width reg), g)

/-- `DecodeMem0`, for the operand at an index. -/
def decodeMem0 (opIndex : Nat) (g : Globals) : EncOperand × Globals :=
  (.mem (g.memory 0).size false, g.setCell 0 { g.memory 0 with memOp := some opIndex })

/-- `DecodeImm0`. -/
def decodeImm0 (inst : Inst) (opName : OperandName) (g : Globals) : EncOperand :=
  if opName = .imm0signed ∨ inst.immediateIsSigned then
    .simm0 inst.signedImmediate inst.immediateWidthBits
  else .imm0 g.immediate inst.immediateWidthBits

/-- `DecodeImm1`. -/
def decodeImm1 (inst : Inst) : EncOperand :=
  .imm1 inst.secondImmediate inst.immediateWidthBits

/-- The register operands `CreateEncodableInstruction` looks at. -/
def isEncodable (r : RegOp) : Bool := r ∈ [.reg0, .reg1, .reg2, .reg3]

/-- One round of the loop of `CreateEncodableInstruction`. -/
def encodableOperand (inst : Inst) (op : Operand) (opIndex : Nat) (g : Globals) :
    EncOperand × Globals :=
  match op.name with
  | .mem0 => decodeMem0 opIndex g
  | .reg r =>
      if isEncodable r ∧ inst.reg r ≠ .invalid then ex.decodeRegN (inst.reg r) g
      else (.invalid, g)
  | .imm0signed | .imm0 => (decodeImm0 inst op.name g, g)
  | .imm1Bytes | .imm1 => (decodeImm1 inst, g)
  | _ => (.invalid, g)

/-- The loop of `CreateEncodableInstruction`; `encoded` are the operands so far. -/
def encodableOperands (inst : Inst) :
    List Operand → List EncOperand → Globals → List EncOperand × Globals
  | [], encoded, g => (encoded, g)
  | op :: ops, encoded, g =>
      if op.visibility = .suppressed then encodableOperands inst ops encoded g
      else
        let r := ex.encodableOperand inst op encoded.length g
        encodableOperands inst ops (encoded ++ [r.1]) r.2

/-- `CreateEncodableInstruction`. -/
def createEncodableInstruction (inst : Inst) (g : Globals) : EncInst × Globals :=
  let r := ex.encodableOperands inst inst.operands [] g
  ({ iclass := inst.iclass, operandWidth := inst.operandWidth, operands := r.1 }, r.2)

/-- A memory operand whose displacement is set. -/
def pointToCell : EncOperand → EncOperand
  | .mem widthBits _ => .mem widthBits true
  | op => op

/-- Let the operand of cell 0 point to its data. -/
def relativize (memOp : Option Nat) (enc : EncInst) : EncInst :=
  match memOp with
  | some i => { enc with operands := enc.operands.modify i pointToCell }
  | none => enc

/-- `EncodeInstruction`. -/
def encodeInstruction (inst : Inst) : ExecM σ EncInst := do
  let g ← getGlobals
  let r := ex.createEncodableInstruction inst g
  onGlobals fun _ => r.2
  check (ex.xed.encode r.1) .errorExecute
  if (r.2.memory 0).present then do
    let enc := relativize (r.2.memory 0).memOp r.1
    check (ex.xed.encode enc) .errorExecute
    pure enc
  else pure r.1

/-! ## MMX registers -/

/-- The bit of `st[i].mmx` in an `FXSAVE` area. -/
def mmxOffset (i : Fin 8) : Nat := 8 * (32 + 16 * i)

/-- `COPY_FROM_MMX`: an MMX register and the 16 ones above it. -/
def copyFromMMX (g : Globals) (fpu : FPU) (i : Fin 8) : FPU :=
  if g.usedRegs (.mmx i) then
    Bits.put (mmxOffset i + 64) 16 (Bits.put (mmxOffset i) 64 fpu (g.regs (.mmx i))) 0xFFFF#16
  else fpu

/-- `CopyMMXStateToFPU`; the two layouts of the area agree on `st`. -/
def copyMMXStateToFPU (g : Globals) : Globals :=
  { g with fpu := (List.finRange 8).foldl (copyFromMMX g) g.fpu }

/-- `COPY_TO_MMX`. -/
def copyToMMX (g : Globals) (i : Fin 8) : Globals :=
  if g.usedRegs (.mmx i) then
    g.setReg (.mmx i) (Bits.put 0 64 (g.regs (.mmx i)) (g.fpu >>> mmxOffset i))
  else g

/-- `CopyMMXStateFromFPU`. -/
def copyMMXStateFromFPU (g : Globals) : Globals := (List.finRange 8).foldl copyToMMX g

/-! ## the call -/

/-- `LoadFPU` and the loads of `ExecuteNative`; the stack pointer stays the executor's own. -/
def loadNative (g : Globals) : NativeState where
  gpr r := if r = .rsp then ex.cpu.stackPointer else (g.regs (.gpr64 r)).setWidth 64
  xmm i := (g.regs (Reg.largestEnclosing (.xmm (i.castLE (by decide))))).setWidth 128
  rflags := g.aflag
  cell := (g.memory 0).data
  fpu := if g.usesFPU then g.fpu else ex.cpu.fpu

/-- What the stores of `ExecuteNative` put into a register. -/
def nativeReg (s : NativeState) (regs : Reg → Data) : Reg → Data
  | .gpr64 .rsp => regs (.gpr64 .rsp)
  | .gpr64 r => Bits.put 0 64 (regs (.gpr64 r)) (s.gpr r)
  | .rflags => Bits.put 0 64 (regs .rflags) s.rflags
  | .ymm i =>
      if h : i.val < 8 then Bits.put 0 128 (regs (.ymm i)) (s.xmm ⟨i, h⟩) else regs (.ymm i)
  | r => regs r

/-- The stores of `ExecuteNative` and `StoreFPU`. -/
def storeNative (s : NativeState) (g : Globals) : Globals :=
  { g.setData 0 s.cell with
    regs := nativeReg s g.regs
    fpu := if g.usesFPU then s.fpu else g.fpu }

/-- `ExecuteNative`, `ExecuteNativeAVX` or `ExecuteNativeAVX512`; there is only the first. -/
def executeNative (enc : EncInst) (g : Globals) : Signal × Globals :=
  if ex.hasAVX512 ∨ ex.hasAVX then (.ill, g)
  else
    let r := ex.cpu.native enc (ex.loadNative g)
    (r.1, storeNative r.2 g)

/-- `switch (gSignal)`. -/
def checkSignal : Signal → ExecM σ Unit
  | .none => pure ()
  | .segv | .bus => throw .errorFault
  | .fpe => throw .errorFloatingPointException
  | .ill => throw .errorExecute

/-- Encode an instruction and run it. -/
def runNative (inst : Inst) : ExecM σ Unit := do
  let enc ← ex.encodeInstruction inst
  let g ← getGlobals
  let r := ex.executeNative enc g
  onGlobals fun _ => r.2
  checkSignal r.1

/-! ## what running an instruction leaves alone -/

/-- An observation of the globals that no step of running an instruction affects. -/
structure Unseen {α : Type} (f : Globals → α) : Prop where
  setReg : ∀ r data g, f (g.setReg r data) = f g
  setAlias : ∀ r (g : Globals), f { g with stackPtrAlias := r } = f g
  setMemOp : ∀ i (g : Globals), f (g.setCell 0 { g.memory 0 with memOp := i }) = f g
  storeNative : ∀ s g, f (Executor.storeNative s g) = f g

namespace Unseen

variable {α : Type} {f : Globals → α} (h : Unseen f)

include h

theorem writeGPR (reg : Reg) (val : Word) (g : Globals) : f (ex.writeGPR reg val g) = f g := by
  simp only [Executor.writeGPR, Globals.writeGPR, Globals.writeValue]
  split_ifs
  all_goals first | rfl | exact h.setReg _ _ _

theorem takeAlias (g : Globals) : f (ex.takeAlias g) = f g := by
  unfold Executor.takeAlias
  split
  · rw [h.writeGPR]
    exact h.setAlias _ g
  · rfl

theorem encodableOperand (inst : Inst) (op : Operand) (i : Nat) (g : Globals) :
    f (ex.encodableOperand inst op i g).2 = f g := by
  have hreg (r : Reg) : f (ex.decodeRegN r g).2 = f g := by
    unfold decodeRegN
    split
    · exact h.takeAlias ex g
    · rfl
  unfold Executor.encodableOperand
  split
  · exact h.setMemOp _ g
  · split
    · exact hreg _
    · rfl
  · rfl
  · rfl
  · rfl
  · rfl
  · rfl

theorem encodableOperands (inst : Inst) (ops : List Operand) :
    ∀ encoded g, f (ex.encodableOperands inst ops encoded g).2 = f g := by
  induction ops with
  | nil => exact fun _ _ => rfl
  | cons op ops ih =>
      intro encoded g
      unfold Executor.encodableOperands
      split
      · exact ih _ _
      · rw [ih]
        exact h.encodableOperand ex inst op _ g

theorem executeNative (enc : EncInst) (g : Globals) : f (ex.executeNative enc g).2 = f g := by
  unfold Executor.executeNative
  split
  · rfl
  · exact h.storeNative _ g

end Unseen

end Executor

end Microx
