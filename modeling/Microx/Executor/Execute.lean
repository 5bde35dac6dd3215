import Microx.Executor.Native

/-!
# Microx.Executor.Execute

The writing half of `Executor::Execute`, and the whole of it.

An instruction reads everything it needs, is carried out on the copies, and only
then writes: memory, the FPU, flags, registers, and the program counter last.
-/

namespace Microx

namespace Executor

variable {σ : Type} (ex : Executor σ)

/-! ## writing -/

/-- One round of the loop of `WriteMemory`. -/
def writeCell (memIndex : Fin 2) : ExecM σ Unit := do
  let g ← getGlobals
  let cell := g.memory memIndex
  if !cell.present || !cell.writeBack then pure ()
  else do
    let ok ← ex.callWriteMem cell.address cell.size cell.data
    check ok .errorWriteMem

/-- `WriteMemory`. -/
def writeMemory : ExecM σ Unit := do
  ex.writeCell 0
  ex.writeCell 1

/-- `if (gUsesFPU && !this->ReadFPU(gFPU))`. -/
def readFPUState : ExecM σ Unit := do
  let g ← getGlobals
  if g.usesFPU then do
    let r ← ex.callReadFPU g.fpu
    onGlobals fun g => { g with fpu := r.2 }
    check r.1 .errorReadFPU
  else pure ()

/-- `if (gUsesFPU && !this->WriteFPU(gFPU))`. -/
def writeFPUState : ExecM σ Unit := do
  let g ← getGlobals
  if g.usesFPU then do
    let ok ← ex.callWriteFPU g.fpu
    check ok .errorWriteFPU
  else pure ()

/-- One `WRITE_FLAG` line. -/
def writeFlag (f : Flag) : ExecM σ Unit := do
  let g ← getGlobals
  if f.get g.writeBackFlags then do
    let ok ← ex.callWriteReg (.flag f) 1 ((BitVec.ofBool (f.get g.aflag)).setWidth 512)
    check ok .errorWriteFlags
  else pure ()

/-- `gUsedRegs.reset(flags_reg); gModifiedRegs.reset(flags_reg)`. -/
def forgetFlags (g : Globals) : Globals :=
  { g with
    usedRegs := Function.update g.usedRegs (ex.widestRegister .eflags) false
    modifiedRegs := Function.update g.modifiedRegs (ex.widestRegister .eflags) false }

/-- `WriteFlags`. -/
def writeFlags : ExecM σ Unit := do
  let g ← getGlobals
  if g.modifiedRegs (ex.widestRegister .eflags) then do
    onGlobals ex.forgetFlags
    Flag.all.forM ex.writeFlag
    onGlobals fun g => { g with writeBackFlags := 0 }
  else pure ()

/-- `SetNextPC`. -/
def setNextPC (nextPC : Word) (g : Globals) : Globals :=
  g.setReg .rip (Bits.put 0 64 (g.regs .rip) nextPC)

/-- What `WriteRegisters` does about an alias of the stack pointer. -/
def dropAlias (g : Globals) : Globals :=
  if g.stackPtrAlias ≠ .invalid then
    { ex.writeGPR (.gpr64 .rsp) (ex.readGPR g.stackPtrAlias g) g with stackPtrAlias := .invalid }
  else g

/-- The call to `WriteReg` for a register. -/
def writeRegister (reg : Reg) : ExecM σ Unit := do
  let g ← getGlobals
  let ok ← ex.callWriteReg (.reg reg) (ex.width reg) (g.regs reg.largestEnclosing)
  check ok .errorWriteReg

/-- `i == XED_REG_EIP || i == XED_REG_RIP`. -/
def isPC (reg : Reg) : Bool := reg = .eip ∨ reg = .rip

/-- One round of the loop of `WriteRegisters`. -/
def writeModified (reg : Reg) : ExecM σ Unit := do
  let g ← getGlobals
  if g.usedRegs reg && !isPC reg && g.modifiedRegs reg then ex.writeRegister reg else pure ()

/-- `pc_reg`, the last program counter the loop of `WriteRegisters` came across. -/
def usedPC (g : Globals) : Option Reg :=
  (ex.xed.regs.filter fun reg => g.usedRegs reg && isPC reg).getLast?

/-- `WriteRegisters`. -/
def writeRegisters : ExecM σ Unit := do
  onGlobals ex.dropAlias
  ex.xed.regs.forM ex.writeModified
  let g ← getGlobals
  match ex.usedPC g with
  | some reg => ex.writeRegister reg
  | none => pure ()

/-! ## one instruction -/

/-- `XED_CATEGORY_NOP` or `XED_CATEGORY_WIDENOP`. -/
def isNop (inst : Inst) : Bool := inst.category = .nop ∨ inst.category = .widenop

/-- From the decoded instruction to the registers it needs. -/
def readState (inst : Inst) : ExecM σ Unit := do
  check (!ex.usesUnsupportedFeatures inst) .errorUnsupportedFeatures
  ex.readFlags inst
  ex.readRegisters inst

/-- `if (gUsesMMX)`, around a copy. -/
def whenMMX (f : Globals → Globals) (g : Globals) : Globals := if g.usesMMX then f g else g

/-- Emulate an instruction, or run it; the next program counter. -/
def carryOut (inst : Inst) (nextPC : Word) : ExecM σ Word := do
  let g ← getGlobals
  match ex.emulate inst nextPC g with
  | .emulated nextPC g => do
      onGlobals fun _ => g
      pure nextPC
  | .unsupported status => throw status
  | .notEmulated nextPC => do
      ex.runNative inst
      pure nextPC

/-- What an instruction that is no `NOP` reads besides its registers. -/
def readOperands (inst : Inst) : ExecM σ Unit := do
  ex.readFPUState
  onGlobals (whenMMX copyMMXStateToFPU)
  ex.readMemory inst

/-- What an instruction that is no `NOP` writes besides its flags and registers. -/
def writeOperands : ExecM σ Unit := do
  ex.writeMemory
  ex.writeFPUState
  onGlobals (whenMMX copyMMXStateFromFPU)

/-- The middle of the loop body of `Execute`; the next program counter. -/
def perform (inst : Inst) : ExecM σ Word := do
  let g ← getGlobals
  let nextPC := ex.getNextPC inst g
  if isNop inst then pure nextPC
  else do
    ex.readOperands inst
    let nextPC ← ex.carryOut inst nextPC
    ex.writeOperands
    pure nextPC

/-- The end of the loop body of `Execute`. -/
def commit (nextPC : Word) : ExecM σ Unit := do
  ex.writeFlags
  onGlobals (setNextPC nextPC)
  ex.writeRegisters

/-- The loop body of `Execute`. -/
def executeInstruction : ExecM σ Unit := do
  let inst ← ex.fetch
  ex.readState inst
  let nextPC ← ex.perform inst
  ex.commit nextPC

/-- The loop of `Execute`. -/
def executeLoop : Nat → ExecM σ Unit
  | 0 => pure ()
  | n + 1 => do
      ex.executeInstruction
      executeLoop n

/-- `Executor::Execute`. -/
def execute (maxNumExecutions : Nat) : ExecM σ Unit :=
  if maxNumExecutions = 0 then pure ()
  else do
    check ex.isInitialized .errorNotInitialized
    ex.executeLoop maxNumExecutions

variable {ex}

theorem execute_of_initialized (h : ex.isInitialized = true) (n : Nat) :
    ex.execute n = ex.executeLoop n := by
  cases n with
  | zero => rfl
  | succ n => simp [execute, h, check, executeLoop]

theorem execute_of_not_initialized (h : ex.isInitialized = false) {n : Nat} (hn : n ≠ 0)
    (w : World σ) : ex.execute n w = .error .errorNotInitialized w := by
  simp [execute, hn, h, check]

theorem execute_one (h : ex.isInitialized = true) : ex.execute 1 = ex.executeInstruction := by
  rw [execute_of_initialized h]
  simp [executeLoop]

end Executor

end Microx
