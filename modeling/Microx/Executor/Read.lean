import Microx.Executor.State

/-!
# Microx.Executor.Read

The reading half of `Executor::Execute`: the program counter, the instruction
bytes, flags, registers and memory, in the order in which an instruction asks
for them.

A function of the source that returns `false` is one that throws here; the
status it throws is the one `Execute` returns for it.
-/

namespace Microx

variable {σ : Type}

/-! ## registers -/

namespace Globals

/-- `if (RegRequestHint::kWriteBack == hint) gModifiedRegs.set(widest_reg)`. -/
def noteHint (hint : RegRequestHint) (widestReg : Reg) (g : Globals) : Globals :=
  if hint = .writeBack then g.setModified widestReg else g

/-- What the class of a register says about the FPU. -/
def noteClass (reg : Reg) (g : Globals) : Globals :=
  if reg.isMMX then { g with usesFPU := true, usesMMX := true } else g

/-- `memset(data.bytes, 0, size / 8)`. -/
def clearReg (storeReg : Reg) (size : Nat) (g : Globals) : Globals :=
  g.setReg storeReg (Bits.put 0 (8 * (size / 8)) (g.regs storeReg) 0#512)

end Globals

namespace Executor

variable (ex : Executor σ)

/-- The end of `ReadRegister`: ask for a register that was not asked for yet. -/
def requestRegister (reg widestReg : Reg) (hint : RegRequestHint) : ExecM σ Unit := do
  let size := ex.width widestReg
  let storeReg := reg.largestEnclosing
  onGlobals (Globals.clearReg storeReg size)
  let g ← getGlobals
  let r ← ex.callReadReg (.reg widestReg) size hint (g.regs storeReg)
  onGlobals fun g => ((g.setReg storeReg r.2).setUsed widestReg).setStore storeReg
  check r.1 .errorReadReg

/-- `ReadRegister`, from `WidestRegister` on. -/
def readWidest (reg : Reg) (hint : RegRequestHint) : ExecM σ Unit := do
  let widestReg := ex.widestRegister reg
  onGlobals (Globals.noteHint hint widestReg)
  let g ← getGlobals
  if g.usedRegs widestReg then pure () else ex.requestRegister reg widestReg hint

/-- `ReadRegister`. -/
def readRegister (reg : Reg) (hint : RegRequestHint) : ExecM σ Unit :=
  if reg = .invalid then pure ()
  else if reg.isX87 then onGlobals fun g => { g with usesFPU := true }
  else do
    onGlobals (Globals.noteClass reg)
    if reg.isStackOp then ex.readWidest (.gpr32 .rsp) .writeBack else ex.readWidest reg hint

/-- `ReadRegistersMemOp`. -/
def readRegistersMemOp (inst : Inst) (opNum : Fin 2) : ExecM σ Unit := do
  ex.readRegister (inst.memOperand opNum).baseReg .memoryBaseAddress
  ex.readRegister (inst.memOperand opNum).indexReg .memoryIndexAddress

/-- The first loop of `ReadRegisters`; the counter is `mem_index`. -/
def readMemRegisters (inst : Inst) : Nat → List Operand → ExecM σ Unit
  | _, [] => pure ()
  | memIndex, op :: ops =>
      if op.name.isMemory then do
        ex.readRegistersMemOp inst (Fin.ofNat 2 memIndex)
        readMemRegisters inst (memIndex + 1) ops
      else readMemRegisters inst memIndex ops

/-- The register of an operand that is one. -/
def readOperandRegister (inst : Inst) (hint : RegRequestHint) (op : Operand) : ExecM σ Unit :=
  match op.name with
  | .reg r => ex.readRegister (inst.reg r) hint
  | _ => pure ()

/-- `ReadRegisters`. -/
def readRegisters (inst : Inst) : ExecM σ Unit := do
  ex.readMemRegisters inst 0 inst.operands
  (inst.operands.filter (!·.written)).forM (ex.readOperandRegister inst .general)
  (inst.operands.filter (·.written)).forM (ex.readOperandRegister inst .writeBack)

/-! ## the program counter -/

/-- The widest program counter. -/
def pcReg : Reg := ex.widestRegister .eip

/-- `ReadPC`. -/
def readPC : ExecM σ Unit := do
  onGlobals (Globals.setModified ex.pcReg)
  ex.readRegister ex.pcReg .programCounter

/-- The low 32 bits in a 32-bit executor. -/
def truncatePC (pc : Word) : Word :=
  match ex.addrSize with
  | .x32 => (pc.setWidth 32).setWidth 64
  | .x64 => pc

/-- `GetPC`. -/
def getPC (g : Globals) : Word := ex.truncatePC (ex.readGPR ex.pcReg g)

/-- `GetNextPC`. -/
def getNextPC (inst : Inst) (g : Globals) : Word :=
  ex.truncatePC (ex.readGPR ex.pcReg g + BitVec.ofNat 64 inst.length)

/-! ## instruction bytes -/

/-- The fetch loop of `Execute`, from a length on downwards; the length that could be read. -/
def fetchBytes (pc : Word) : Nat → ExecM σ Nat
  | 0 => throw .errorReadInstMem
  | len + 1 => do
      let w ← get
      let r ← ex.callReadMem pc ((len + 1) * 8) .readExecutable w.idata
      modify (World.withIdata r.2)
      if r.1 then pure (len + 1)
      else do
        ex.callClearError
        fetchBytes pc len

/-- `DecodeInstruction`. -/
def decodeInstruction (numBytes : Nat) : ExecM σ Inst := do
  let w ← get
  match ex.xed.decode ex.addrSize (Bits.toBytes numBytes w.idata) with
  | none => throw .errorDecode
  | some inst => do
      onGlobals fun g => { g with immediate := inst.unsignedImmediate }
      pure inst

/-- What `Execute` resets before each instruction. -/
def resetGlobals (g : Globals) : Globals :=
  { g with
    usedRegs := fun _ => false
    modifiedRegs := fun _ => false
    storeRegs := fun _ => false
    stackPtrAlias := .invalid
    usesFPU := false
    usesMMX := false }

/-- From the top of the loop in `Execute` to the decoded instruction. -/
def fetch : ExecM σ Inst := do
  onGlobals resetGlobals
  ex.readPC
  let g ← getGlobals
  let pc ← ex.callComputeAddress (.reg (.seg .cs)) (ex.getPC g) 0 0 0 8 .readExecutable
  let instLength ← ex.fetchBytes pc 15
  ex.decodeInstruction instLength

/-! ## unsupported features -/

/-- The attributes `UsesUnsupportedAttributes` asks for. -/
def unsupportedAttributes : List Attribute :=
  [.ring0, .protectedMode, .farXfer, .exceptionBr, .x87MmxStateR, .x87MmxStateW, .x87MmxStateCW,
    .xmmStateR, .xmmStateW, .xmmStateCW, .exceptionBr, .kmask, .maskop, .maskopEvex,
    .maskAsControl, .maskVariableMemop]

/-- `UsesUnsupportedAttributes`. -/
def usesUnsupportedAttributes (inst : Inst) : Bool :=
  unsupportedAttributes.any inst.hasAttribute

/-- `UsesUnsupportedFeatures`. -/
def usesUnsupportedFeatures (inst : Inst) : Bool :=
  match inst.category with
  | .system =>
      match inst.iform with
      | .rdtsc | .rdtscp => false
      | _ => true
  | .threeDNow | .mpx | .aes | .rdrand | .rdseed | .segop | .syscall | .interrupt | .sysret
  | .xsave | .xsaveopt | .iostringop | .rdwrfsgs | .vtx => true
  | .avx | .avx2 | .avx2gather => !ex.hasAVX || usesUnsupportedAttributes inst
  | .avx512 | .avx512_4fmaps | .avx512_4vnniw | .avx512_bitalg | .avx512_vbmi =>
      !ex.hasAVX512 || usesUnsupportedAttributes inst
  | _ => usesUnsupportedAttributes inst

/-! ## flags -/

/-- The `READ_FLAG` lines: `flag_val` is the buffer they share, `aflag` the flags so far. -/
def readFlagLoop (readFlags : Word) : List Flag → Data → Word → ExecM σ Word
  | [], _, aflag => pure aflag
  | f :: fs, flagVal, aflag =>
      if f.get readFlags then do
        let r ← ex.callReadReg (.flag f) 1 .conditionCode flagVal
        if r.1 then
          readFlagLoop readFlags fs (Bits.put 0 8 r.2 0#8) (f.set aflag (r.2.getLsbD 0))
        else throw .errorReadFlags
      else readFlagLoop readFlags fs flagVal aflag

/-- `read_flags`: what the instruction reads, and what it may leave alone. -/
def readMask (rflags : RFlagsInfo) : Word :=
  if rflags.mayWrite then (rflags.read.setWidth 16).setWidth 64 ||| rflags.written.setWidth 64
  else (rflags.read.setWidth 16).setWidth 64

/-- `gWriteBackFlags`. -/
def writeMask (rflags : RFlagsInfo) : Word := (rflags.written.setWidth 16).setWidth 64

/-- The bookkeeping of `ReadFlags` before any flag is read. -/
def noteFlags (rflags : RFlagsInfo) (g : Globals) : Globals :=
  let flagsReg := ex.widestRegister .eflags
  let g := { g with writeBackFlags := writeMask rflags }.setUsed flagsReg
  if writeMask rflags ≠ 0 then g.setModified flagsReg else g

section

variable (rflags : RFlagsInfo) (g : Globals)

theorem noteFlags_usedRegs : (ex.noteFlags rflags g).usedRegs =
    Function.update g.usedRegs (ex.widestRegister .eflags) true := by
  unfold noteFlags
  dsimp only
  split <;> rfl

theorem noteFlags_regs : (ex.noteFlags rflags g).regs = g.regs := by
  unfold noteFlags
  dsimp only
  split <;> rfl

theorem noteFlags_writeBackFlags : (ex.noteFlags rflags g).writeBackFlags = writeMask rflags := by
  unfold noteFlags
  dsimp only
  split <;> rfl

theorem noteFlags_modifiedRegs (h : writeMask rflags ≠ 0) :
    (ex.noteFlags rflags g).modifiedRegs (ex.widestRegister .eflags) = true := by
  unfold noteFlags
  rw [if_pos h]
  exact Function.update_self _ _ _

end

/-- `pushfq`: the flags of the executor itself. -/
def pushHostFlags : ExecM σ Word := fun w =>
  .ok (w.hostFlags 0) { w with hostFlags := fun n => w.hostFlags (n + 1) }

/-- `ReadFlags`. -/
def readFlags (inst : Inst) : ExecM σ Unit := do
  onGlobals fun g => { g with writeBackFlags := 0 }
  match inst.rflags with
  | none => pure ()
  | some rflags => do
      onGlobals (ex.noteFlags rflags)
      let hostFlags ← pushHostFlags
      let aflag ← ex.readFlagLoop (readMask rflags) Flag.all 0 hostFlags
      onGlobals (Globals.setAflag aflag)

/-! ## memory -/

/-- `GetBitOpByteOffset`: the byte offset, and the globals with the bit offset reduced. -/
def getBitOpByteOffset (inst : Inst) (g : Globals) : Word × Globals :=
  let bitWidth := BitVec.ofNat 64 inst.operandWidth
  match inst.iform with
  | .bitMEMvIMMb .bt false | .bitMEMvIMMb .bts _ | .bitMEMvIMMb .btc true
  | .bitMEMvIMMb .btr true =>
      (8 * (g.immediate / bitWidth), { g with immediate := g.immediate % bitWidth })
  | .bitMEMvGPRv .bt false | .bitMEMvGPRv .bts _ | .bitMEMvIMMb .btc false
  | .bitMEMvGPRv .btc _ | .bitMEMvIMMb .btr false | .bitMEMvGPRv .btr _ =>
      let bitOffset := ex.readGPR (inst.reg .reg0) g
      (8 * (bitOffset / bitWidth), ex.writeGPR (inst.reg .reg0) (bitOffset % bitWidth) g)
  | _ => (0, g)

/-- `op_size_bytes`. -/
def opSizeBytes (inst : Inst) : Word := BitVec.ofNat 64 (inst.operandWidth / 8)

/-- How `ReadMemory` adjusts the displacement, which may change a register. -/
def adjustDisplacement (inst : Inst) (memIndex : Fin 2) (g : Globals) : Word × Globals :=
  match memIndex, inst.iform with
  -- For these, the memop is `[RSP]`, not `[RSP-N]`.
  | 0, .callNearRELBRz | 0, .callNearRELBRd | 0, .callNearGPRv | 0, .pushGPRvFFr6
  | 0, .pushGPRv50 | 0, .pushIMMz | 0, .pushIMMb | 0, .pushf | 0, .pushfd | 0, .pushfq
  | 0, .pushSeg _ => (-opSizeBytes inst, g)
  -- The stack pointer used will be that *after* the `POP` happens.
  | 0, .popMEMv =>
      if (inst.memOperand 0).baseReg.largestEnclosing = .gpr64 .rsp then (opSizeBytes inst, g)
      else (0, g)
  | 0, .bitMEMvIMMb _ _ | 0, .bitMEMvGPRv _ _ => ex.getBitOpByteOffset inst g
  -- Same stack adjustment as above, just on a different memop.
  | 1, .callNearMEMv | 1, .pushMEMv => (-opSizeBytes inst, g)
  | _, _ => (0, g)

/-- The implicit segment register. -/
def implicitSegment (baseReg : Reg) : Reg :=
  if baseReg.largestEnclosing = .gpr64 .rsp ∨ baseReg.largestEnclosing = .gpr64 .rbp then
    .seg .ss
  else .seg .ds

/-- `mem.segment_reg`. -/
def segmentReg (memop : MemOperand) : Reg :=
  if memop.segReg = .invalid then implicitSegment memop.baseReg else memop.segReg

/-- `mem.base`; PC-relative accesses are relative to the next PC. -/
def memBase (inst : Inst) (memop : MemOperand) (g : Globals) : Word :=
  if memop.baseReg = .eip ∨ memop.baseReg = .rip then
    ex.readGPR memop.baseReg g + BitVec.ofNat 64 inst.length
  else ex.readGPR memop.baseReg g

/-- The fields of a cell that `ReadMemory` sets before it asks for an address. -/
def describeCell (inst : Inst) (op : Operand) (memIndex : Fin 2) (g : Globals) : Globals :=
  let memop := inst.memOperand memIndex
  let adjusted := ex.adjustDisplacement inst memIndex g
  adjusted.2.setCell memIndex
    { g.memory memIndex with
      present := true
      writeBack := op.written
      opName := op.name
      segReg := segmentReg memop
      baseReg := memop.baseReg
      indexReg := memop.indexReg
      base := ex.memBase inst memop g
      index := ex.readGPR memop.indexReg g
      scale := memop.scale
      displacement := memop.displacement + adjusted.1 }

/-- The hint of a memory request. -/
def memHint (op : Operand) : MemRequestHint :=
  if op.name = .agen then .addressGeneration
  else if (op.read || op.conditionalWrite) && op.written then .readWrite
  else if op.written then .writeOnly
  else .readOnly

/-- The address masked down to its proper width. -/
def truncateAddress (addressWidth : Nat) (address : Word) : Word :=
  if addressWidth = 32 then (address.setWidth 32).setWidth 64
  else if addressWidth = 16 then (address.setWidth 16).setWidth 64
  else address

/-- The fields of a cell that `ReadMemory` sets when it has an address. -/
def placeCell (memop : MemOperand) (memIndex : Fin 2) (address : Word) (g : Globals) : Globals :=
  g.setCell memIndex
    { g.memory memIndex with
      address := truncateAddress memop.addressWidth address
      size := 8 * memop.length
      data := 0 }

/-- The end of `ReadMemory`: read the data of a cell. -/
def readCell (hint : MemRequestHint) (memIndex : Fin 2) : ExecM σ Unit := do
  let g ← getGlobals
  let cell := g.memory memIndex
  let r ← ex.callReadMem cell.address cell.size hint cell.data
  onGlobals (Globals.setData memIndex r.2)
  check r.1 .errorReadMem

/-- `ReadMemory`, for one operand. -/
def readMemoryOperand (inst : Inst) (op : Operand) (memIndex : Fin 2) : ExecM σ Unit := do
  onGlobals (ex.describeCell inst op memIndex)
  let g ← getGlobals
  let cell := g.memory memIndex
  let address ← ex.callComputeAddress (.reg cell.segReg) cell.base cell.index cell.scale
    cell.displacement cell.size (memHint op)
  onGlobals (placeCell (inst.memOperand memIndex) memIndex address)
  if op.name = .agen then pure () else ex.readCell (memHint op) memIndex

/-- One round of the loop of `ReadMemory`. -/
def readMemoryAt (inst : Inst) (op : Operand) : ExecM σ Unit :=
  match op.name with
  | .agen | .mem0 => ex.readMemoryOperand inst op 0
  | .mem1 => ex.readMemoryOperand inst op 1
  | _ => pure ()

/-- `gMemory[i].present = false`. -/
def absentCells (g : Globals) : Globals :=
  { g with memory := fun i => { g.memory i with present := false } }

/-- `ReadMemory`. -/
def readMemory (inst : Inst) : ExecM σ Unit := do
  onGlobals absentCells
  inst.operands.forM (ex.readMemoryAt inst)

end Executor

end Microx
