import Microx.Inst
import Microx.Lib.Triple

/-!
# Microx.Executor.State

The state of `Executor.cpp`: its globals, and an `Executor` with the callbacks
that connect it to an environment.

The globals are shared by all executors and outlive each call, so they are part
of the state here, next to the environment.  The state also records every
callback that was made: what was asked for, whether it succeeded, and for a
write the data within the size that was passed.
-/

namespace Microx

/-! ## statuses, hints, names -/

/-- `enum class ExecutorStatus`, without `kGood`. -/
inductive ExecutorStatus where
  | errorNotInitialized
  | errorDecode
  | errorUnsupportedFeatures
  | errorUnsupportedCFI
  | errorUnsupportedStack
  | errorExecute
  | errorFault
  | errorFloatingPointException
  | errorReadFlags
  | errorWriteFlags
  | errorReadReg
  | errorWriteReg
  | errorReadMem
  | errorReadInstMem
  | errorWriteMem
  | errorReadFPU
  | errorWriteFPU
  deriving DecidableEq, Repr

/-- `enum class RegRequestHint`. -/
inductive RegRequestHint where
  | none | general | programCounter | conditionCode | writeBack
  | memoryBaseAddress | memoryIndexAddress | memorySegmentAddress
  deriving DecidableEq, Repr

/-- `enum class MemRequestHint`. -/
inductive MemRequestHint where
  | readOnly | readExecutable | writeOnly | readWrite | addressGeneration
  deriving DecidableEq, Repr

/-- The names passed to callbacks: those of registers, and those of single flags. -/
inductive RegName where
  | reg (r : Reg)
  | flag (f : Flag)
  deriving DecidableEq, Repr

/-! ## globals -/

/-- `struct Memory`, one of the two memory cells. -/
structure Cell where
  present : Bool
  writeBack : Bool
  opName : OperandName
  segReg : Reg
  baseReg : Reg
  indexReg : Reg
  base : Word
  index : Word
  scale : Word
  displacement : Word
  address : Word
  /-- In bits. -/
  size : Nat
  /-- The operand of the encoder this cell belongs to, if there ever was one. -/
  memOp : Option Nat
  data : Data

/-- The globals of `Executor.cpp`. -/
structure Globals where
  usedRegs : Reg → Bool
  modifiedRegs : Reg → Bool
  storeRegs : Reg → Bool
  regs : Reg → Data
  stackPtrAlias : Reg
  usesFPU : Bool
  usesMMX : Bool
  fpu : FPU
  writeBackFlags : Word
  memory : Fin 2 → Cell
  /-- The unsigned immediate in `gXedd`, which `BT*` changes. -/
  immediate : Word

/-- A cell that was never used. -/
def Cell.zero : Cell where
  present := false
  writeBack := false
  opName := .other 0
  segReg := .invalid
  baseReg := .invalid
  indexReg := .invalid
  base := 0
  index := 0
  scale := 0
  displacement := 0
  address := 0
  size := 0
  memOp := none
  data := 0

/-- The globals as the program starts with them. -/
def Globals.zero : Globals where
  usedRegs _ := false
  modifiedRegs _ := false
  storeRegs _ := false
  regs _ := 0
  stackPtrAlias := .invalid
  usesFPU := false
  usesMMX := false
  fpu := 0
  writeBackFlags := 0
  memory _ := Cell.zero
  immediate := 0

namespace Globals

def setUsed (r : Reg) (g : Globals) : Globals :=
  { g with usedRegs := Function.update g.usedRegs r true }

def setModified (r : Reg) (g : Globals) : Globals :=
  { g with modifiedRegs := Function.update g.modifiedRegs r true }

def setStore (r : Reg) (g : Globals) : Globals :=
  { g with storeRegs := Function.update g.storeRegs r true }

def setReg (r : Reg) (data : Data) (g : Globals) : Globals :=
  { g with regs := Function.update g.regs r data }

theorem regs_setReg (r : Reg) (data : Data) (g : Globals) :
    (g.setReg r data).regs = Function.update g.regs r data := rfl

def setCell (i : Fin 2) (cell : Cell) (g : Globals) : Globals :=
  { g with memory := Function.update g.memory i cell }

def setData (i : Fin 2) (data : Data) (g : Globals) : Globals :=
  g.setCell i { g.memory i with data := data }

/-! ## general-purpose registers -/

/-- `ReadValue<T>`, for a `T` of `n` bits. -/
def readValue (n : Nat) (reg : Reg) (g : Globals) : Word :=
  ((g.regs reg.largestEnclosing).setWidth n).setWidth 64

/-- `WriteValue<T>`, for a `T` of `n` bits. -/
def writeValue (n : Nat) (reg : Reg) (val : Word) (g : Globals) : Globals :=
  g.setReg reg.largestEnclosing (Bits.put 0 n (g.regs reg.largestEnclosing) val)

/-- `ReadGPR`, for a register `width` bits wide. -/
def readGPR (width : Nat) (reg : Reg) (g : Globals) : Word :=
  if reg.isGPR8h then g.readValue 16 reg >>> 8
  else if width = 64 then g.readValue 64 reg
  else if width = 32 then g.readValue 32 reg
  else if width = 16 then g.readValue 16 reg
  else if width = 8 then g.readValue 8 reg
  else 0

/-- `WriteGPR`, for a register `width` bits wide. -/
def writeGPR (width : Nat) (reg : Reg) (val : Word) (g : Globals) : Globals :=
  if width = 64 then g.writeValue 64 reg val
  -- Zero-extends.
  else if width = 32 then g.writeValue 64 reg ((val.setWidth 32).setWidth 64)
  else if width = 16 then g.writeValue 16 reg val
  else if width = 8 then
    if reg.isGPR8h then
      g.writeValue 64 reg
        ((g.readValue 64 reg &&& ~~~0xFF00#64) ||| ((val &&& 0xFF#64) <<< 8))
    else g.writeValue 8 reg val
  else g

/-- `mem0` and `mem1` of `Emulate`: the first eight bytes of a cell. -/
def mem (i : Fin 2) (g : Globals) : Word := (g.memory i).data.setWidth 64

/-- Assign to `mem0` or `mem1`. -/
def setMem (i : Fin 2) (val : Word) (g : Globals) : Globals :=
  g.setData i (Bits.put 0 64 (g.memory i).data val)

/-- `aflag` of `Emulate`. -/
def aflag (g : Globals) : Word := (g.regs .rflags).setWidth 64

/-- Assign to `aflag`. -/
def setAflag (val : Word) (g : Globals) : Globals :=
  g.setReg .rflags (Bits.put 0 64 (g.regs .rflags) val)

end Globals

/-! ## the executor -/

/-- `class Executor`, with an environment `σ` behind its virtual methods. -/
structure Executor (σ : Type) where
  xed : Xed
  cpu : Cpu
  /-- `gIsInitialized`, which `Execute` only looks at. -/
  isInitialized : Bool
  addrSize : AddressSize
  hasAVX : Bool
  hasAVX512 : Bool
  /-- Segment, base, index, scale, displacement, size. -/
  computeAddress : RegName → Word → Word → Word → Word → Nat → MemRequestHint → σ → Word × σ
  readReg : RegName → Nat → RegRequestHint → Data → σ → Bool × Data × σ
  writeReg : RegName → Nat → Data → σ → Bool × σ
  readMem : Word → Nat → MemRequestHint → Data → σ → Bool × Data × σ
  writeMem : Word → Nat → Data → σ → Bool × σ
  readFPU : FPU → σ → Bool × FPU × σ
  writeFPU : FPU → σ → Bool × σ
  /-- `PyErr_Clear`, if there is a Python exception pending. -/
  clearError : σ → σ

/-- A callback that was made. -/
inductive Event where
  | computeAddress (seg : RegName) (base index scale displacement : Word) (size : Nat)
      (hint : MemRequestHint)
  | readReg (name : RegName) (size : Nat) (hint : RegRequestHint) (ok : Bool)
  | writeReg (name : RegName) (size : Nat) (data : Data) (ok : Bool)
  | readMem (addr : Word) (size : Nat) (hint : MemRequestHint) (ok : Bool)
  | writeMem (addr : Word) (size : Nat) (data : Data) (ok : Bool)
  | readFPU (ok : Bool)
  | writeFPU (fpu : FPU) (ok : Bool)
  deriving DecidableEq

/-- Everything `Execute` can read or change. -/
structure World (σ : Type) where
  globals : Globals
  env : σ
  /-- The callbacks made so far, the latest last. -/
  trace : List Event
  /-- `idata`, the buffer of `Execute` for instruction bytes, which nothing clears. -/
  idata : Data
  /-- What `pushfq` will see of the flags of the executor itself, one value for each time. -/
  hostFlags : Nat → Word

/-- The code of `Executor.cpp`; a status that is returned early is an exception. -/
abbrev ExecM (σ α : Type) := EStateM ExecutorStatus (World σ) α

namespace World

variable {σ : Type}

/-- A world in which nothing was executed yet. -/
def start (env : σ) : World σ where
  globals := Globals.zero
  env := env
  trace := []
  idata := 0
  hostFlags _ := 0

/-- Change the globals. -/
def withGlobals (f : Globals → Globals) (w : World σ) : World σ :=
  { w with globals := f w.globals }

def withIdata (data : Data) (w : World σ) : World σ := { w with idata := data }

/-- What a callback leaves behind. -/
def called (env : σ) (e : Event) (w : World σ) : World σ :=
  { w with env := env, trace := w.trace ++ [e] }

end World

/-- Run code on the globals. -/
def onGlobals {σ : Type} (f : Globals → Globals) : ExecM σ Unit :=
  modify (World.withGlobals f)

/-- Read the globals. -/
def getGlobals {σ : Type} : ExecM σ Globals := fun w => .ok w.globals w

theorem run_getGlobals {σ : Type} (w : World σ) : getGlobals w = .ok w.globals w := rfl

namespace Executor

variable {σ : Type} (ex : Executor σ)

/-! ## callbacks -/

def callComputeAddress (seg : RegName) (base index scale displacement : Word) (size : Nat)
    (hint : MemRequestHint) : ExecM σ Word := fun w =>
  let r := ex.computeAddress seg base index scale displacement size hint w.env
  .ok r.1 (w.called r.2 (.computeAddress seg base index scale displacement size hint))

def callReadReg (name : RegName) (size : Nat) (hint : RegRequestHint) (data : Data) :
    ExecM σ (Bool × Data) := fun w =>
  let r := ex.readReg name size hint data w.env
  .ok (r.1, r.2.1) (w.called r.2.2 (.readReg name size hint r.1))

def callWriteReg (name : RegName) (size : Nat) (data : Data) : ExecM σ Bool := fun w =>
  let r := ex.writeReg name size data w.env
  .ok r.1 (w.called r.2 (.writeReg name size (Bits.low size data) r.1))

def callReadMem (addr : Word) (size : Nat) (hint : MemRequestHint) (data : Data) :
    ExecM σ (Bool × Data) := fun w =>
  let r := ex.readMem addr size hint data w.env
  .ok (r.1, r.2.1) (w.called r.2.2 (.readMem addr size hint r.1))

def callWriteMem (addr : Word) (size : Nat) (data : Data) : ExecM σ Bool := fun w =>
  let r := ex.writeMem addr size data w.env
  .ok r.1 (w.called r.2 (.writeMem addr size (Bits.low size data) r.1))

def callReadFPU (fpu : FPU) : ExecM σ (Bool × FPU) := fun w =>
  let r := ex.readFPU fpu w.env
  .ok (r.1, r.2.1) (w.called r.2.2 (.readFPU r.1))

def callWriteFPU (fpu : FPU) : ExecM σ Bool := fun w =>
  let r := ex.writeFPU fpu w.env
  .ok r.1 (w.called r.2 (.writeFPU fpu r.1))

def callClearError : ExecM σ Unit := modify fun w => { w with env := ex.clearError w.env }

/-- Return a status unless a callback succeeded. -/
def check (ok : Bool) (status : ExecutorStatus) : ExecM σ Unit :=
  if ok then pure () else throw status

/-! ## registers -/

/-- `xed_get_register_width_bits64`. -/
def width (reg : Reg) : Nat := reg.widthBits64 ex.xed.special

/-- `WidestRegister`. -/
def widestRegister (reg : Reg) : Reg :=
  let wreg := match ex.addrSize with
    | .x64 => reg.largestEnclosing
    | .x32 => reg.largestEnclosing32
  if wreg = .invalid then reg
  else
    let wreg := if ex.hasAVX512 then wreg else wreg.withoutAVX512
    if ex.hasAVX then wreg else wreg.withoutAVX

def readGPR (reg : Reg) (g : Globals) : Word := g.readGPR (ex.width reg) reg

def writeGPR (reg : Reg) (val : Word) (g : Globals) : Globals := g.writeGPR (ex.width reg) reg val

end Executor

end Microx
