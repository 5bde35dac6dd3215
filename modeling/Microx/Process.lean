import Microx.Binding
import Microx.Memory

/-!
# Microx.Process

`class Process` of `microx/__init__.py`: the Python methods that connect an
executor to a thread and a memory.

A thread is a parameter: its methods may return anything and may raise.
-/

namespace Microx

/-! ## `Operations` -/

/-- `int.from_bytes(bs, byteorder="little")`. -/
def fromBytes (bs : List Byte) : Nat := bs.foldr (fun b n => b.toNat + 256 * n) 0

/-- `convert_to_integer`. -/
def convertToInteger : PyValue → Except PyExc Int
  | .bytes bs | .bytearray bs => .ok (fromBytes bs)
  | .str => .error .typeError
  | .int i => .ok i
  | _ => .error .assertionError

/-- `convert_to_byte_string`; its branch for integers passes `to_bytes` a keyword it lacks. -/
def convertToByteString : PyValue → Except PyExc (List Byte)
  | .bytes bs | .bytearray bs => .ok bs
  | _ => .error .typeError

/-! ## the process -/

/-- The methods of `class Thread`, over a thread state `τ`. -/
structure Thread (τ : Type) where
  readRegister : PyRegName → RegRequestHint → EStateM PyExc τ PyValue
  writeRegister : PyRegName → Int → EStateM PyExc τ Unit
  readFPU : EStateM PyExc τ PyValue
  writeFPU : List Byte → EStateM PyExc τ Unit

/-- What the methods of a process work on: its memory, and the state of the threads. -/
structure ProcOver (μ π τ : Type) where
  memory : Memory μ π
  thread : τ

/-- A process over the maps of the core package. -/
abbrev Proc (τ : Type) := ProcOver CoreMap Unit τ

namespace Proc

variable {μ π τ α : Type}

/-- Run a method of the memory. -/
def onMemory (m : EStateM PyExc (Memory μ π) α) : EStateM PyExc (ProcOver μ π τ) α := fun p =>
  match m p.memory with
  | .ok a memory => .ok a { p with memory := memory }
  | .error e memory => .error e { p with memory := memory }

/-- Run a method of the thread. -/
def onThread (m : EStateM PyExc τ α) : EStateM PyExc (ProcOver μ π τ) α := fun p =>
  match m p.thread with
  | .ok a thread => .ok a { p with thread := thread }
  | .error e thread => .error e { p with thread := thread }

/-- The result of an operation that may raise. -/
def ofExcept (r : Except PyExc α) : EStateM PyExc (ProcOver μ π τ) α :=
  match r with
  | .ok a => pure a
  | .error e => throw e

/-! ## permissions -/

/-- `MEM_READ_HINTS`. -/
def isReadHint (hint : MemRequestHint) : Bool := hint ∈ [.readOnly, .readExecutable, .readWrite]

/-- `MEM_WRITE_HINTS`. -/
def isWriteHint (hint : MemRequestHint) : Bool := hint ∈ [.writeOnly, .readWrite]

/-- `MEM_EXEC_HINTS`. -/
def isExecHint (hint : MemRequestHint) : Bool := hint ∈ [.readExecutable]

/-- Raise a fault if a permission is checked and not given. -/
def require (check : Bool) (perm : EStateM PyExc (Memory μ π) Bool) (fault : AccessFault) :
    EStateM PyExc (Memory μ π) Unit :=
  if check then do
    let ok ← perm
    if ok then pure () else throw (.memoryAccess fault)
  else pure ()

section

variable [MemoryMap μ π]

/-- One round of the permission loop of `read_memory`. -/
def checkByte (hint : MemRequestHint) (byteAddr : Nat) :
    EStateM PyExc (Memory μ π) Unit := do
  require (isReadHint hint) (Memory.canRead byteAddr) (.notReadable byteAddr)
  require (isWriteHint hint) (Memory.canWrite byteAddr) (.notWritable byteAddr)
  require (isExecHint hint) (Memory.canExecute byteAddr) (.notExecutable byteAddr)

/-! ## the methods -/

variable (thread : Thread τ)

/-- `read_register`. -/
def readRegister (regName : PyRegName) (hint : RegRequestHint) : EStateM PyExc (ProcOver μ π τ) Int := do
  let val ← onThread (thread.readRegister regName hint)
  ofExcept (convertToInteger val)

/-- `write_register`. -/
def writeRegister (regName : PyRegName) (val : PyValue) : EStateM PyExc (ProcOver μ π τ) Unit := do
  let val ← ofExcept (convertToInteger val)
  onThread (thread.writeRegister regName val)

/-- `seg_base` of `compute_address`. -/
def segBase (segName : RegName) (hint : MemRequestHint) : EStateM PyExc (ProcOver μ π τ) Int :=
  if hint ≠ .addressGeneration then do
    let base ← readRegister thread (.base segName) .memorySegmentAddress
    let p ← get
    -- `seg_base & self._memory._address_mask`
    pure (base % (p.memory.addressMask + 1))
  else pure 0

/-- `compute_address`. -/
def computeAddress (segName : RegName) (baseAddr index scale disp _size : Nat)
    (hint : MemRequestHint) : EStateM PyExc (ProcOver μ π τ) Int := do
  let segBase ← segBase thread segName hint
  pure (segBase + baseAddr + index * scale + disp)

/-- `read_memory`. -/
def readMemory (addr numBytes : Nat) (hint : MemRequestHint) : EStateM PyExc (ProcOver μ π τ) PyValue := do
  onMemory ((List.range numBytes).forM fun i => checkByte hint (addr + i))
  let bs ← onMemory (Memory.load addr numBytes)
  pure (.bytes bs)

/-- `write_memory`. -/
def writeMemory (addr : Nat) (data : List Byte) : EStateM PyExc (ProcOver μ π τ) Unit :=
  onMemory (Memory.store addr data)

/-- `read_fpu`. -/
def readFPU : EStateM PyExc (ProcOver μ π τ) PyValue := do
  let val ← onThread thread.readFPU
  let bs ← ofExcept (convertToByteString val)
  pure (.bytes bs)

/-- `write_fpu`. -/
def writeFPU (fpu : List Byte) : EStateM PyExc (ProcOver μ π τ) Unit := onThread (thread.writeFPU fpu)

/-- The methods the binding calls. -/
def methods : PyMethods (ProcOver μ π τ) where
  computeAddress seg base index scale disp size hint := do
    let i ← computeAddress thread seg base index scale disp size hint
    pure (.int i)
  readRegister name hint := do
    let i ← readRegister thread (.name name) hint
    pure (.int i)
  writeRegister name bs := writeRegister thread (.name name) (.bytes bs)
  readMemory := readMemory
  writeMemory := writeMemory
  readFPU := readFPU thread
  writeFPU := writeFPU thread

end

/-! ## what the methods do to the memory -/

open Hoare

/-- A method of the memory, as a method of the process. -/
theorem onMemory_triple {f : EStateM PyExc (Memory μ π) α} {P : Memory μ π → Prop}
    {Q : α → Memory μ π → Prop} {E : PyExc → Memory μ π → Prop} (h : Triple P f Q E) :
    Triple (fun p : ProcOver μ π τ => P p.memory) (onMemory f) (fun a p => Q a p.memory)
      fun e p => E e p.memory := by
  intro p hp
  have hm := h p.memory hp
  unfold onMemory
  cases hr : f p.memory with
  | ok a m => rw [hr] at hm; exact hm
  | error e m => rw [hr] at hm; exact hm

/-- An assertion that the state of the threads does not matter for. -/
def ThreadFree (G : ProcOver μ π τ → Prop) : Prop := ∀ p t, G p → G { p with thread := t }

section

variable (thread : Thread τ) {G : ProcOver μ π τ → Prop} (hG : ThreadFree G)

theorem ofExcept_survives (r : Except PyExc α) :
    Binding.Survives G (ofExcept r : EStateM PyExc (ProcOver μ π τ) α) := by
  cases r with
  | ok a => exact Triple.pure fun _ h => h
  | error e => exact Triple.throw fun _ h => h

include hG

theorem onThread_survives (f : EStateM PyExc τ α) :
    Binding.Survives G (onThread f : EStateM PyExc (ProcOver μ π τ) α) := by
  intro p hp
  unfold onThread
  cases f p.thread with
  | ok a t => exact hG p t hp
  | error e t => exact hG p t hp

theorem readRegister_survives (name : PyRegName) (hint : RegRequestHint) :
    Binding.Survives G (readRegister thread name hint : EStateM PyExc (ProcOver μ π τ) Int) :=
  Triple.bind (onThread_survives hG _) fun _ => ofExcept_survives _

theorem writeRegister_survives (name : PyRegName) (val : PyValue) :
    Binding.Survives G (writeRegister thread name val : EStateM PyExc (ProcOver μ π τ) Unit) :=
  Triple.bind (ofExcept_survives _) fun _ => onThread_survives hG _

theorem computeAddress_survives (seg : RegName) (base index scale disp size : Nat)
    (hint : MemRequestHint) :
    Binding.Survives G (computeAddress thread seg base index scale disp size hint :
      EStateM PyExc (ProcOver μ π τ) Int) := by
  refine Triple.bind ?_ fun _ => Triple.pure fun _ h => h
  refine Triple.ite (fun _ => ?_) fun _ => Triple.pure fun _ h => h
  refine Triple.bind (readRegister_survives thread hG _ _) fun base => ?_
  exact Triple.read fun p => Triple.pure fun _ h => h

theorem readFPU_survives :
    Binding.Survives G (readFPU thread : EStateM PyExc (ProcOver μ π τ) PyValue) :=
  Triple.bind (onThread_survives hG _) fun _ =>
    Triple.bind (ofExcept_survives _) fun _ => Triple.pure fun _ h => h

end

end Proc

/-! ## `Process` -/

/-- `class Process`, and the library and processor beneath it. -/
structure Process where
  xed : Xed
  cpu : Cpu
  isInitialized : Bool
  addrSize : AddressSize

namespace Process

variable {τ α : Type}

/-- The state of a process, which includes the globals of the executor. -/
abbrev State (τ : Type) := World (Binding (Proc τ))

/-- The executor of a process while `self._thread` is set to a thread. -/
def executor (process : Process) (thread : Thread τ) : Executor (Binding (Proc τ)) :=
  Binding.executor (Proc.methods thread) process.xed process.cpu process.isInitialized
    process.addrSize

/-- Call a method of the process itself. -/
def callSelf {ρ : Type} (m : EStateM PyExc ρ α) : EStateM ExecuteError (World (Binding ρ)) α :=
  fun w =>
  match m w.env.self with
  | .ok a p => .ok a { w with env := { w.env with self := p } }
  | .error e p => .error (.raised e) { w with env := { w.env with self := p } }

/-- Approximate TSC as 1 cycle / instruction. -/
def addToTSC {μ π : Type} (thread : Thread τ) (numInstructions : Nat) :
    EStateM PyExc (ProcOver μ π τ) Unit := do
  let tsc ← Proc.readRegister thread (.name (.reg .tsc)) .none
  Proc.writeRegister thread (.name (.reg .tsc)) (.int (tsc + numInstructions))

/-- `execute`. -/
def execute (process : Process) (thread : Thread τ) (maxNumInstructions : Nat) :
    EStateM ExecuteError (State τ) Unit := do
  if 0 < maxNumInstructions then
    Binding.execute (process.executor thread) maxNumInstructions
    callSelf (addToTSC thread maxNumInstructions)
  else throw (.raised .assertionError)

open Hoare in
/-- Counting instructions leaves the memory alone. -/
theorem addToTSC_survives {μ π : Type} (thread : Thread τ) {G : ProcOver μ π τ → Prop}
    (hG : Proc.ThreadFree G) (n : Nat) : Binding.Survives G (addToTSC thread n) :=
  Triple.bind (Proc.readRegister_survives thread hG _ _) fun _ =>
    Proc.writeRegister_survives thread hG _ _

/-! ## a small process -/

/-- A process whose library decodes nothing. -/
def undecoded : Process where
  xed := Xed.ofDecoder (fun _ _ => none) fun _ => false
  cpu := { native := fun _ s => (.none, s), stackPointer := 0, fpu := 0 }
  isInitialized := true
  addrSize := .x32

/-- A thread whose registers are all zero. -/
def zeroThread : Thread Unit where
  readRegister _ _ := pure (.int 0)
  writeRegister _ _ := pure ()
  readFPU := pure (.bytes [])
  writeFPU _ := pure ()

end Process

end Microx
