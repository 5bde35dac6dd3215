import Microx.Executor.Execute

/-!
# Microx.Binding

`Python.cpp`: the executor whose callbacks are methods of a Python object.

A callback fails in one of three ways, and the binding remembers each in its
own place: a method that raises leaves a pending exception, a value that cannot
be converted sets `error`, and some failures also set `has_error`, which makes
all further callbacks fail.
-/

namespace Microx

/-- The Python values a method may return, as far as the binding tells them apart. -/
inductive PyValue where
  | int (i : Int)
  | bytes (bs : List Byte)
  | bytearray (bs : List Byte)
  | str
  /-- A `float`, by its two encodings. -/
  | float (asDouble : BitVec 64) (asFloat : BitVec 32)
  | other

/-- The register names Python sees: those of the executor, and `"{}_BASE"`. -/
inductive PyRegName where
  | name (n : RegName)
  | base (n : RegName)
  deriving DecidableEq

/-- The callback an error message speaks of. -/
inductive Usage where
  /-- `read_register("{name}")`. -/
  | readRegister (name : RegName)
  /-- `read_memory({addr:#010x}, {num_bytes}, {hint})`. -/
  | readMemory (addr : Word) (numBytes : Nat) (hint : MemRequestHint)
  /-- `compute_address("{seg}", {base}, {index}, {scale}, {displacement}, {size}, {hint})`. -/
  | computeAddress (seg : RegName) (base index scale displacement : Word) (size : Nat)
      (hint : MemRequestHint)
  deriving DecidableEq

/-- What `error` and `error_message` hold. -/
inductive BindingError where
  /-- `ValueError`: `Incorrect number of bytes returned for value from '{usage}'; …`. -/
  | incorrectNumberOfBytes (usage : Usage) (wanted got : Nat)
  /-- `TypeError`: `Cannot convert type '{type}' into a byte sequence from '{usage}'.`. -/
  | cannotConvert (usage : Usage)
  /-- `ValueError`: `Expected 'read_fpu' to return string.`. -/
  | fpuNotBytes
  /-- `ValueError`: `Incorrect number of bytes returned for value from 'read_fpu'; …`. -/
  | incorrectFPUSize (wanted got : Nat)
  deriving DecidableEq

/-- The methods of the Python object behind an executor, which has the state `ρ`. -/
structure PyMethods (ρ : Type) where
  computeAddress : RegName → Nat → Nat → Nat → Nat → Nat → MemRequestHint → EStateM PyExc ρ PyValue
  readRegister : RegName → RegRequestHint → EStateM PyExc ρ PyValue
  writeRegister : RegName → List Byte → EStateM PyExc ρ Unit
  readMemory : Nat → Nat → MemRequestHint → EStateM PyExc ρ PyValue
  writeMemory : Nat → List Byte → EStateM PyExc ρ Unit
  readFPU : EStateM PyExc ρ PyValue
  writeFPU : List Byte → EStateM PyExc ρ Unit

/-- `PythonExecutor`, with the interpreter's pending exception. -/
structure Binding (ρ : Type) where
  self : ρ
  hasError : Bool
  error : Option BindingError
  pending : Option PyExc

namespace Binding

variable {ρ α : Type}

/-- A binding in which nothing went wrong yet. -/
def start (self : ρ) : Binding ρ where
  self := self
  hasError := false
  error := none
  pending := none

/-- `PyObject_CallMethod`: nothing when the method raised. -/
def call (m : EStateM PyExc ρ α) (b : Binding ρ) : Option α × Binding ρ :=
  match m b.self with
  | .ok a s => (some a, { b with self := s })
  | .error e s => (none, { b with self := s, pending := some e })

/-- `std::min(sizeof(val), (num_bits + 7) / 8)`. -/
def numBytes (numBits : Nat) : Nat := min 64 ((numBits + 7) / 8)

/-- `ReadValue`. -/
def readValue (res : PyValue) (numBits : Nat) (val : Data) (usage : Usage) (b : Binding ρ) :
    Bool × Data × Binding ρ :=
  if b.hasError then (false, val, b)
  else
    match res with
    | .bytes bs =>
        if numBytes numBits ≠ bs.length then
          (false, val, { b with
            hasError := true
            error := some (.incorrectNumberOfBytes usage (numBytes numBits) bs.length) })
        else (true, Bits.ofBytes bs, b)
    -- `_PyLong_AsByteArray` into all 64 bytes; the bytes after the value stay as it leaves them.
    | .int i =>
        if i < 0 then (false, val, { b with hasError := true, pending := some .overflowError })
        else if i < 2 ^ 512 then (true, BitVec.ofInt 512 i, b)
        else (false, BitVec.ofInt 512 i, { b with hasError := true, pending := some .overflowError })
    | .float asDouble asFloat =>
        (true,
          Bits.low (8 * numBytes numBits)
            (if numBits = 32 then Bits.put 0 32 val asFloat else Bits.put 0 64 val asDouble), b)
    | _ => (false, val, { b with error := some (.cannotConvert usage) })

variable (py : PyMethods ρ)

/-- `PythonExecutor::ComputeAddress`. -/
def computeAddress (addrSize : AddressSize) (seg : RegName) (base index scale displacement : Word)
    (size : Nat) (hint : MemRequestHint) (b : Binding ρ) : Word × Binding ρ :=
  if b.hasError then (0, b)
  else
    let retAddr := base + index * scale + displacement
    let usage := Usage.computeAddress seg base index scale displacement (size / 8) hint
    match b.call (py.computeAddress seg base.toNat index.toNat scale.toNat displacement.toNat
        (size / 8) hint) with
    | (some res, b) =>
        let r := b.readValue res addrSize.bits 0 usage
        if r.1 then (r.2.1.setWidth 64, r.2.2) else (retAddr, r.2.2)
    | (none, b) => (retAddr, { b with hasError := true })

/-- `PythonExecutor::ReadReg`. -/
def readReg (name : RegName) (size : Nat) (hint : RegRequestHint) (val : Data) (b : Binding ρ) :
    Bool × Data × Binding ρ :=
  if b.hasError then (false, val, b)
  else
    match b.call (py.readRegister name hint) with
    | (some res, b) => b.readValue res size val (.readRegister name)
    | (none, b) => (false, val, b)

/-- `PythonExecutor::WriteReg`. -/
def writeReg (name : RegName) (size : Nat) (val : Data) (b : Binding ρ) : Bool × Binding ρ :=
  if b.hasError then (false, b)
  else
    let r := b.call (py.writeRegister name (Bits.toBytes ((size + 7) / 8) val))
    (r.1.isSome, r.2)

/-- `PythonExecutor::ReadMem`. -/
def readMem (addr : Word) (size : Nat) (hint : MemRequestHint) (val : Data) (b : Binding ρ) :
    Bool × Data × Binding ρ :=
  if b.hasError then (false, val, b)
  else
    match b.call (py.readMemory addr.toNat (size / 8) hint) with
    | (some res, b) => b.readValue res size val (.readMemory addr (size / 8) hint)
    | (none, b) => (false, val, b)

/-- `PythonExecutor::WriteMem`. -/
def writeMem (addr : Word) (size : Nat) (val : Data) (b : Binding ρ) : Bool × Binding ρ :=
  if b.hasError then (false, b)
  else
    let r := b.call (py.writeMemory addr.toNat (Bits.toBytes (size / 8) val))
    (r.1.isSome, r.2)

/-- `PythonExecutor::ReadFPU`. -/
def readFPU (val : FPU) (b : Binding ρ) : Bool × FPU × Binding ρ :=
  if b.hasError then (false, val, b)
  else
    match b.call py.readFPU with
    | (some (.bytes bs), b) =>
        if bs.length ≠ 512 then
          (false, val, { b with error := b.error.orElse fun _ => some (.incorrectFPUSize 512 bs.length) })
        else (true, Bits.ofBytes bs, b)
    | (some _, b) => (false, val, { b with hasError := true, error := some .fpuNotBytes })
    | (none, b) => (false, val, b)

/-- `PythonExecutor::WriteFPU`. -/
def writeFPU (val : FPU) (b : Binding ρ) : Bool × Binding ρ :=
  let r := b.call (py.writeFPU (Bits.toBytes 512 val))
  (r.1.isSome, r.2)

/-- `PythonExecutor(self, addr_size)`: no AVX. -/
def executor (xed : Xed) (cpu : Cpu) (isInitialized : Bool) (addrSize : AddressSize) :
    Executor (Binding ρ) where
  xed := xed
  cpu := cpu
  isInitialized := isInitialized
  addrSize := addrSize
  hasAVX := false
  hasAVX512 := false
  computeAddress := computeAddress py addrSize
  readReg := readReg py
  writeReg := writeReg py
  readMem := readMem py
  writeMem := writeMem py
  readFPU := readFPU py
  writeFPU := writeFPU py
  clearError b := { b with pending := none }

end Binding

/-! ## what the callbacks do to the object -/

namespace Binding

open Hoare

variable {ρ α : Type} {G : ρ → Prop} {b : Binding ρ}

/-- Both ways out of a method keep an assertion about the object. -/
abbrev Survives (G : ρ → Prop) (m : EStateM PyExc ρ α) : Prop := Triple G m (fun _ => G) fun _ => G

/-- A method that is called returns or raises. -/
theorem call_cases {m : EStateM PyExc ρ α} {R : α → ρ → Prop} {E : PyExc → ρ → Prop}
    (h : Triple G m R E) (hb : G b.self) :
    (∃ a b', b.call m = (some a, b') ∧ R a b'.self) ∨
      ∃ e b', b.call m = (none, b') ∧ E e b'.self := by
  have hm := h b.self hb
  unfold call
  cases hr : m b.self with
  | ok a s => rw [hr] at hm; exact .inl ⟨_, _, rfl, hm⟩
  | error e s => rw [hr] at hm; exact .inr ⟨e, _, rfl, hm⟩

theorem call_survives {m : EStateM PyExc ρ α} (h : Survives G m) (hb : G b.self) :
    G (b.call m).2.self := by
  obtain ⟨a, b', hc, hgood⟩ | ⟨e, b', hc, hgood⟩ := call_cases h hb <;> rw [hc] <;> exact hgood

/-- Converting a value leaves the object alone. -/
@[simp] theorem self_readValue (res : PyValue) (numBits : Nat) (val : Data) (usage : Usage)
    (b : Binding ρ) : (b.readValue res numBits val usage).2.2.self = b.self := by
  unfold readValue
  split
  · rfl
  · cases res <;> dsimp only
    case int => split_ifs <;> rfl
    case bytes => split <;> rfl

variable {py : PyMethods ρ}

theorem computeAddress_survives (addrSize : AddressSize) {seg : RegName}
    {base index scale disp : Word} {size : Nat} {hint : MemRequestHint}
    (h : Survives G (py.computeAddress seg base.toNat index.toNat scale.toNat disp.toNat (size / 8)
      hint)) (hb : G b.self) :
    G (computeAddress py addrSize seg base index scale disp size hint b).2.self := by
  unfold computeAddress
  split
  · exact hb
  · obtain ⟨a, b', hc, hgood⟩ | ⟨e, b', hc, hgood⟩ := call_cases h hb
    · simp only [hc]
      split <;> simpa using hgood
    · simpa only [hc] using hgood

theorem readReg_survives {name : RegName} {hint : RegRequestHint}
    (h : Survives G (py.readRegister name hint)) (hb : G b.self) (size : Nat) (val : Data) :
    G (readReg py name size hint val b).2.2.self := by
  unfold readReg
  split
  · exact hb
  · obtain ⟨a, b', hc, hgood⟩ | ⟨e, b', hc, hgood⟩ := call_cases h hb
    · simpa only [hc, self_readValue] using hgood
    · simpa only [hc] using hgood

theorem writeReg_survives {name : RegName} {size : Nat} {val : Data}
    (h : Survives G (py.writeRegister name (Bits.toBytes ((size + 7) / 8) val))) (hb : G b.self) :
    G (writeReg py name size val b).2.self := by
  unfold writeReg
  split
  · exact hb
  · exact call_survives h hb

theorem readMem_survives {addr : Word} {size : Nat} {hint : MemRequestHint}
    (h : Survives G (py.readMemory addr.toNat (size / 8) hint)) (hb : G b.self) (val : Data) :
    G (readMem py addr size hint val b).2.2.self := by
  unfold readMem
  split
  · exact hb
  · obtain ⟨a, b', hc, hgood⟩ | ⟨e, b', hc, hgood⟩ := call_cases h hb
    · simpa only [hc, self_readValue] using hgood
    · simpa only [hc] using hgood

theorem writeMem_survives {addr : Word} {size : Nat} {val : Data}
    (h : Survives G (py.writeMemory addr.toNat (Bits.toBytes (size / 8) val))) (hb : G b.self) :
    G (writeMem py addr size val b).2.self := by
  unfold writeMem
  split
  · exact hb
  · exact call_survives h hb

theorem readFPU_survives (h : Survives G py.readFPU) (hb : G b.self) (val : FPU) :
    G (readFPU py val b).2.2.self := by
  unfold readFPU
  split
  · exact hb
  · obtain ⟨a, b', hc, hgood⟩ | ⟨e, b', hc, hgood⟩ := call_cases h hb
    · simp only [hc]
      cases a <;> dsimp only
      case bytes => split <;> exact hgood
      all_goals exact hgood
    · simpa only [hc] using hgood

theorem writeFPU_survives {val : FPU} (h : Survives G (py.writeFPU (Bits.toBytes 512 val)))
    (hb : G b.self) : G (writeFPU py val b).2.self :=
  call_survives h hb

end Binding

/-! ## `Executor.execute` -/

/-- The exceptions `Executor_Execute` raises. -/
inductive ExecuteError where
  /-- An exception a method raised, passed on. -/
  | raised (e : PyExc)
  /-- The error the binding remembers. -/
  | binding (e : BindingError)
  /-- `ValueError`: `Micro-execution environment is not initialized.`. -/
  | notInitialized
  /-- `InstructionDecodeError`: `Unable to decode instruction.`. -/
  | instructionDecode
  /-- `UnsupportedError`: `Instruction is not supported by microx.`. -/
  | unsupported
  /-- `MicroxError`: `Unable to micro-execute instruction.`. -/
  | microx
  /-- `AddressFaultError`: `Instruction faulted during micro-execution.`. -/
  | addressFault
  /-- `FloatingPointError`: `Instruction faulted during micro-execution.`. -/
  | floatingPoint
  /-- `InstructionFetchError`: `Could not read instruction bytes.`. -/
  | instructionFetch
  /-- `RuntimeError`: `Unable to micro-execute instruction with status {status}.`. -/
  | status (s : ExecutorStatus)
  deriving DecidableEq

namespace Binding

variable {ρ : Type}

/-- The default case: what is pending, what is remembered, or the status. -/
def defaultError (status : ExecutorStatus) (b : Binding ρ) : ExecuteError :=
  match b.pending, b.error with
  | some e, _ => .raised e
  | none, some e => .binding e
  | none, none => .status status

/-- The exception `Executor_Execute` raises for a status. -/
def executeError (status : ExecutorStatus) (b : Binding ρ) : ExecuteError :=
  match status with
  | .errorNotInitialized => .notInitialized
  | .errorDecode => .instructionDecode
  | .errorUnsupportedFeatures | .errorUnsupportedCFI | .errorUnsupportedStack => .unsupported
  | .errorExecute => .microx
  | .errorFault => .addressFault
  | .errorFloatingPointException => .floatingPoint
  | .errorReadInstMem =>
      if b.pending.isNone ∧ b.error.isNone then .instructionFetch else defaultError status b
  | _ => defaultError status b

/-- The pending exception is raised now, and the remembered error is used up. -/
def raise (b : Binding ρ) : Binding ρ := { b with error := none, pending := none }

/-- `self->executor->has_error = false; self->executor->error = nullptr`. -/
def resetErrors (b : Binding ρ) : Binding ρ := { b with hasError := false, error := none }

/-- `Executor_Execute`. -/
def execute (ex : Executor (Binding ρ)) (numExecs : Nat) :
    EStateM ExecuteError (World (Binding ρ)) Unit := fun w =>
  match ex.execute numExecs { w with env := w.env.resetErrors } with
  | .ok _ w =>
      -- Returning a value with an exception pending is an error of its own.
      match w.env.pending with
      | none => .ok () w
      | some _ => .error (.raised (.other "SystemError")) { w with env := w.env.raise }
  | .error status w => .error (executeError status w.env) { w with env := w.env.raise }

end Binding

end Microx
