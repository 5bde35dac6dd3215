import Microx.CallbackValues
import Microx.Memory.Flat

/-!
# Microx.EmptyThread

`class EmptyThread` of `microx/__init__.py`, and what survives in its
registers.

A register that is written through the binding is kept as an integer: the bytes
of the register are read as a number on the way in, and written as 64 bytes on
the way out.  `registers_survive` is the round trip.
-/

namespace Microx

open Hoare

/-! ## `class EmptyThread` -/

/-- The state of an `EmptyThread`; the registers are a `defaultdict(int)`. -/
structure EmptyThread where
  regs : PyRegName → Int
  fpuData : List Byte

namespace EmptyThread

/-- `__init__`. -/
def start : EmptyThread := ⟨fun _ => 0, List.replicate 512 0⟩

/-- `class EmptyThread`. -/
def thread : Thread EmptyThread where
  readRegister regName _ := do
    let t ← get
    pure (.int (t.regs regName))
  writeRegister regName value := modify fun t => { t with regs := Function.update t.regs regName value }
  readFPU := do
    let t ← get
    pure (.bytes t.fpuData)
  writeFPU newFPUData := modify fun t => { t with fpuData := newFPUData }

/-! ## one register -/

/-- The register holds the value. -/
def Holds (regName : PyRegName) (value : Int) (t : EmptyThread) : Prop := t.regs regName = value

variable {regName other : PyRegName} {value : Int}

/-- A register that holds a value is read as it is. -/
theorem readRegister_holds {t : EmptyThread} (h : t.Holds regName value) (hint : RegRequestHint) :
    thread.readRegister regName hint t = .ok (.int value) t :=
  congrArg (fun i => EStateM.Result.ok (PyValue.int i) t) h

/-- Reading any register keeps the value of a register. -/
theorem readRegister_keeps (hint : RegRequestHint) :
    Triple (Holds regName value) (thread.readRegister other hint) (fun _ => Holds regName value)
      fun _ => Holds regName value :=
  fun _ ht => ht

/-- Writing another register keeps it. -/
theorem writeRegister_keeps (h : other ≠ regName) (v : Int) :
    Triple (Holds regName value) (thread.writeRegister other v) (fun _ => Holds regName value)
      fun _ => Holds regName value :=
  Triple.update fun _ ht => (Function.update_of_ne h.symm ..).trans ht

end EmptyThread

/-! ## the binding -/

/-- What may happen to the registers of a thread: the binding reads or writes one, or a Python
program assigns one directly. -/
inductive RegCall where
  | readReg (name : RegName) (size : Nat) (hint : RegRequestHint) (val : Data)
  | writeReg (name : RegName) (size : Nat) (val : Data)
  | assign (regName : PyRegName) (value : Int)

namespace RegCall

variable {μ π : Type} [MemoryMap μ π]

/-- Make the call. -/
def run : RegCall → Binding (ProcOver μ π EmptyThread) → Binding (ProcOver μ π EmptyThread)
  | readReg name size hint val, b =>
      (Binding.readReg (Proc.methods EmptyThread.thread) name size hint val b).2.2
  | writeReg name size val, b =>
      (Binding.writeReg (Proc.methods EmptyThread.thread) name size val b).2
  | assign regName value, b =>
      (b.call (Proc.onThread (EmptyThread.thread.writeRegister regName value))).2

/-- Make calls, the first of the list first. -/
def runAll (calls : List RegCall) (b : Binding (ProcOver μ π EmptyThread)) :
    Binding (ProcOver μ π EmptyThread) :=
  calls.foldl (fun b call => call.run b) b

/-- The register a call writes. -/
def written? : RegCall → Option PyRegName
  | readReg .. => none
  | writeReg name .. => some (.name name)
  | assign regName _ => some regName

end RegCall

namespace EmptyThread

variable {μ π : Type} {name : RegName} {i : Int}

/-- The register of a process holds the integer. -/
def HoldsInt (name : RegName) (i : Int) (p : ProcOver μ π EmptyThread) : Prop :=
  p.thread.Holds (.name name) i

/-- What a method of the thread keeps, it keeps of the process. -/
theorem onThread_keeps {α : Type} {f : EStateM PyExc EmptyThread α}
    (h : Triple (Holds (.name name) i) f (fun _ => Holds (.name name) i)
      fun _ => Holds (.name name) i) :
    Binding.Survives (HoldsInt name i)
      (Proc.onThread f : EStateM PyExc (ProcOver μ π EmptyThread) α) := by
  intro p hp
  have hf := h p.thread hp
  unfold Proc.onThread
  cases hr : f p.thread with
  | ok a t => rw [hr] at hf; exact hf
  | error e t => rw [hr] at hf; exact hf

variable [MemoryMap μ π]

/-- **A call that writes another register, or none, keeps the integer.** -/
theorem run_keeps {call : RegCall} (hcall : call.written? ≠ some (.name name))
    {b : Binding (ProcOver μ π EmptyThread)} (hb : HoldsInt name i b.self) :
    HoldsInt name i (call.run b).self := by
  cases call with
  | readReg other size hint val =>
      refine Binding.readReg_survives (G := HoldsInt name i) ?_ hb size val
      refine Triple.bind ?_ fun _ => Triple.pure fun _ h => h
      exact Triple.bind (onThread_keeps (readRegister_keeps hint)) fun _ =>
        Proc.ofExcept_survives _
  | writeReg other size val =>
      have hne : PyRegName.name other ≠ .name name := fun h => hcall (congrArg some h)
      refine Binding.writeReg_survives (G := HoldsInt name i) ?_ hb
      exact Triple.bind (Proc.ofExcept_survives _) fun _ =>
        onThread_keeps (writeRegister_keeps hne _)
  | assign other value =>
      have hne : other ≠ .name name := fun h => hcall (congrArg some h)
      exact Binding.call_survives (onThread_keeps (writeRegister_keeps hne value)) hb

theorem runAll_keeps {calls : List RegCall}
    (hcalls : ∀ call ∈ calls, call.written? ≠ some (.name name))
    {b : Binding (ProcOver μ π EmptyThread)} (hb : HoldsInt name i b.self) :
    HoldsInt name i (RegCall.runAll calls b).self := by
  induction calls generalizing b with
  | nil => exact hb
  | cons call calls ih =>
      have hfirst := run_keeps (hcalls call List.mem_cons_self) hb
      exact ih (fun c hc => hcalls c (List.mem_cons_of_mem _ hc)) hfirst

/-- A written register holds the number that its bytes spell. -/
theorem writeReg_holds {b : Binding (ProcOver μ π EmptyThread)} (hb : b.hasError = false)
    (name : RegName) (size : Nat) (val : Data) :
    let r := Binding.writeReg (Proc.methods EmptyThread.thread) name size val b
    r.1 = true ∧ r.2.hasError = false ∧
      HoldsInt name (fromBytes (Bits.toBytes ((size + 7) / 8) val)) r.2.self := by
  intro r
  have hrun : r = Prod.map Option.isSome id (b.call ((Proc.methods EmptyThread.thread).writeRegister
      name (Bits.toBytes ((size + 7) / 8) val))) := by
    simp only [r, Binding.writeReg, hb, Bool.false_eq_true, if_false, Prod.map, id]
  rw [hrun]
  exact ⟨rfl, hb, Function.update_self ..⟩

/-- A register that holds a number of 64 bytes is read as these bytes. -/
theorem readReg_holds {b : Binding (ProcOver μ π EmptyThread)} (hb : b.hasError = false) {n : Nat}
    (h : HoldsInt name n b.self) (hn : (n : Int) < 2 ^ 512) (size : Nat) (hint : RegRequestHint)
    (val : Data) :
    Binding.readReg (Proc.methods EmptyThread.thread) name size hint val b =
      (true, BitVec.ofNat 512 n, b) := by
  have hcall : b.call ((Proc.methods EmptyThread.thread).readRegister name hint) =
      (some (.int n), b) := by
    have hread : Proc.onThread (EmptyThread.thread.readRegister (.name name) hint) b.self =
        .ok (.int n) b.self := by
      have hthread := readRegister_holds h hint
      simp only [Proc.onThread, hthread]
    have hvalue : Proc.readRegister EmptyThread.thread (.name name) hint b.self =
        .ok (n : Int) b.self := run_bind_ok hread
    have hmethod : (Proc.methods EmptyThread.thread).readRegister name hint b.self =
        .ok (.int n) b.self := run_bind_ok hvalue
    rw [Binding.call, hmethod]
  rw [Binding.readReg, hcall]
  simp only [hb, Bool.false_eq_true, if_false]
  rw [Binding.readValue_int hn hb, BitVec.ofInt_natCast]

/-- Writing registers raises nothing. -/
theorem hasError_runAll {calls : List RegCall}
    (hcalls : ∀ call ∈ calls, call.written?.isSome) {b : Binding (ProcOver μ π EmptyThread)}
    (hb : b.hasError = false) : (RegCall.runAll calls b).hasError = false := by
  induction calls generalizing b with
  | nil => exact hb
  | cons call calls ih =>
      have hfirst : (call.run b).hasError = false := by
        cases call with
        | readReg => simpa [RegCall.written?] using hcalls _ List.mem_cons_self
        | writeReg name size val => exact (writeReg_holds hb name size val).2.1
        | assign regName value => exact hb
      exact ih (fun c hc => hcalls c (List.mem_cons_of_mem _ hc)) hfirst

/-- **Register values survive the binding.**  Whatever else is read or written in between, a
register reads as it was written, with all bytes behind it zero. -/
theorem registers_survive (b : Binding (ProcOver μ π EmptyThread)) (hb : b.hasError = false)
    (name : RegName) (size : Nat) (hpos : 1 ≤ size) (hle : size ≤ 512) (val : Data)
    (calls : List RegCall) (hcalls : ∀ call ∈ calls, call.written? ≠ some (.name name)) :
    let py := Proc.methods EmptyThread.thread
    let r := Binding.writeReg py name size val b
    let b' := RegCall.runAll calls r.2
    r.1 = true ∧ ((∀ call ∈ calls, call.written?.isSome) → b'.hasError = false) ∧
      (b'.hasError = false → ∀ hint old,
        Binding.readReg py name size hint old b' =
          (true, Bits.low (8 * ((size + 7) / 8)) val, b')) := by
  intro py r b'
  obtain ⟨hok, herr, hholds⟩ := writeReg_holds hb name size val
  refine ⟨hok, fun h => hasError_runAll h herr, fun hquiet hint old => ?_⟩
  have hbytes : 8 * ((size + 7) / 8) ≤ 512 := by omega
  have hvalue := fromBytes_toBytes hbytes val
  have hfits : fromBytes (Bits.toBytes ((size + 7) / 8) val) < 2 ^ 512 := by
    rw [hvalue]
    exact (Nat.mod_le _ _).trans_lt val.isLt
  rw [readReg_holds hquiet (runAll_keeps hcalls hholds) (by exact_mod_cast hfits), hvalue,
    pow_256, ← Bits.toNat_low, BitVec.ofNat_toNat, BitVec.setWidth_eq]

/-- A process without memory. -/
def emptyProc : Proc EmptyThread := ⟨Memory.twoBytePages, start⟩

/-- `RBX`, with a write to `EBX` in between. -/
theorem registers_survive_rbx :
    let py : PyMethods (Proc EmptyThread) := Proc.methods EmptyThread.thread
    let b' := RegCall.runAll [.writeReg (.reg (.gpr32 .rbx)) 32 7]
      (Binding.writeReg py (.reg (.gpr64 .rbx)) 61 0x1234 (Binding.start emptyProc)).2
    Binding.readReg py (.reg (.gpr64 .rbx)) 61 .general 0 b' = (true, Bits.low 64 0x1234, b') := by
  intro py b'
  have h := registers_survive (Binding.start emptyProc) rfl (.reg (.gpr64 .rbx)) 61 (by decide)
    (by decide) 0x1234 [.writeReg (.reg (.gpr32 .rbx)) 32 7] (by simp [RegCall.written?])
  exact h.2.2 (h.2.1 (by simp [RegCall.written?])) .general 0

end EmptyThread

end Microx
