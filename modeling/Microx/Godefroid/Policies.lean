import Microx.Lib.Areas
import Microx.MemoryMap

/-!
# Microx.Godefroid.Policies

`godefroid/policies.py`: the policy that watches a program's stack arguments
and input heap, invents values for what the program reads before writing it,
and records the inputs and outputs.

Methods of the policy run in `EStateM` over the policy object.  The bytes that
`secrets.token_bytes` returns are a stream `entropy` with a count of those
drawn so far.
-/

namespace Microx

/-- The address size in bytes. -/
def AddressSize.bytes (s : AddressSize) : Nat := s.bits / 8

/-- `class InputMemoryPolicy`. -/
structure InputMemoryPolicy where
  /-- `_address_size`, in bytes. -/
  addressBytes : Nat
  start : Nat
  stop : Nat
  pointersStart : Nat
  pointersEnd : Nat
  start_lt_stop : start < stop
  pointersStart_lt_pointersEnd : pointersStart < pointersEnd
  knownInputs : PyDict Nat Nat
  knownOutputs : PyDict Nat Nat
  pointerWatermark : Nat
  /-- Address of a pointer to where it points. -/
  pointerMap : PyDict Nat Nat
  entropy : Nat → Byte
  drawn : Nat

namespace InputMemoryPolicy

/-- A method of the policy. -/
abbrev PolicyM := EStateM PyExc InputMemoryPolicy

/-- `InputMemoryPolicy(address_size, (start, stop), (pointers_start, pointers_end))`. -/
def init (addressSize : AddressSize) (start stop pointersStart pointersEnd : Nat)
    (h : start < stop) (h' : pointersStart < pointersEnd) (entropy : Nat → Byte) :
    InputMemoryPolicy where
  addressBytes := addressSize.bytes
  start := start
  stop := stop
  pointersStart := pointersStart
  pointersEnd := pointersEnd
  start_lt_stop := h
  pointersStart_lt_pointersEnd := h'
  knownInputs := PyDict.empty
  knownOutputs := PyDict.empty
  pointerWatermark := pointersStart
  pointerMap := PyDict.empty
  entropy := entropy
  drawn := 0

/-- `POINTER_INCREMENT`. -/
def pointerIncrement : Nat := 0x1000 / 4

/-! ## the ranges of the policy -/

/-- Whether the address is in the argument or the pointer range, both ends included. -/
def watches (p : InputMemoryPolicy) (addr : Nat) : Bool :=
  (decide (p.start ≤ addr) && decide (addr ≤ p.stop)) ||
    (decide (p.pointersStart ≤ addr) && decide (addr ≤ p.pointersEnd))

/-- `handle_store`. -/
def handleStore (p : InputMemoryPolicy) (addr : Nat) : Bool := p.watches addr

/-- `handle_load`. -/
def handleLoad (p : InputMemoryPolicy) (addr : Nat) : Bool := p.watches addr

/-! ## inventing values -/

/-- `generate_pointer`. -/
def generatePointer : PolicyM Nat := do
  let newPtr := (← get).pointerWatermark
  pyAssert (decide (newPtr + (← get).addressBytes < (← get).pointersEnd))
  modify fun p => { p with pointerWatermark := p.pointerWatermark + pointerIncrement }
  pyAssert (decide ((← get).pointerWatermark < (← get).pointersEnd))
  return newPtr

/-- The `n` low bytes of `v`, the lowest first. -/
def toBytesLE (n v : Nat) : List Byte := (List.range n).map fun i => BitVec.ofNat 8 (v >>> (8 * i))

/-- `pointer_to_bytes`. -/
def pointerToBytes (ptr : Nat) : PolicyM (List Byte) := do
  let n := (← get).addressBytes
  if ptr < 256 ^ n then pure (toBytesLE n ptr) else throw .overflowError

/-- `generate_random`. -/
def generateRandom (size : Nat) : PolicyM (List Byte) := do
  let p ← get
  set { p with drawn := p.drawn + size }
  return (List.range size).map fun i => p.entropy (p.drawn + i)

/-- The value `read_before_write` invents: a pointer for a read of pointer size, else random. -/
def inventData (addr size : Nat) : PolicyM (List Byte) := do
  if (← get).addressBytes = size then
    let ptr ← generatePointer
    modify fun p => { p with pointerMap := p.pointerMap.set addr ptr }
    pointerToBytes ptr
  else
    generateRandom size

/-- `read_before_write`. -/
def readBeforeWrite (addr size : Nat) (data : List Byte) : PolicyM (List Byte) := do
  let newData ← inventData addr size
  modify fun p => { p with knownInputs := p.knownInputs.set addr size }
  pyAssert (data.length == newData.length)
  return newData

/-! ## recording outputs -/

/-- `add_output`. -/
def addOutput (addr size : Nat) : PolicyM Unit :=
  modify fun p => { p with knownOutputs := p.knownOutputs.set addr size }

/-- `write_before_read`. -/
def writeBeforeRead (addr size : Nat) (data : List Byte) : PolicyM (List Byte) := do
  modify fun p => { p with knownOutputs := p.knownOutputs.set addr size }
  return data

/-! ## classifying addresses -/

/-- `in_input_range`. -/
def inInputRange (addr : Nat) : PolicyM Bool := do
  if ((← get).knownInputs.get? addr).isSome then return true
  let p ← get
  if p.pointersStart ≤ addr ∧ addr < p.pointersEnd then
    if p.pointerWatermark < addr then
      modify fun p => { p with pointerWatermark := p.pointerWatermark + pointerIncrement }
      pyAssert (decide ((← get).pointerWatermark < p.pointersEnd))
    return true
  return decide (p.start ≤ addr) && decide (addr < p.stop)

/-- `handle_compute`, which hands the address back as it got it. -/
def handleCompute (result base scale index disp size : Nat) : PolicyM Nat := do
  if ← inInputRange result then
    modify fun p => { p with knownInputs := p.knownInputs.set result size }
  else
    -- the first part that is a known input address other than zero
    let p ← get
    if [base, scale, index, disp].any fun x => (p.knownInputs.get? x).isSome && x != 0 then
      modify fun p => { p with knownInputs := p.knownInputs.set result size }
  return result

/-! ## the outputs -/

/-- `get_outputs`: the recorded outputs, merged. -/
def getOutputs (p : InputMemoryPolicy) : PyDict Nat Nat :=
  Areas.merge (fun _ size => size) p.knownOutputs

/-- The outputs reported are the outputs recorded. -/
theorem getOutputs_covers (p : InputMemoryPolicy) (a : Nat) :
    Areas.Covers id p.getOutputs a ↔ Areas.Covers id p.knownOutputs a :=
  Areas.merge_covers (fun _ _ => rfl) p.knownOutputs a

/-! ## what the methods leave alone -/

section Frame

open Hoare

variable {w : Nat → Bool} {o : PyDict Nat Nat}

/-- The policy watches `w` and has recorded the outputs `o`. -/
def Shows (w : Nat → Bool) (o : PyDict Nat Nat) (p : InputMemoryPolicy) : Prop :=
  p.watches = w ∧ p.knownOutputs = o

theorem generatePointer_frame :
    Triple (Shows w o) generatePointer (fun _ => Shows w o) fun _ => Shows w o := by
  refine Triple.read fun p => Triple.read fun _ => Triple.read fun _ => ?_
  refine Triple.bind (pyAssert_triple _) fun _ => ?_
  refine Triple.bind (Triple.update fun p hp => hp) fun _ => ?_
  refine Triple.read fun _ => Triple.read fun _ => ?_
  exact Triple.bind (pyAssert_triple _) fun _ => Triple.pure fun _ hp => hp

theorem pointerToBytes_frame (ptr : Nat) :
    Triple (Shows w o) (pointerToBytes ptr) (fun _ => Shows w o) fun _ => Shows w o := by
  refine Triple.read fun p => Triple.ite (fun _ => ?_) fun _ => ?_
  · exact Triple.pure fun _ hp => hp
  · exact Triple.throw fun _ hp => hp

theorem inventData_frame (addr size : Nat) :
    Triple (Shows w o) (inventData addr size) (fun _ => Shows w o) fun _ => Shows w o := by
  refine Triple.read fun p => Triple.ite (fun _ => ?_) fun _ => ?_
  · refine Triple.bind generatePointer_frame fun ptr => ?_
    exact Triple.bind (Triple.update fun p hp => hp) fun _ => pointerToBytes_frame ptr
  · exact fun p hp => hp

/-- Inventing a value leaves the ranges and the outputs alone. -/
theorem readBeforeWrite_frame (addr size : Nat) (data : List Byte) :
    Triple (Shows w o) (readBeforeWrite addr size data) (fun _ => Shows w o)
      fun _ => Shows w o := by
  refine Triple.bind (inventData_frame addr size) fun newData => ?_
  refine Triple.bind (Triple.update fun p hp => hp) fun _ => ?_
  exact Triple.bind (pyAssert_triple _) fun _ => Triple.pure fun _ hp => hp

/-- Recording an output leaves the ranges alone. -/
theorem addOutput_triple (addr size : Nat) :
    Triple (Shows w o) (addOutput addr size) (fun _ => Shows w (o.set addr size))
      fun _ _ => False :=
  Triple.modify fun p hp => ⟨hp.1, by rw [← hp.2]⟩

theorem writeBeforeRead_triple (addr size : Nat) (data : List Byte) :
    Triple (Shows w o) (writeBeforeRead addr size data)
      (fun new p => new = data ∧ Shows w (o.set addr size) p) fun _ _ => False := by
  refine Triple.bind (Q := fun _ => Shows w (o.set addr size)) ?_ fun _ => ?_
  · exact Triple.modify fun p hp => ⟨hp.1, by rw [← hp.2]⟩
  · exact Triple.pure fun p hp => ⟨rfl, hp⟩

end Frame

end InputMemoryPolicy

/-- A policy for 16 bytes of arguments, whose random bytes are all zero. -/
def samplePolicy : InputMemoryPolicy :=
  InputMemoryPolicy.init .x32 0x1000 0x1010 0x8000 0x10000 (by decide) (by decide) fun _ => 0

end Microx
