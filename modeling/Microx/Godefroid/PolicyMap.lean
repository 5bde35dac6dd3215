import Microx.Godefroid.Policies
import Microx.Memory

/-!
# Microx.Godefroid.PolicyMap

`godefroid/policy_map.py` and the flags of `godefroid/flag_map.py`: a map that
notes for each byte whether the program has read or written it, and lets its
policy step in when a load meets a byte not written yet, or a store a byte not
read yet.

The input policy is one object that several maps may share; it is the shared
state of the maps, `none` while none has been made.
-/

namespace Microx

/-- `MemoryFlags`: what a program may do with a map. -/
structure MemoryFlags where
  read : Bool
  write : Bool
  execute : Bool
  deriving DecidableEq, Repr

/-- `PolicyFlags`: what a program has done with a byte. -/
structure PolicyFlags where
  read : Bool
  written : Bool
  deriving DecidableEq, Repr

/-- The policy of a map. -/
inductive PolicyRef where
  /-- A `DefaultMemoryPolicy`. -/
  | default
  /-- The shared `InputMemoryPolicy`. -/
  | input
  deriving DecidableEq, Repr

/-- `class PolicyMemoryMap`. -/
structure PolicyMemoryMap where
  base : Nat
  limit : Nat
  base_lt_limit : base < limit
  accessFlags : MemoryFlags
  name : String
  data : List Byte
  policy : PolicyRef
  accessMap : PyDict Nat PolicyFlags

namespace PolicyMemoryMap

open Hoare InputMemoryPolicy

/-- A method of a policy map. -/
abbrev PolicyMethod (α : Type) := Method PolicyMemoryMap (Option InputMemoryPolicy) α

/-- `PolicyMemoryMap(ops, base, limit, access_flags, policy, mapname)`. -/
def init (base limit : Nat) (h : base < limit) (accessFlags : MemoryFlags) (policy : PolicyRef)
    (name : String) : PolicyMemoryMap where
  base := base
  limit := limit
  base_lt_limit := h
  accessFlags := accessFlags
  name := name
  data := List.replicate (limit - base) 0
  policy := policy
  accessMap := PyDict.empty

/-- `attach_policy`, for the input policy. -/
def attachPolicy (m : PolicyMemoryMap) : PolicyMemoryMap := { m with policy := .input }

/-- `_can_do_op`. -/
def canDoOp (m : PolicyMemoryMap) (op : MemoryFlags → Bool) (addr : Nat) : Bool :=
  op m.accessFlags && (decide (m.base ≤ addr) && decide (addr < m.limit))

def canRead (m : PolicyMemoryMap) (byteAddr : Nat) : Bool := m.canDoOp (·.read) byteAddr
def canWrite (m : PolicyMemoryMap) (byteAddr : Nat) : Bool := m.canDoOp (·.write) byteAddr
def canExecute (m : PolicyMemoryMap) (byteAddr : Nat) : Bool := m.canDoOp (·.execute) byteAddr

/-! ## calls of the policy -/

/-- Call a method of the shared input policy. -/
def callInput {α : Type} (f : PolicyM α) : PolicyMethod α := fun s =>
  match s.2 with
  | none => .error .attributeError s
  | some p => match f p with
      | .ok a p' => .ok a (s.1, some p')
      | .error e p' => .error e (s.1, some p')

/-- `self._policy.handle_load(addr)`. -/
def handleLoad (addr : Nat) : PolicyMethod Bool := do
  match (← get).1.policy with
  | .default => pure false
  | .input => callInput do
      let p ← get
      return p.handleLoad addr

/-- `self._policy.handle_store(addr)`. -/
def handleStore (addr : Nat) : PolicyMethod Bool := do
  match (← get).1.policy with
  | .default => pure true
  | .input => callInput do
      let p ← get
      return p.handleStore addr

/-- `self._policy.read_before_write(addr, size, data)`. -/
def readBeforeWrite (addr size : Nat) (data : List Byte) : PolicyMethod (List Byte) := do
  match (← get).1.policy with
  | .default => pure data
  | .input => callInput (InputMemoryPolicy.readBeforeWrite addr size data)

/-- `self._policy.write_before_read(addr, size, data)`. -/
def writeBeforeRead (addr size : Nat) (data : List Byte) : PolicyMethod (List Byte) := do
  match (← get).1.policy with
  | .default => pure data
  | .input => callInput (InputMemoryPolicy.writeBeforeRead addr size data)

/-- `self._policy.add_output(addr, size)`, which the default policy does not have. -/
def addOutput (addr size : Nat) : PolicyMethod Unit := do
  match (← get).1.policy with
  | .default => throw .attributeError
  | .input => callInput (InputMemoryPolicy.addOutput addr size)

/-! ## `_load_policy` and `_store_policy` -/

/-- `_access_map.get(addr, no_flags)`. -/
def flag (m : PolicyMemoryMap) (addr : Nat) : PolicyFlags :=
  (m.accessMap.get? addr).getD ⟨false, false⟩

/-- The flags of a range, before the access. -/
def flagList (m : PolicyMemoryMap) (addr size : Nat) : List PolicyFlags :=
  (List.range size).map fun i => m.flag (addr + i)

/-- `self._data[start:stop] = new_data`. -/
def setSlice (m : PolicyMemoryMap) (start stop : Int) (newData : List Byte) : PolicyMemoryMap :=
  { m with data := PyList.setSlice m.data start stop newData }

/-- `new_data = callback(addr, size, self._data[start:end])`, stored back. -/
def replaceData (callback : Nat → Nat → List Byte → PolicyMethod (List Byte))
    (addr size : Nat) : PolicyMethod Unit := do
  let m := (← get).1
  let start : Int := addr - m.base
  let newData ← callback addr size (PyList.slice m.data start (start + size))
  pyAssert (newData.length == size)
  modify fun s => (s.1.setSlice start (start + size) newData, s.2)

/-- Set the flags of a range. -/
def setFlags (addr : Nat) (flags : List PolicyFlags) : PolicyMethod Unit :=
  modify fun s => ({ s.1 with accessMap := s.1.accessMap.setFrom addr flags }, s.2)

/-- The callback of `_load_policy`: read before write. -/
def loadCallback (flags : List PolicyFlags) (addr size : Nat) : PolicyMethod Unit :=
  if flags.any fun x => !x.written then replaceData readBeforeWrite addr size else pure ()

/-- `_load_policy`. -/
def loadPolicy (addr size : Nat) : PolicyMethod Unit := do
  if ← handleLoad addr then
    let flags := (← get).1.flagList addr size
    loadCallback flags addr size
    setFlags addr (flags.map fun x => { x with read := true })

/-- The callback of `_store_policy`: write before read, or any other write. -/
def storeCallback (flags : List PolicyFlags) (addr size : Nat) : PolicyMethod Unit :=
  if flags.any fun x => !x.read then replaceData writeBeforeRead addr size
  else addOutput addr size

/-- `_store_policy`. -/
def storePolicy (addr size : Nat) : PolicyMethod Unit := do
  if ← handleStore addr then
    let flags := (← get).1.flagList addr size
    storeCallback flags addr size
    setFlags addr (flags.map fun x => { x with written := true })

/-! ## loads and stores -/

/-- `self._data[offset : (offset + size)]`. -/
def readData (addr size : Nat) : PolicyMethod (List Byte) := do
  let m := (← get).1
  let offset : Int := addr - m.base
  return PyList.slice m.data offset (offset + size)

/-- `_load_unit`. -/
def loadUnit (addr size : Nat) : PolicyMethod (List Byte) := do
  loadPolicy addr size
  readData addr size

/-- `load_bytes`. -/
def loadBytes (addr numBytes : Nat) : PolicyMethod (List Byte) := do
  loadPolicy addr numBytes
  readData addr numBytes

/-- `_store_bytes`, also called `store_bytes_raw`; `false` when an assignment raised
`IndexError`. -/
def putBytes (m : PolicyMemoryMap) (addr : Nat) (data : List Byte) : PolicyMemoryMap × Bool :=
  let r := PyList.writeFrom m.data (addr - m.base) data
  ({ m with data := r.1 }, r.2)

/-- `store_bytes_raw`, as a method. -/
def storeBytesRaw (addr : Nat) (data : List Byte) : PolicyMethod Unit := fun s =>
  let r := s.1.putBytes addr data
  if r.2 then .ok () (r.1, s.2) else .error .indexError (r.1, s.2)

/-- `_store_unit`. -/
def storeUnit (addr size : Nat) (data : List Byte) : PolicyMethod Unit := do
  storePolicy addr size
  storeBytesRaw addr (data.take size)

/-- `store_bytes`. -/
def storeBytes (addr : Nat) (data : List Byte) : PolicyMethod Unit := do
  storePolicy addr data.length
  storeBytesRaw addr data

/-! ## in-range accesses -/

/-- The list of bytes fits the range. -/
def WellFormed (m : PolicyMemoryMap) : Prop := m.data.length = m.limit - m.base

/-- The byte the map holds for an address of its range. -/
def byteAt (m : PolicyMemoryMap) (a : Nat) : Byte := m.data.getD (a - m.base) 0

/-- A range inside the map. -/
structure Contains (m : PolicyMemoryMap) (addr n : Nat) : Prop where
  wellFormed : m.WellFormed
  base_le : m.base ≤ addr
  le_limit : addr + n ≤ m.limit

theorem Contains.offset_eq {m : PolicyMemoryMap} {addr n : Nat} (h : m.Contains addr n) :
    (addr : Int) - m.base = ((addr - m.base : Nat) : Int) := by
  have := h.base_le
  omega

theorem Contains.fits {m : PolicyMemoryMap} {addr n : Nat} (h : m.Contains addr n) :
    (addr - m.base) + n ≤ m.data.length := by
  have hlen : m.data.length = m.limit - m.base := h.wellFormed
  have := h.base_le
  have := h.le_limit
  omega

/-- The slice of a contained range holds its bytes. -/
theorem slice_eq {m : PolicyMemoryMap} {addr n : Nat} (h : m.Contains addr n) :
    PyList.slice m.data ((addr : Int) - m.base) ((addr : Int) - m.base + n) =
      (List.range n).map fun i => m.byteAt (addr + i) := by
  apply List.ext_getElem?
  intro k
  have hfit := h.fits
  have hbase := h.base_le
  rw [h.offset_eq]
  by_cases hk : k < n
  · rw [PyList.getElem?_slice_of_le hfit hk, List.getElem?_map, List.getElem?_range hk]
    simp only [Option.map_some, byteAt, List.getD_eq_getElem?_getD,
      show addr + k - m.base = addr - m.base + k by omega,
      List.getElem?_eq_getElem (show addr - m.base + k < m.data.length by omega),
      Option.getD_some]
  · rw [List.getElem?_eq_none (by rw [PyList.length_slice_of_le hfit]; omega),
      List.getElem?_eq_none (by simp; omega)]

/-- Replacing the slice of a contained range. -/
theorem byteAt_setSlice {m : PolicyMemoryMap} {addr n : Nat} {new : List Byte}
    (h : m.Contains addr n) (hnew : new.length = n) {a : Nat} (ha : m.base ≤ a) :
    (m.setSlice ((addr : Int) - m.base) ((addr : Int) - m.base + n) new).byteAt a =
      if addr ≤ a ∧ a < addr + n then new.getD (a - addr) 0 else m.byteAt a := by
  have hbase := h.base_le
  rw [h.offset_eq, setSlice]
  simp only [List.getD_eq_getElem?_getD, byteAt, PyList.getElem?_setSlice h.fits hnew]
  by_cases hin : addr ≤ a ∧ a < addr + n
  · rw [if_pos (by omega), if_pos hin, show a - m.base - (addr - m.base) = a - addr by omega]
  · rw [if_neg (by omega), if_neg hin]

/-- A store into a contained range finishes. -/
theorem storeBytesRaw_ok {m : PolicyMemoryMap} {addr : Nat} {data : List Byte}
    (p : Option InputMemoryPolicy) (h : m.Contains addr data.length) :
    storeBytesRaw addr data (m, p) = .ok () ((m.putBytes addr data).1, p) := by
  have hok : (m.putBytes addr data).2 = true := by
    simp only [putBytes, h.offset_eq]
    exact PyList.writeFrom_ok h.fits
  simp only [storeBytesRaw, hok, if_true]

/-- A store into a contained range replaces exactly its bytes. -/
theorem byteAt_putBytes {m : PolicyMemoryMap} {addr : Nat} {data : List Byte}
    (h : m.Contains addr data.length) {a : Nat} (ha : m.base ≤ a) :
    (m.putBytes addr data).1.byteAt a =
      if addr ≤ a ∧ a < addr + data.length then data.getD (a - addr) 0 else m.byteAt a := by
  have hbase := h.base_le
  simp only [putBytes, h.offset_eq, List.getD_eq_getElem?_getD, byteAt,
    PyList.getElem?_writeFrom h.fits]
  by_cases hin : addr ≤ a ∧ a < addr + data.length
  · rw [if_pos (by omega), if_pos hin, show a - m.base - (addr - m.base) = a - addr by omega]
  · rw [if_neg (by omega), if_neg hin]

end PolicyMemoryMap

/-! ## the maps of a Godefroid process -/

/-- A map object of a Godefroid process: a policy map, or the default of the page table. -/
inductive GodefroidMap where
  | memoryMap
  | policy (m : PolicyMemoryMap)

namespace GodefroidMap

/-- The policy map, if the object is one. -/
def policyMap? : GodefroidMap → Option PolicyMemoryMap
  | .memoryMap => none
  | .policy m => some m

/-- A method of the policy map; the base class raises `exc`. -/
def onPolicy {α : Type} (exc : PyExc) (f : PolicyMemoryMap.PolicyMethod α) :
    Method GodefroidMap (Option InputMemoryPolicy) α := fun s =>
  match s.1 with
  | .memoryMap => .error exc s
  | .policy m => match f (m, s.2) with
      | .ok a t => .ok a (.policy t.1, t.2)
      | .error e t => .error e (.policy t.1, t.2)

instance : MemoryMap GodefroidMap (Option InputMemoryPolicy) where
  new := .memoryMap
  base o := (o.policyMap?.map (·.base)).getD 0
  limit o := (o.policyMap?.map (·.limit)).getD 0
  canRead o a := (o.policyMap?.map (·.canRead a)).getD false
  canWrite o a := (o.policyMap?.map (·.canWrite a)).getD false
  canExecute o a := (o.policyMap?.map (·.canExecute a)).getD false
  loadByte addr := onPolicy (.memoryAccess (.loadUnit 1 addr)) (PolicyMemoryMap.loadUnit addr 1)
  loadWord addr := onPolicy (.memoryAccess (.loadUnit 2 addr)) (PolicyMemoryMap.loadUnit addr 2)
  loadDword addr := onPolicy (.memoryAccess (.loadUnit 4 addr)) (PolicyMemoryMap.loadUnit addr 4)
  loadQword addr := onPolicy (.memoryAccess (.loadUnit 8 addr)) (PolicyMemoryMap.loadUnit addr 8)
  loadBytes addr n := onPolicy (.memoryAccess (.loadBytes n addr))
    (PolicyMemoryMap.loadBytes addr n)
  storeByte addr data := onPolicy (.memoryAccess (.storeUnit 1 addr))
    (PolicyMemoryMap.storeUnit addr 1 data)
  storeWord addr data := onPolicy (.memoryAccess (.storeUnit 2 addr))
    (PolicyMemoryMap.storeUnit addr 2 data)
  storeDword addr data := onPolicy (.memoryAccess (.storeUnit 4 addr))
    (PolicyMemoryMap.storeUnit addr 4 data)
  storeQword addr data := onPolicy (.memoryAccess (.storeUnit 8 addr))
    (PolicyMemoryMap.storeUnit addr 8 data)
  storeBytes addr data :=
    onPolicy (.memoryAccess (.storeBytes data.length addr)) (PolicyMemoryMap.storeBytes addr data)

end GodefroidMap

end Microx
