import Microx.Lib.PyList
import Microx.Lib.Triple

/-!
# Microx.MemoryMap

The memory map classes of `microx/__init__.py`: what a map offers
(`class MemoryMap`), and the three classes of the core package, the base class
that grants nothing, `PermissionedMemoryMap`, and `ArrayMemoryMap`, which backs
its range by a list of bytes.

Python methods run in `EStateM`: a method that raises keeps the changes it made
to the object before it raised.  A map may share state with other objects (the
input policy of Godefroid); `π` is the type of that shared state.
-/

namespace Microx

/-- A byte. -/
abbrev Byte := BitVec 8

/-- The address sizes that `Memory` and `Executor` accept. -/
inductive AddressSize where
  | x32
  | x64
  deriving DecidableEq, Repr

/-- The address size in bits. -/
def AddressSize.bits : AddressSize → Nat
  | .x32 => 32
  | .x64 => 64

/-! ## exceptions -/

/-- What a `MemoryAccessException` reports. -/
inductive AccessFault where
  /-- `Can't load byte from address {addr:08x}`, or word, dword, qword, by the size. -/
  | loadUnit (size addr : Nat)
  /-- `Can't load {num_bytes} bytes from address {addr:08x}`. -/
  | loadBytes (numBytes addr : Nat)
  /-- `Can't store byte to address {addr:08x}`, or word, dword, qword, by the size. -/
  | storeUnit (size addr : Nat)
  /-- `Can't store {num_bytes} bytes to address {addr:08x}`. -/
  | storeBytes (numBytes addr : Nat)
  /-- `Address {byte_addr:08x} is not readable`. -/
  | notReadable (byteAddr : Nat)
  /-- `Address {byte_addr:08x} is not writable`. -/
  | notWritable (byteAddr : Nat)
  /-- `Address {byte_addr:08x} is not executable`. -/
  | notExecutable (byteAddr : Nat)
  deriving DecidableEq, Repr

/-- The Python exceptions the modelled code raises. -/
inductive PyExc where
  | memoryAccess (fault : AccessFault)
  | assertionError
  | indexError
  | typeError
  | attributeError
  | overflowError
  | other (name : String)
  deriving DecidableEq, Repr

/-- `assert b`. -/
def pyAssert {σ : Type} (b : Bool) : EStateM PyExc σ Unit :=
  if b then pure () else throw .assertionError

/-- An assertion keeps the state, whether it fails or not. -/
theorem pyAssert_triple {σ : Type} {P : σ → Prop} (b : Bool) :
    Hoare.Triple P (pyAssert b) (fun _ => P) fun _ => P := by
  cases b with
  | true => exact Hoare.Triple.pure fun _ hs => hs
  | false => exact Hoare.Triple.throw fun _ hs => hs

/-! ## the interface of a map -/

/-- A method of a map object of type `μ`, with the state it shares. -/
abbrev Method (μ π α : Type) := EStateM PyExc (μ × π) α

/-- `class MemoryMap`: the methods `Memory` calls. -/
class MemoryMap (μ : Type) (π : outParam Type) where
  /-- `MemoryMap()`, the default of the page table. -/
  new : μ
  base : μ → Nat
  limit : μ → Nat
  canRead : μ → Nat → Bool
  canWrite : μ → Nat → Bool
  canExecute : μ → Nat → Bool
  loadByte : Nat → Method μ π (List Byte)
  loadWord : Nat → Method μ π (List Byte)
  loadDword : Nat → Method μ π (List Byte)
  loadQword : Nat → Method μ π (List Byte)
  loadBytes : Nat → Nat → Method μ π (List Byte)
  storeByte : Nat → List Byte → Method μ π Unit
  storeWord : Nat → List Byte → Method μ π Unit
  storeDword : Nat → List Byte → Method μ π Unit
  storeQword : Nat → List Byte → Method μ π Unit
  storeBytes : Nat → List Byte → Method μ π Unit

/-! ## `PermissionedMemoryMap` -/

/-- `class PermissionedMemoryMap`: a non-empty range with one set of permissions. -/
structure PermissionedMemoryMap where
  base : Nat
  limit : Nat
  mayRead : Bool
  mayWrite : Bool
  mayExecute : Bool
  base_lt_limit : base < limit

namespace PermissionedMemoryMap

/-- `_base <= byte_addr < _limit`. -/
def contains (m : PermissionedMemoryMap) (byteAddr : Nat) : Bool :=
  decide (m.base ≤ byteAddr) && decide (byteAddr < m.limit)

def canRead (m : PermissionedMemoryMap) (byteAddr : Nat) : Bool :=
  m.mayRead && m.contains byteAddr

def canWrite (m : PermissionedMemoryMap) (byteAddr : Nat) : Bool :=
  m.mayWrite && m.contains byteAddr

def canExecute (m : PermissionedMemoryMap) (byteAddr : Nat) : Bool :=
  m.mayExecute && m.contains byteAddr

theorem contains_iff {m : PermissionedMemoryMap} {a : Nat} :
    m.contains a = true ↔ m.base ≤ a ∧ a < m.limit := by
  simp [contains]

end PermissionedMemoryMap

/-! ## `ArrayMemoryMap` -/

/-- `class ArrayMemoryMap`: a permissioned map over a list with one byte for each address. -/
structure ArrayMemoryMap extends PermissionedMemoryMap where
  data : List Byte
  length_data : data.length = limit - base

namespace ArrayMemoryMap

/-- `ArrayMemoryMap(ops, base, limit, …)`: all bytes zero. -/
def init (m : PermissionedMemoryMap) : ArrayMemoryMap :=
  { m with data := List.replicate (m.limit - m.base) 0, length_data := List.length_replicate }

def loadBytes (m : ArrayMemoryMap) (addr numBytes : Nat) : List Byte :=
  let offset : Int := addr - m.base
  PyList.slice m.data offset (offset + numBytes)

def loadByte (m : ArrayMemoryMap) (addr : Nat) : List Byte := m.loadBytes addr 1
def loadWord (m : ArrayMemoryMap) (addr : Nat) : List Byte := m.loadBytes addr 2
def loadDword (m : ArrayMemoryMap) (addr : Nat) : List Byte := m.loadBytes addr 4
def loadQword (m : ArrayMemoryMap) (addr : Nat) : List Byte := m.loadBytes addr 8

/-- `store_bytes`; the flag is `false` when an assignment raised `IndexError`. -/
def storeBytes (m : ArrayMemoryMap) (addr : Nat) (data : List Byte) : ArrayMemoryMap × Bool :=
  let r := PyList.writeFrom m.data (addr - m.base) data
  ({ m with data := r.1, length_data := by rw [PyList.length_writeFrom, m.length_data] }, r.2)

def storeByte (m : ArrayMemoryMap) (addr : Nat) (data : List Byte) := m.storeBytes addr (data.take 1)
def storeWord (m : ArrayMemoryMap) (addr : Nat) (data : List Byte) := m.storeBytes addr (data.take 2)
def storeDword (m : ArrayMemoryMap) (addr : Nat) (data : List Byte) := m.storeBytes addr (data.take 4)
def storeQword (m : ArrayMemoryMap) (addr : Nat) (data : List Byte) := m.storeBytes addr (data.take 8)

/-- The byte an array map holds for an address of its range. -/
def byteAt (m : ArrayMemoryMap) (a : Nat) : Byte := m.data.getD (a - m.base) 0

@[simp] theorem byteAt_init (m : PermissionedMemoryMap) (a : Nat) : (init m).byteAt a = 0 := by
  simp only [byteAt, init, List.getD_eq_getElem?_getD, List.getElem?_replicate]
  split <;> rfl

/-- A load inside the range returns the bytes it names. -/
theorem loadBytes_of_le {m : ArrayMemoryMap} {addr n : Nat} (hb : m.base ≤ addr)
    (hl : addr + n ≤ m.limit) :
    m.loadBytes addr n = (List.range n).map fun i => m.byteAt (addr + i) := by
  have hoff : (addr : Int) - m.base = ((addr - m.base : Nat) : Int) := by omega
  have hfit : (addr - m.base) + n ≤ m.data.length := by rw [m.length_data]; omega
  apply List.ext_getElem?
  intro k
  simp only [loadBytes, hoff]
  by_cases hk : k < n
  · rw [PyList.getElem?_slice_of_le hfit hk, List.getElem?_map, List.getElem?_range hk]
    have hlt : addr - m.base + k < m.data.length := by omega
    simp only [Option.map_some, byteAt, List.getD_eq_getElem?_getD,
      show addr + k - m.base = addr - m.base + k by omega, List.getElem?_eq_getElem hlt,
      Option.getD_some]
  · rw [List.getElem?_eq_none (by rw [PyList.length_slice_of_le hfit]; omega),
      List.getElem?_eq_none (by simp; omega)]

/-- A store inside the range finishes. -/
theorem storeBytes_ok {m : ArrayMemoryMap} {addr : Nat} {data : List Byte} (hb : m.base ≤ addr)
    (hl : addr + data.length ≤ m.limit) : (m.storeBytes addr data).2 = true := by
  have hoff : (addr : Int) - m.base = ((addr - m.base : Nat) : Int) := by omega
  simp only [storeBytes, hoff]
  exact PyList.writeFrom_ok (by rw [m.length_data]; omega)

/-- A store inside the range replaces exactly the bytes it names. -/
theorem byteAt_storeBytes {m : ArrayMemoryMap} {addr : Nat} {data : List Byte}
    (hb : m.base ≤ addr) (hl : addr + data.length ≤ m.limit) {a : Nat} (ha : m.base ≤ a) :
    (m.storeBytes addr data).1.byteAt a =
      if addr ≤ a ∧ a < addr + data.length then data.getD (a - addr) 0 else m.byteAt a := by
  have hoff : (addr : Int) - m.base = ((addr - m.base : Nat) : Int) := by omega
  have hfit : (addr - m.base) + data.length ≤ m.data.length := by rw [m.length_data]; omega
  simp only [storeBytes, hoff, byteAt, List.getD_eq_getElem?_getD]
  rw [PyList.getElem?_writeFrom hfit]
  by_cases h : addr ≤ a ∧ a < addr + data.length
  · rw [if_pos (by omega), if_pos h, show a - m.base - (addr - m.base) = a - addr by omega]
  · rw [if_neg (by omega), if_neg h]

end ArrayMemoryMap

/-! ## the maps of the core package -/

/-- A map object of the core package, by class. -/
inductive CoreMap where
  | memoryMap
  | permissioned (m : PermissionedMemoryMap)
  | array (m : ArrayMemoryMap)

namespace CoreMap

/-- The range and permissions of an object whose class has them. -/
def range? : CoreMap → Option PermissionedMemoryMap
  | .memoryMap => none
  | .permissioned m => some m
  | .array m => some m.toPermissionedMemoryMap

def base (m : CoreMap) : Nat := (m.range?.map (·.base)).getD 0
def limit (m : CoreMap) : Nat := (m.range?.map (·.limit)).getD 0
def canRead (m : CoreMap) (byteAddr : Nat) : Bool := (m.range?.map (·.canRead byteAddr)).getD false
def canWrite (m : CoreMap) (byteAddr : Nat) : Bool :=
  (m.range?.map (·.canWrite byteAddr)).getD false
def canExecute (m : CoreMap) (byteAddr : Nat) : Bool :=
  (m.range?.map (·.canExecute byteAddr)).getD false

/-- A load method: only the array class overrides the methods that raise. -/
def load (fault : AccessFault) (f : ArrayMemoryMap → List Byte) : Method CoreMap Unit (List Byte) :=
  fun s => match s.1 with
  | .array m => .ok (f m) s
  | _ => .error (.memoryAccess fault) s

/-- A store method of the array class, raising in the other two. -/
def store (fault : AccessFault) (f : ArrayMemoryMap → ArrayMemoryMap × Bool) :
    Method CoreMap Unit Unit := fun s =>
  match s.1 with
  | .array m =>
      let r := f m
      if r.2 then .ok () (.array r.1, s.2) else .error .indexError (.array r.1, s.2)
  | _ => .error (.memoryAccess fault) s

instance : MemoryMap CoreMap Unit where
  new := .memoryMap
  base := base
  limit := limit
  canRead := canRead
  canWrite := canWrite
  canExecute := canExecute
  loadByte addr := load (.loadUnit 1 addr) (·.loadByte addr)
  loadWord addr := load (.loadUnit 2 addr) (·.loadWord addr)
  loadDword addr := load (.loadUnit 4 addr) (·.loadDword addr)
  loadQword addr := load (.loadUnit 8 addr) (·.loadQword addr)
  loadBytes addr n := load (.loadBytes n addr) (·.loadBytes addr n)
  storeByte addr data := store (.storeUnit 1 addr) (·.storeByte addr data)
  storeWord addr data := store (.storeUnit 2 addr) (·.storeWord addr data)
  storeDword addr data := store (.storeUnit 4 addr) (·.storeDword addr data)
  storeQword addr data := store (.storeUnit 8 addr) (·.storeQword addr data)
  storeBytes addr data := store (.storeBytes data.length addr) (·.storeBytes addr data)

/-- Whether the object is an `ArrayMemoryMap`. -/
def isArray : CoreMap → Bool
  | .array _ => true
  | _ => false

theorem isArray_iff {o : CoreMap} : o.isArray = true ↔ ∃ arr, o = .array arr := by
  cases o <;> simp [isArray]

/-- The byte an object holds for an address; only array maps hold any. -/
def byteAt : CoreMap → Nat → Byte
  | .array m, a => m.byteAt a
  | _, _ => 0

@[simp] theorem byteAt_array (m : ArrayMemoryMap) (a : Nat) :
    (CoreMap.array m).byteAt a = m.byteAt a := rfl

@[simp] theorem range?_array (m : ArrayMemoryMap) :
    (CoreMap.array m).range? = some m.toPermissionedMemoryMap := rfl

/-- An array map loads the bytes of its range. -/
theorem load_array {m : ArrayMemoryMap} {addr n : Nat} (fault : AccessFault) (u : Unit)
    (hb : m.base ≤ addr) (hl : addr + n ≤ m.limit) :
    load fault (·.loadBytes addr n) (.array m, u) =
      .ok ((List.range n).map fun i => m.byteAt (addr + i)) (.array m, u) := by
  simp only [load, ArrayMemoryMap.loadBytes_of_le hb hl]

/-- An array map stores into its range. -/
theorem store_array {m : ArrayMemoryMap} {addr : Nat} {data : List Byte} (fault : AccessFault)
    (u : Unit) (hb : m.base ≤ addr) (hl : addr + data.length ≤ m.limit) :
    store fault (·.storeBytes addr data) (.array m, u) =
      .ok () (.array (m.storeBytes addr data).1, u) := by
  simp only [store, ArrayMemoryMap.storeBytes_ok hb hl, if_true]

/-- The unit stores of the array class store all of a datum of their size. -/
theorem storeUnit_eq (addr : Nat) (data : List Byte) :
    (data.length = 1 → MemoryMap.storeByte (μ := CoreMap) addr data =
      store (.storeUnit 1 addr) (·.storeBytes addr data)) ∧
    (data.length = 2 → MemoryMap.storeWord (μ := CoreMap) addr data =
      store (.storeUnit 2 addr) (·.storeBytes addr data)) ∧
    (data.length = 4 → MemoryMap.storeDword (μ := CoreMap) addr data =
      store (.storeUnit 4 addr) (·.storeBytes addr data)) ∧
    (data.length = 8 → MemoryMap.storeQword (μ := CoreMap) addr data =
      store (.storeUnit 8 addr) (·.storeBytes addr data)) := by
  refine ⟨?_, ?_, ?_, ?_⟩ <;> intro h
  · simp only [MemoryMap.storeByte, ArrayMemoryMap.storeByte, List.take_of_length_le (Nat.le_of_eq h)]
  · simp only [MemoryMap.storeWord, ArrayMemoryMap.storeWord, List.take_of_length_le (Nat.le_of_eq h)]
  · simp only [MemoryMap.storeDword, ArrayMemoryMap.storeDword, List.take_of_length_le (Nat.le_of_eq h)]
  · simp only [MemoryMap.storeQword, ArrayMemoryMap.storeQword, List.take_of_length_le (Nat.le_of_eq h)]

/-- What a store method leaves of the object: its class, range and permissions, and every byte
outside the datum. -/
structure Touched (o o' : CoreMap) (addr n : Nat) : Prop where
  range : o'.range? = o.range?
  isArray : o'.isArray = o.isArray
  byteAt : ∀ p, o.range? = some p → ∀ a, p.base ≤ a → ¬(addr ≤ a ∧ a < addr + n) →
    o'.byteAt a = o.byteAt a

/-- However a store into the range of an object ends, it touches only the datum's bytes. -/
theorem store_touched {o : CoreMap} {p : PermissionedMemoryMap} {addr : Nat} {data : List Byte}
    (fault : AccessFault) (u : Unit) (hp : o.range? = some p) (hb : p.base ≤ addr)
    (hl : addr + data.length ≤ p.limit) :
    Hoare.Meets (fun _ s => Touched o s.1 addr data.length)
      (fun _ s => Touched o s.1 addr data.length)
      (store fault (·.storeBytes addr data) (o, u)) := by
  cases o with
  | memoryMap => exact ⟨rfl, rfl, fun _ _ _ _ _ => rfl⟩
  | permissioned m => exact ⟨rfl, rfl, fun _ _ _ _ _ => rfl⟩
  | array m =>
      obtain rfl : m.toPermissionedMemoryMap = p := Option.some.inj hp
      rw [store_array fault u hb hl]
      refine ⟨rfl, rfl, fun q hq a ha hout => ?_⟩
      obtain rfl : m.toPermissionedMemoryMap = q := Option.some.inj hq
      rw [byteAt_array, byteAt_array, ArrayMemoryMap.byteAt_storeBytes hb hl ha, if_neg hout]

end CoreMap

end Microx
