import Microx.Lib.PyDict
import Microx.MemoryMap

/-!
# Microx.Memory

`class Memory` of `microx/__init__.py`: a page table over shared map objects.

Map objects have identity: `objs` is the heap of all map objects and the page
table `memoryMaps` holds references into it.  The page table is a
`defaultdict(MemoryMap)`: looking up a page that is absent allocates a base
class object and enters it, so every probe may update the table.
-/

namespace Microx

/-- `class Memory`, with the heap its maps live in and the state they share. -/
structure Memory (μ π : Type) where
  addressSize : AddressSize
  pageShift : Nat
  pageShift_pos : 0 < pageShift
  pageShift_lt : pageShift < 32
  memoryMaps : PyDict Nat Nat
  objs : Nat → μ
  numObjs : Nat
  shared : π

namespace Memory

variable {μ π α : Type}

/-- `_address_mask`. -/
def addressMask (m : Memory μ π) : Nat := (1 <<< m.addressSize.bits) - 1

/-- The page table key of an address. -/
def page (m : Memory μ π) (byteAddr : Nat) : Nat := (byteAddr &&& m.addressMask) >>> m.pageShift

/-- The page size. -/
def pageSize (m : Memory μ π) : Nat := 1 <<< m.pageShift

theorem pageSize_eq (m : Memory μ π) : m.pageSize = 2 ^ m.pageShift := by
  rw [pageSize, Nat.one_shiftLeft]

theorem page_eq (m : Memory μ π) (a : Nat) :
    m.page a = a % 2 ^ m.addressSize.bits / 2 ^ m.pageShift := by
  rw [page, addressMask, Nat.one_shiftLeft, Nat.and_two_pow_sub_one_eq_mod,
    Nat.shiftRight_eq_div_pow]

/-- The page of an address inside the address space. -/
theorem page_of_lt (m : Memory μ π) {a : Nat} (h : a < 2 ^ m.addressSize.bits) :
    m.page a = a / 2 ^ m.pageShift := by
  rw [page_eq, Nat.mod_eq_of_lt h]

/-! ## map objects and the page table -/

/-- Run a method of the object `r` refers to. -/
def invoke (r : Nat) (f : Method μ π α) : EStateM PyExc (Memory μ π) α := fun m =>
  match f (m.objs r, m.shared) with
  | .ok a s => .ok a { m with objs := Function.update m.objs r s.1, shared := s.2 }
  | .error e s => .error e { m with objs := Function.update m.objs r s.1, shared := s.2 }

/-- Create a map object. -/
def alloc (o : μ) : EStateM PyExc (Memory μ π) Nat := fun m =>
  .ok m.numObjs { m with objs := Function.update m.objs m.numObjs o, numObjs := m.numObjs + 1 }

/-- Enter an object for the page of an address. -/
def setPage (r a : Nat) (m : Memory μ π) : Memory μ π :=
  { m with memoryMaps := m.memoryMaps.set (m.page a) r }

variable [MemoryMap μ π]

/-- `_find_map`. -/
def findMap (byteAddr : Nat) : EStateM PyExc (Memory μ π) Nat := do
  match (← get).memoryMaps.get? ((← get).page byteAddr) with
  | some r => pure r
  | none => do
      let r ← alloc MemoryMap.new
      modify (setPage r byteAddr)
      pure r

/-- The addresses `base`, `base + page`, … below `limit`. -/
def pageStarts (pageSize base limit : Nat) : List Nat :=
  (List.range ((limit - base + (pageSize - 1)) / pageSize)).map fun i => base + i * pageSize

/-- `add_map`. -/
def addMap (r : Nat) : EStateM PyExc (Memory μ π) Unit := do
  let m ← get
  let base := MemoryMap.base (m.objs r)
  let limit := MemoryMap.limit (m.objs r)
  pyAssert (((base >>> m.pageShift) <<< m.pageShift) == base)
  modify fun m => (pageStarts m.pageSize base limit).foldl (fun m a => setPage r a m) m

/-- The `while` loop of `_crosses_pages`, from `i` with `k` rounds left. -/
def crossesFrom (mmap addr : Nat) : Nat → Nat → EStateM PyExc (Memory μ π) Bool
  | _, 0 => pure false
  | i, k + 1 => do
      if (← findMap (addr + i)) ≠ mmap then
        pure true
      else
        crossesFrom mmap addr (i + 1) k

/-- `_crosses_pages`. -/
def crossesPages (addr numBytes : Nat) : EStateM PyExc (Memory μ π) Bool := do
  crossesFrom (← findMap addr) addr 1 (numBytes - 1)

def canRead (byteAddr : Nat) : EStateM PyExc (Memory μ π) Bool := do
  let r ← findMap byteAddr
  return MemoryMap.canRead ((← get).objs r) byteAddr

def canWrite (byteAddr : Nat) : EStateM PyExc (Memory μ π) Bool := do
  let r ← findMap byteAddr
  return MemoryMap.canWrite ((← get).objs r) byteAddr

def canExecute (byteAddr : Nat) : EStateM PyExc (Memory μ π) Bool := do
  let r ← findMap byteAddr
  return MemoryMap.canExecute ((← get).objs r) byteAddr

/-! ## loads -/

/-- `num_bytes in (1, 2, 4, 8) and not _crosses_pages(addr, num_bytes)`. -/
def isUnit (addr numBytes : Nat) : EStateM PyExc (Memory μ π) Bool :=
  if numBytes ∈ [1, 2, 4, 8] then do return !(← crossesPages addr numBytes) else pure false

/-- The byte-by-byte loop of `load`, from `i` with `k` bytes left. -/
def loadEach (addr : Nat) : Nat → Nat → EStateM PyExc (Memory μ π) (List Byte)
  | _, 0 => pure []
  | i, k + 1 => do
      let byteAddr := addr + i
      match ← invoke (← findMap byteAddr) (MemoryMap.loadBytes byteAddr 1) with
      | [] => throw .indexError
      | b :: _ => do
          let reads ← loadEach addr (i + 1) k
          pure (b :: reads)

def load (addr numBytes : Nat) : EStateM PyExc (Memory μ π) (List Byte) := do
  if ← isUnit addr numBytes then
    let r ← findMap addr
    if 1 = numBytes then invoke r (MemoryMap.loadByte addr)
    else if 2 = numBytes then invoke r (MemoryMap.loadWord addr)
    else if 4 = numBytes then invoke r (MemoryMap.loadDword addr)
    else invoke r (MemoryMap.loadQword addr)
  else
    loadEach addr 0 numBytes

/-! ## stores -/

/-- The byte-by-byte loop of `store`; `data` is what remains from index `i` on. -/
def storeEach (addr : Nat) : Nat → List Byte → EStateM PyExc (Memory μ π) Unit
  | _, [] => pure ()
  | i, b :: data => do
      let byteAddr := addr + i
      invoke (← findMap byteAddr) (MemoryMap.storeBytes byteAddr [b])
      storeEach addr (i + 1) data

def store (addr : Nat) (data : List Byte) : EStateM PyExc (Memory μ π) Unit := do
  let numBytes := data.length
  if ← isUnit addr numBytes then
    let r ← findMap addr
    if 1 = numBytes then invoke r (MemoryMap.storeByte addr data)
    else if 2 = numBytes then invoke r (MemoryMap.storeWord addr data)
    else if 4 = numBytes then invoke r (MemoryMap.storeDword addr data)
    else invoke r (MemoryMap.storeQword addr data)
  else
    storeEach addr 0 data

end Memory

end Microx
