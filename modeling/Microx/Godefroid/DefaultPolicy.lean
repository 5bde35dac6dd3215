import Microx.Godefroid.PolicyAccess

/-!
# Microx.Godefroid.DefaultPolicy

A policy map under the default policy is an array map.

The default policy ignores loads, so no byte is ever marked as read.  Every
store of at least one byte therefore takes the branch for a write before a
read, and the callback hands the bytes back as it got them: `add_output`, which
the default policy lacks, is not called.  `Mirrors` is the invariant,
`run_mirrors` one call, and `default_policy_is_array` any calls.
-/

namespace Microx

open Hoare PolicyMemoryMap

/-! ## calls of a map -/

/-- The units that a map loads and stores. -/
inductive MapUnit where
  | byte | word | dword | qword

namespace MapUnit

variable {μ π : Type} [MemoryMap μ π]

/-- The size of a unit, in bytes. -/
def size : MapUnit → Nat
  | byte => 1
  | word => 2
  | dword => 4
  | qword => 8

theorem size_pos (u : MapUnit) : 0 < u.size := by cases u <;> decide

/-- `load_byte`, `load_word`, `load_dword`, `load_qword`. -/
def load : MapUnit → Nat → Method μ π (List Byte)
  | byte => MemoryMap.loadByte
  | word => MemoryMap.loadWord
  | dword => MemoryMap.loadDword
  | qword => MemoryMap.loadQword

/-- `store_byte`, `store_word`, `store_dword`, `store_qword`. -/
def store : MapUnit → Nat → List Byte → Method μ π Unit
  | byte => MemoryMap.storeByte
  | word => MemoryMap.storeWord
  | dword => MemoryMap.storeDword
  | qword => MemoryMap.storeQword

end MapUnit

/-- A call of a method of a map. -/
inductive MapCall where
  | load (u : MapUnit) (addr : Nat)
  | loadBytes (addr numBytes : Nat)
  | store (u : MapUnit) (addr : Nat) (data : List Byte)
  | storeBytes (addr : Nat) (data : List Byte)
  /-- `store_bytes_raw` of a policy map, which other maps do not have. -/
  | storeBytesRaw (addr : Nat) (data : List Byte)

namespace MapCall

variable {μ π : Type} [MemoryMap μ π]

/-- Make the call, with a method for `store_bytes_raw`; the bytes it returns. -/
def run (raw : Nat → List Byte → Method μ π Unit) : MapCall → Method μ π (List Byte)
  | load u addr => u.load addr
  | loadBytes addr numBytes => MemoryMap.loadBytes addr numBytes
  | store u addr data => do
      u.store addr data
      return []
  | storeBytes addr data => do
      MemoryMap.storeBytes addr data
      return []
  | storeBytesRaw addr data => do
      raw addr data
      return []

/-- Make calls; what each of them returns. -/
def runAll (raw : Nat → List Byte → Method μ π Unit) :
    List MapCall → Method μ π (List (List Byte))
  | [] => pure []
  | call :: calls => do
      let bs ← call.run raw
      let rest ← runAll raw calls
      return bs :: rest

/-- The call accesses at least one byte, unless it is raw, and only bytes of the range. -/
def InRange (base limit : Nat) : MapCall → Prop
  | load u addr => base ≤ addr ∧ addr + u.size ≤ limit
  | loadBytes addr numBytes => 0 < numBytes ∧ base ≤ addr ∧ addr + numBytes ≤ limit
  | store u addr _ => base ≤ addr ∧ addr + u.size ≤ limit
  | storeBytes addr data => 0 < data.length ∧ base ≤ addr ∧ addr + data.length ≤ limit
  | storeBytesRaw addr data => base ≤ addr ∧ addr + data.length ≤ limit

/-- The calls, made on a policy map. -/
def onPolicyMap (calls : List MapCall) :
    Method GodefroidMap (Option InputMemoryPolicy) (List (List Byte)) :=
  runAll (fun addr data =>
    GodefroidMap.onPolicy .attributeError (PolicyMemoryMap.storeBytesRaw addr data)) calls

/-- The calls, made on an array map: `store_bytes` in place of `store_bytes_raw`. -/
def onArrayMap (calls : List MapCall) : Method CoreMap Unit (List (List Byte)) :=
  runAll MemoryMap.storeBytes calls

end MapCall

/-! ## one access -/

/-- The policy map has the default policy, the range and bytes of the array map, and no byte that
is marked as read. -/
structure Mirrors (m : PolicyMemoryMap) (arr : ArrayMemoryMap) : Prop where
  policy : m.policy = .default
  base : m.base = arr.base
  limit : m.limit = arr.limit
  data : m.data = arr.data
  unread : ∀ a, (m.flag a).read = false

namespace Mirrors

variable {m : PolicyMemoryMap} {arr : ArrayMemoryMap} (h : Mirrors m arr)
  (p : Option InputMemoryPolicy)

include h

theorem wellFormed : m.WellFormed := by
  rw [WellFormed, h.data, h.limit, h.base, arr.length_data]

/-- A load returns what the array map returns, and changes nothing. -/
theorem loadBytes (addr n : Nat) :
    PolicyMemoryMap.loadBytes addr n (m, p) = .ok (arr.loadBytes addr n) (m, p) := by
  have hload : handleLoad addr (m, p) = .ok false (m, p) := by simp [handleLoad, h.policy]
  have hpolicy : loadPolicy addr n (m, p) = .ok () (m, p) := by
    rw [loadPolicy, run_bind_ok hload]
    rfl
  rw [PolicyMemoryMap.loadBytes, run_bind_ok hpolicy, readData, run_get_bind,
    ArrayMemoryMap.loadBytes, ← h.data, ← h.base]
  rfl

/-- **`_store_policy`** of at least one byte only marks the bytes as written. -/
theorem storePolicy {addr n : Nat} (hn : 0 < n) (hc : m.Contains addr n) :
    ∃ m', storePolicy addr n (m, p) = .ok () (m', p) ∧ Mirrors m' arr := by
  have hstore : handleStore addr (m, p) = .ok true (m, p) := by simp [handleStore, h.policy]
  have hany : (m.flagList addr n).any (fun x => !x.read) = true := by
    rw [List.any_eq_true]
    refine ⟨m.flag (addr + 0), List.mem_map.mpr ⟨0, List.mem_range.mpr hn, rfl⟩, ?_⟩
    rw [h.unread]
    rfl
  have hback : m.setSlice ((addr : Int) - m.base) ((addr : Int) - m.base + n)
      (PyList.slice m.data ((addr : Int) - m.base) ((addr : Int) - m.base + n)) = m := by
    rw [setSlice, hc.offset_eq, PyList.setSlice_slice hc.fits]
  have hlen : (PyList.slice m.data ((addr : Int) - m.base)
      ((addr : Int) - m.base + n)).length = n := by
    rw [hc.offset_eq, PyList.length_slice_of_le hc.fits]
  have hcallback : storeCallback (m.flagList addr n) addr n (m, p) = .ok () (m, p) := by
    rw [storeCallback, if_pos hany, replaceData, run_get_bind]
    have hbefore : ∀ data, writeBeforeRead addr n data (m, p) = .ok data (m, p) := by
      intro data
      simp [writeBeforeRead, h.policy]
    rw [run_bind_ok (hbefore _)]
    simp [pyAssert, hlen, hback]
  let flags := (m.flagList addr n).map fun x => { x with written := true }
  refine ⟨{ m with accessMap := m.accessMap.setFrom addr flags }, ?_, ?_⟩
  · rw [PolicyMemoryMap.storePolicy, run_bind_ok hstore]
    simp only [if_true]
    rw [run_get_bind, run_bind_ok hcallback]
    rfl
  · refine ⟨h.policy, h.base, h.limit, h.data, fun a => ?_⟩
    rw [flag_setFrom]
    split
    · exact h.unread a
    · exact h.unread a

/-- Storing bytes without the policy does what the array map does. -/
theorem storeBytesRaw {addr : Nat} {data : List Byte} (hc : m.Contains addr data.length) :
    ∃ m', PolicyMemoryMap.storeBytesRaw addr data (m, p) = .ok () (m', p) ∧
      Mirrors m' (arr.storeBytes addr data).1 := by
  refine ⟨(m.putBytes addr data).1, PolicyMemoryMap.storeBytesRaw_ok p hc, h.policy, h.base,
    h.limit, ?_, h.unread⟩
  simp only [putBytes, ArrayMemoryMap.storeBytes, h.data, h.base]

/-- A store of a unit, or of some bytes. -/
theorem storeUnit {addr n : Nat} {data : List Byte} (hn : 0 < n) (hc : m.Contains addr n)
    (hlen : data.length ≤ n) :
    ∃ m', (PolicyMemoryMap.storePolicy addr n >>= fun _ =>
        PolicyMemoryMap.storeBytesRaw addr data) (m, p) = .ok () (m', p) ∧
      Mirrors m' (arr.storeBytes addr data).1 := by
  obtain ⟨m₁, hpolicy, hm₁⟩ := h.storePolicy p hn hc
  have hc₁ : m₁.Contains addr data.length :=
    { wellFormed := hm₁.wellFormed
      base_le := by rw [hm₁.base, ← h.base]; exact hc.base_le
      le_limit := by
        rw [hm₁.limit, ← h.limit]
        exact le_trans (Nat.add_le_add_left hlen addr) hc.le_limit }
  obtain ⟨m₂, hraw, hm₂⟩ := hm₁.storeBytesRaw p hc₁
  exact ⟨m₂, by rw [run_bind_ok hpolicy, hraw], hm₂⟩

end Mirrors

/-! ## the methods of the two classes -/

/-- A method of a policy map, called on the object. -/
theorem GodefroidMap.onPolicy_ok {α : Type} {f : PolicyMethod α} {m m' : PolicyMemoryMap}
    {p : Option InputMemoryPolicy} {a : α} (exc : PyExc) (h : f (m, p) = .ok a (m', p)) :
    onPolicy exc f (.policy m, p) = .ok a (.policy m', p) := by
  simp only [onPolicy, h]

namespace MapUnit

theorem load_policy (u : MapUnit) (addr : Nat) : u.load addr =
    GodefroidMap.onPolicy (.memoryAccess (.loadUnit u.size addr)) (loadUnit addr u.size) := by
  cases u <;> rfl

theorem store_policy (u : MapUnit) (addr : Nat) (data : List Byte) : u.store addr data =
    GodefroidMap.onPolicy (.memoryAccess (.storeUnit u.size addr)) (storeUnit addr u.size data) := by
  cases u <;> rfl

theorem load_array (u : MapUnit) (addr : Nat) : u.load addr =
    CoreMap.load (.loadUnit u.size addr) (·.loadBytes addr u.size) := by
  cases u <;> rfl

theorem store_array (u : MapUnit) (addr : Nat) (data : List Byte) : u.store addr data =
    CoreMap.store (.storeUnit u.size addr) (·.storeBytes addr (data.take u.size)) := by
  cases u <;> rfl

end MapUnit

/-! ## any calls -/

namespace MapCall

/-- What a call returns, and leaves of the two maps. -/
structure Agree (call : MapCall) (m : PolicyMemoryMap) (arr : ArrayMemoryMap)
    (p : Option InputMemoryPolicy) (bs : List Byte) (m' : PolicyMemoryMap) (arr' : ArrayMemoryMap) :
    Prop where
  policy : call.run (fun addr data => GodefroidMap.onPolicy .attributeError
    (PolicyMemoryMap.storeBytesRaw addr data)) (.policy m, p) = .ok bs (.policy m', p)
  array : call.run MemoryMap.storeBytes (CoreMap.array arr, ()) = .ok bs (.array arr', ())
  mirrors : Mirrors m' arr'
  base : arr'.base = arr.base
  limit : arr'.limit = arr.limit

variable {m : PolicyMemoryMap} {arr : ArrayMemoryMap}

/-- The range of a policy map that mirrors an array map. -/
theorem contains_of_mirrors (h : Mirrors m arr) {addr n : Nat} (hb : arr.base ≤ addr)
    (hl : addr + n ≤ arr.limit) : m.Contains addr n where
  wellFormed := h.wellFormed
  base_le := h.base ▸ hb
  le_limit := h.limit ▸ hl

/-- **One call** agrees on the two maps. -/
theorem run_mirrors (h : Mirrors m arr) (p : Option InputMemoryPolicy) {call : MapCall}
    (hin : call.InRange arr.base arr.limit) : ∃ bs m' arr', Agree call m arr p bs m' arr' := by
  cases call with
  | load u addr =>
      refine ⟨arr.loadBytes addr u.size, m, arr, ?_, ?_, h, rfl, rfl⟩
      · rw [run, u.load_policy]
        exact GodefroidMap.onPolicy_ok _ (h.loadBytes p addr u.size)
      · rw [run, u.load_array]
        rfl
  | loadBytes addr n =>
      refine ⟨arr.loadBytes addr n, m, arr, ?_, rfl, h, rfl, rfl⟩
      exact GodefroidMap.onPolicy_ok (.memoryAccess (.loadBytes n addr)) (h.loadBytes p addr n)
  | store u addr data =>
      obtain ⟨hb, hl⟩ := hin
      have hlen : (data.take u.size).length ≤ u.size := List.length_take_le _ _
      obtain ⟨m', hstore, hm'⟩ := h.storeUnit p u.size_pos (contains_of_mirrors h hb hl) hlen
      refine ⟨[], m', _, ?_, ?_, hm', rfl, rfl⟩
      · rw [run, u.store_policy]
        exact run_bind_ok (GodefroidMap.onPolicy_ok _ hstore)
      · rw [run, u.store_array]
        exact run_bind_ok (CoreMap.store_array _ () hb (le_trans (by omega) hl))
  | storeBytes addr data =>
      obtain ⟨hpos, hb, hl⟩ := hin
      obtain ⟨m', hstore, hm'⟩ := h.storeUnit p hpos (contains_of_mirrors h hb hl) le_rfl
      exact ⟨[], m', _, run_bind_ok (GodefroidMap.onPolicy_ok _ hstore),
        run_bind_ok (CoreMap.store_array _ () hb hl), hm', rfl, rfl⟩
  | storeBytesRaw addr data =>
      obtain ⟨hb, hl⟩ := hin
      obtain ⟨m', hstore, hm'⟩ := h.storeBytesRaw p (contains_of_mirrors h hb hl)
      exact ⟨[], m', _, run_bind_ok (GodefroidMap.onPolicy_ok _ hstore),
        run_bind_ok (CoreMap.store_array _ () hb hl), hm', rfl, rfl⟩

/-- Calls agree on two maps of which one mirrors the other. -/
theorem runAll_mirrors (p : Option InputMemoryPolicy) (calls : List MapCall) :
    ∀ {m arr}, Mirrors m arr → (∀ call ∈ calls, call.InRange arr.base arr.limit) →
      ∃ results m' arr', onPolicyMap calls (.policy m, p) = .ok results (.policy m', p) ∧
        onArrayMap calls (.array arr, ()) = .ok results (.array arr', ()) := by
  induction calls with
  | nil => exact fun {m arr} _ _ => ⟨[], m, arr, rfl, rfl⟩
  | cons call calls ih =>
      intro m arr h hin
      obtain ⟨bs, m₁, arr₁, hcall⟩ := run_mirrors h p (hin call List.mem_cons_self)
      have hrest : ∀ call ∈ calls, call.InRange arr₁.base arr₁.limit := by
        rw [hcall.base, hcall.limit]
        exact fun c hc => hin c (List.mem_cons_of_mem _ hc)
      obtain ⟨results, m₂, arr₂, hpolicy, harray⟩ := ih hcall.mirrors hrest
      refine ⟨bs :: results, m₂, arr₂, ?_, ?_⟩
      · rw [onPolicyMap, runAll, run_bind_ok hcall.policy]
        exact run_bind_ok hpolicy
      · rw [onArrayMap, runAll, run_bind_ok hcall.array]
        exact run_bind_ok harray

/-- A fresh policy map mirrors a fresh array map. -/
theorem mirrors_init {base limit : Nat} (h : base < limit) (flags : MemoryFlags) (name : String)
    (mayRead mayWrite mayExecute : Bool) :
    Mirrors (PolicyMemoryMap.init base limit h flags .default name)
      (ArrayMemoryMap.init ⟨base, limit, mayRead, mayWrite, mayExecute, h⟩) :=
  ⟨rfl, rfl, rfl, rfl, fun _ => rfl⟩

/-- **A policy map with the default policy is an array map.**  Calls in range raise nothing, and
both maps return the same bytes. -/
theorem default_policy_is_array {base limit : Nat} (h : base < limit) (flags : MemoryFlags)
    (name : String) (p : Option InputMemoryPolicy) (mayRead mayWrite mayExecute : Bool)
    (calls : List MapCall) (hin : ∀ call ∈ calls, call.InRange base limit) :
    let m := PolicyMemoryMap.init base limit h flags .default name
    let arr := ArrayMemoryMap.init ⟨base, limit, mayRead, mayWrite, mayExecute, h⟩
    ∃ results m' arr', onPolicyMap calls (.policy m, p) = .ok results (.policy m', p) ∧
      onArrayMap calls (.array arr, ()) = .ok results (.array arr', ()) :=
  runAll_mirrors p calls (mirrors_init h flags name mayRead mayWrite mayExecute) hin

/-- Raw content, a word stored over it from one byte, and a load across both. -/
theorem default_policy_is_array_word :
    let m := PolicyMemoryMap.init 4 8 (by decide) ⟨true, true, false⟩ .default "[stack]"
    let arr := ArrayMemoryMap.init ⟨4, 8, true, true, false, by decide⟩
    ∃ results m' arr',
      onPolicyMap [.storeBytesRaw 4 [1, 2, 3], .store .word 5 [7], .loadBytes 4 3]
        (.policy m, none) = .ok results (.policy m', none) ∧
      onArrayMap [.storeBytesRaw 4 [1, 2, 3], .store .word 5 [7], .loadBytes 4 3]
        (.array arr, ()) = .ok results (.array arr', ()) :=
  default_policy_is_array (by decide) _ _ none true true false _ (by simp [InRange, MapUnit.size])

end MapCall

end Microx
