import Microx.Process
import Microx.Memory.Flat

/-!
# Microx.ReadMemory

`Process.read_memory` over array maps: which ranges can be read, and what is
read there.

The permission loop looks up the page of an address modulo the address size but
compares the address itself with the range of the map, so nothing past the end
of the address space passes it.  What passes is backed by arrays, and the load
that follows returns its bytes.
-/

namespace Microx

open Hoare

namespace Memory

/-- All map objects are array maps, but for those that a lookup entered. -/
def OfArrays (m : Core) : Prop := ∀ r, (m.objs r).isArray = true ∨ m.objs r = .memoryMap

/-- The map's permissions include all those that a hint asks for. -/
def Grants (hint : MemRequestHint) (p : PermissionedMemoryMap) : Prop :=
  (Proc.isReadHint hint = true → p.mayRead = true) ∧
    (Proc.isWriteHint hint = true → p.mayWrite = true) ∧
    (Proc.isExecHint hint = true → p.mayExecute = true)

/-- The address is inside the array map its page resolves to, and the map grants the hint. -/
def Permitted (m : Core) (hint : MemRequestHint) (a : Nat) : Prop :=
  ∃ r arr, m.Backed a r arr ∧ Grants hint arr.toPermissionedMemoryMap

/-! ## memories of array maps -/

/-- Fresh array maps make a memory of array maps. -/
theorem addAll_ofArrays (maps : List PermissionedMemoryMap) (addressSize : AddressSize)
    {pageShift : Nat} (h : 0 < pageShift) (h' : pageShift < 32) :
    Meets (fun _ m => m.OfArrays) (fun _ m => m.OfArrays)
      (addAll maps (init addressSize pageShift h h')) := by
  have hfresh (p : PermissionedMemoryMap) :
      Triple OfArrays (addFresh p) (fun _ => OfArrays) fun _ => OfArrays := by
    refine Triple.bind (Q := fun _ => OfArrays) (fun m hm r => ?_) fun r => ?_
    · by_cases hr : r = m.numObjs
      · subst hr
        exact .inl (by simp [CoreMap.isArray])
      · simpa only [Function.update_of_ne hr] using hm r
    · refine Triple.read fun m => (pyAssert_triple _).bind fun _ => Triple.update fun m' hm' => ?_
      obtain ⟨t, ht, -⟩ := foldl_setPage r
        (pageStarts m'.pageSize (MemoryMap.base (m.objs r)) (MemoryMap.limit (m.objs r))) m'
      rw [ht]
      exact hm'
  exact Triple.forM (fun p _ => hfresh p) _ fun r => .inr rfl

/-! ## permissions of a byte -/

/-- Whether a permission is given for an address. -/
def allowed (m : Core) (perm : PermissionedMemoryMap → Bool) (a : Nat) : Bool :=
  (((m.resolve a).bind fun r => (m.objs r).range?).map fun p => perm p && p.contains a).getD false

section

variable {f : Nat → EStateM PyExc Core Bool} {can : CoreMap → Nat → Bool}
  {perm : PermissionedMemoryMap → Bool}

/-- A test of a permission: it looks up the page and asks the map. -/
structure Tests (f : Nat → EStateM PyExc Core Bool) (perm : PermissionedMemoryMap → Bool) :
    Prop where
  run : ∀ m a, ∃ m', f a m = .ok (m.allowed perm a) m' ∧ ((m.resolve a).isSome → m' = m)

theorem tests_of_can
    (hf : ∀ a, f a = findMap a >>= fun r => get >>= fun m => pure (can (m.objs r) a))
    (hcan : ∀ o a, can o a = (o.range?.map fun p => perm p && p.contains a).getD false) :
    Tests f perm where
  run m a := by
    rw [hf]
    cases hr : m.resolve a with
    | none =>
        obtain ⟨r, m', hfind, hnew⟩ : ∃ r m', findMap a m = .ok r m' ∧ m'.objs r = .memoryMap :=
          ⟨_, _, findMap_absent hr, Function.update_self _ _ _⟩
        refine ⟨m', ?_, fun h => by cases h⟩
        rw [run_bind_ok hfind, run_get_bind, run_pure, hcan, hnew, allowed, hr]
        rfl
    | some r =>
        refine ⟨m, ?_, fun _ => rfl⟩
        rw [run_bind_ok (findMap_of_resolve hr), run_get_bind, run_pure, hcan, allowed, hr,
          Option.bind_some]

theorem tests_canRead : Tests canRead (·.mayRead) := tests_of_can (fun _ => rfl) fun _ _ => rfl

theorem tests_canWrite : Tests canWrite (·.mayWrite) := tests_of_can (fun _ => rfl) fun _ _ => rfl

theorem tests_canExecute : Tests canExecute (·.mayExecute) :=
  tests_of_can (fun _ => rfl) fun _ _ => rfl

variable {m : Core} {a : Nat}

theorem isSome_of_allowed (h : m.allowed perm a = true) : (m.resolve a).isSome := by
  cases hr : m.resolve a with
  | none => simp [allowed, hr] at h
  | some r => rfl

/-- A check that is not made, or passes. -/
theorem Tests.require_ok (ht : Tests f perm) {check : Bool} {fault : AccessFault}
    (h : check = true → m.allowed perm a = true) : Proc.require check (f a) fault m = .ok () m := by
  unfold Proc.require
  cases check with
  | false => rfl
  | true =>
      obtain ⟨m', hrun, hsame⟩ := ht.run m a
      rw [hsame (isSome_of_allowed (h rfl)), h rfl] at hrun
      rw [if_pos rfl, run_bind_ok hrun]
      rfl

/-- A check that fails. -/
theorem Tests.require_error (ht : Tests f perm) (fault : AccessFault)
    (h : m.allowed perm a = false) :
    ∃ m', Proc.require true (f a) fault m = .error (.memoryAccess fault) m' := by
  obtain ⟨m', hrun, -⟩ := ht.run m a
  refine ⟨m', ?_⟩
  rw [Proc.require, if_pos rfl, run_bind_ok hrun, h]
  rfl

/-- In a memory of array maps, a permission is given where an array map gives it. -/
theorem allowed_iff (hm : m.OfArrays) :
    m.allowed perm a = true ↔ ∃ r arr, m.Backed a r arr ∧ perm arr.toPermissionedMemoryMap = true := by
  constructor
  · intro h
    obtain ⟨r, hr⟩ := Option.isSome_iff_exists.mp (isSome_of_allowed h)
    cases hm r with
    | inl harray =>
        obtain ⟨arr, harr⟩ := CoreMap.isArray_iff.mp harray
        simp only [allowed, hr, Option.bind_some, harr, CoreMap.range?_array, Option.map_some,
          Option.getD_some, Bool.and_eq_true, PermissionedMemoryMap.contains_iff] at h
        exact ⟨r, arr, ⟨hr, harr, h.2.1, h.2.2⟩, h.1⟩
    | inr hnew => simp [allowed, hr, hnew, CoreMap.range?] at h
  · rintro ⟨r, arr, hb, hperm⟩
    simp [allowed, hb.resolves, hb.isArray, hperm, PermissionedMemoryMap.contains_iff.mpr
      ⟨hb.base_le, hb.lt_limit⟩]

/-- One array map backs an address. -/
theorem Backed.unique {r r' : Nat} {arr arr' : ArrayMemoryMap} (h : m.Backed a r arr)
    (h' : m.Backed a r' arr') : arr = arr' := by
  obtain rfl : r = r' := Option.some.inj (h.resolves.symm.trans h'.resolves)
  exact CoreMap.array.inj (h.isArray.symm.trans h'.isArray)

/-! ## the permission loop -/

variable {hint : MemRequestHint}

/-- A permitted byte passes. -/
theorem checkByte_ok (hm : m.OfArrays) (h : m.Permitted hint a) :
    Proc.checkByte hint a m = .ok () m := by
  obtain ⟨r, arr, hb, hread, hwrite, hexec⟩ := h
  have hallowed {perm : PermissionedMemoryMap → Bool} {check : Bool}
      (hperm : check = true → perm arr.toPermissionedMemoryMap = true) (hc : check = true) :
      m.allowed perm a = true := (allowed_iff hm).mpr ⟨r, arr, hb, hperm hc⟩
  unfold Proc.checkByte
  rw [run_bind_ok (tests_canRead.require_ok (hallowed hread)),
    run_bind_ok (tests_canWrite.require_ok (hallowed hwrite))]
  exact tests_canExecute.require_ok (hallowed hexec)

/-- Any other byte does not. -/
theorem checkByte_error (hm : m.OfArrays) (hhint : hint ≠ .addressGeneration)
    (h : ¬m.Permitted hint a) :
    ∃ fault m', Proc.checkByte hint a m = .error (.memoryAccess fault) m' := by
  have hchecked : Proc.isReadHint hint = true ∨ Proc.isWriteHint hint = true := by
    cases hint <;> simp_all [Proc.isReadHint, Proc.isWriteHint]
  by_cases hread : Proc.isReadHint hint = true → m.allowed (·.mayRead) a = true
  · by_cases hwrite : Proc.isWriteHint hint = true → m.allowed (·.mayWrite) a = true
    · by_cases hexec : Proc.isExecHint hint = true → m.allowed (·.mayExecute) a = true
      · -- all checks pass
        have hbacked : ∃ r arr, m.Backed a r arr := by
          cases hchecked with
          | inl hc =>
              obtain ⟨r, arr, hb, -⟩ := (allowed_iff hm).mp (hread hc)
              exact ⟨r, arr, hb⟩
          | inr hc =>
              obtain ⟨r, arr, hb, -⟩ := (allowed_iff hm).mp (hwrite hc)
              exact ⟨r, arr, hb⟩
        obtain ⟨r, arr, hb⟩ := hbacked
        have hgiven {perm : PermissionedMemoryMap → Bool} {check : Bool}
            (hallowed : check = true → m.allowed perm a = true) (hc : check = true) :
            perm arr.toPermissionedMemoryMap = true := by
          obtain ⟨r', arr', hb', hperm⟩ := (allowed_iff hm).mp (hallowed hc)
          rwa [hb.unique hb']
        exact absurd ⟨r, arr, hb, hgiven hread, hgiven hwrite, hgiven hexec⟩ h
      · obtain ⟨hc, hno⟩ := Classical.not_imp.mp hexec
        obtain ⟨m', hrun⟩ := tests_canExecute.require_error (.notExecutable a)
          (Bool.eq_false_iff.mpr hno)
        refine ⟨.notExecutable a, m', ?_⟩
        rw [Proc.checkByte, run_bind_ok (tests_canRead.require_ok hread),
          run_bind_ok (tests_canWrite.require_ok hwrite), hc, hrun]
    · obtain ⟨hc, hno⟩ := Classical.not_imp.mp hwrite
      obtain ⟨m', hrun⟩ := tests_canWrite.require_error (.notWritable a)
        (Bool.eq_false_iff.mpr hno)
      refine ⟨.notWritable a, m', ?_⟩
      rw [Proc.checkByte, run_bind_ok (tests_canRead.require_ok hread), hc, run_bind_error hrun]
  · obtain ⟨hc, hno⟩ := Classical.not_imp.mp hread
    obtain ⟨m', hrun⟩ := tests_canRead.require_error (.notReadable a)
      (Bool.eq_false_iff.mpr hno)
    refine ⟨.notReadable a, m', ?_⟩
    rw [Proc.checkByte, hc, run_bind_error hrun]

end

/-- The loop ends at the first byte that is not permitted. -/
theorem checkBytes_meets {m : Core} {hint : MemRequestHint} (hm : m.OfArrays)
    (hhint : hint ≠ .addressGeneration) (addr : Nat) (is : List Nat) :
    Meets (fun _ m' => m' = m ∧ ∀ i ∈ is, m.Permitted hint (addr + i))
      (fun e _ => (∃ fault, e = .memoryAccess fault) ∧ ¬∀ i ∈ is, m.Permitted hint (addr + i))
      (is.forM (fun i => Proc.checkByte hint (addr + i)) m) := by
  induction is with
  | nil => exact ⟨rfl, by simp⟩
  | cons i is ih =>
      have hcons : (i :: is).forM (fun i => Proc.checkByte hint (addr + i)) m =
          (Proc.checkByte hint (addr + i) >>= fun _ =>
            is.forM fun i => Proc.checkByte hint (addr + i)) m := rfl
      rw [hcons]
      by_cases h : m.Permitted hint (addr + i)
      · rw [run_bind_ok (checkByte_ok hm h)]
        simpa [h] using ih
      · obtain ⟨fault, m', hrun⟩ := checkByte_error hm hhint h
        rw [run_bind_error hrun]
        exact ⟨⟨fault, rfl⟩, fun hall => h (hall i List.mem_cons_self)⟩

end Memory

namespace Proc

open Memory

variable {τ : Type}

/-- Where every byte is permitted, `read_memory` returns the bytes that are there. -/
theorem readMemory_permitted {p : Proc τ} (hm : p.memory.OfArrays) {addr n : Nat}
    {hint : MemRequestHint} (hhint : hint ≠ .addressGeneration)
    (h : ∀ i < n, p.memory.Permitted hint (addr + i)) :
    readMemory addr n hint p =
      .ok (.bytes ((List.range n).map fun i => p.memory.byteAt (addr + i))) p := by
  have hloop := checkBytes_meets hm hhint addr (List.range n)
  have hload := load_ok fun i hi => by
    obtain ⟨r, arr, hb, -⟩ := h i hi
    exact ⟨r, arr, hb⟩
  have hbytes : onMemory (load addr n) p =
      .ok ((List.range n).map fun i => p.memory.byteAt (addr + i)) p := by
    rw [onMemory, hload]
  cases hrun : (List.range n).forM (fun i => checkByte hint (addr + i)) p.memory with
  | error e m' =>
      rw [hrun] at hloop
      exact absurd (fun i hi => h i (List.mem_range.mp hi)) hloop.2
  | ok _ m' =>
      rw [hrun] at hloop
      obtain ⟨hsame, -⟩ := hloop
      subst hsame
      have hcheck : onMemory ((List.range n).forM fun i => checkByte hint (addr + i)) p =
          .ok () p := by
        rw [onMemory, hrun]
      rw [readMemory, run_bind_ok hcheck, run_bind_ok hbytes]
      rfl

/-- Where some byte is not, the permission loop ends it. -/
theorem readMemory_denied {p : Proc τ} (hm : p.memory.OfArrays) {addr n : Nat}
    {hint : MemRequestHint} (hhint : hint ≠ .addressGeneration)
    (h : ¬∀ i < n, p.memory.Permitted hint (addr + i)) :
    ∃ fault m', (List.range n).forM (fun i => checkByte hint (addr + i)) p.memory =
        .error (.memoryAccess fault) m' ∧
      readMemory addr n hint p = .error (.memoryAccess fault) { p with memory := m' } := by
  have hloop := checkBytes_meets hm hhint addr (List.range n)
  cases hrun : (List.range n).forM (fun i => checkByte hint (addr + i)) p.memory with
  | ok _ m' =>
      rw [hrun] at hloop
      exact absurd (fun i hi => hloop.2 i (List.mem_range.mpr hi)) h
  | error e m' =>
      rw [hrun] at hloop
      obtain ⟨fault, rfl⟩ := hloop.1
      have hcheck : onMemory ((List.range n).forM fun i => checkByte hint (addr + i)) p =
          .error (.memoryAccess fault) { p with memory := m' } := by
        rw [onMemory, hrun]
      exact ⟨fault, m', rfl, run_bind_error hcheck⟩

/-- **`read_memory`** returns exactly when every byte of the range is permitted, and then the
bytes that are there; else it raises a `MemoryAccessException`. -/
theorem readMemory_exact {p : Proc τ} (hm : p.memory.OfArrays) (addr n : Nat)
    {hint : MemRequestHint} (hhint : hint ≠ .addressGeneration) :
    Meets
      (fun v p' => p' = p ∧ (∀ i < n, p.memory.Permitted hint (addr + i)) ∧
        v = .bytes ((List.range n).map fun i => p.memory.byteAt (addr + i)))
      (fun e _ => (∃ fault, e = .memoryAccess fault) ∧
        ¬∀ i < n, p.memory.Permitted hint (addr + i))
      (readMemory addr n hint p) := by
  by_cases h : ∀ i < n, p.memory.Permitted hint (addr + i)
  · rw [readMemory_permitted hm hhint h]
    exact ⟨rfl, h, rfl⟩
  · obtain ⟨fault, m', -, hrun⟩ := readMemory_denied hm hhint h
    rw [hrun]
    exact ⟨⟨fault, rfl⟩, h⟩

/-- Three bytes of a map of four, of which the last is past its limit. -/
theorem readMemory_exact_fourBytes :
    ∃ m, addAll [fourBytes] (init .x32 1 (by decide) (by decide)) = .ok () m ∧
      Meets
        (fun v p' => p' = ⟨m, ()⟩ ∧ (∀ i < 3, m.Permitted .readWrite (4 + i)) ∧
          v = .bytes ((List.range 3).map fun i => m.byteAt (4 + i)))
        (fun e _ => (∃ fault, e = .memoryAccess fault) ∧
          ¬∀ i < 3, m.Permitted .readWrite (4 + i))
        (readMemory 4 3 .readWrite (⟨m, ()⟩ : Proc Unit)) := by
  have hpos : 0 < 1 := by decide
  have hlt : 1 < 32 := by decide
  have hmaps : ∀ p ∈ [fourBytes], 2 ^ 1 ∣ p.base := by decide
  obtain ⟨m, hbuild, -⟩ := addAll_zeroed .x32 hpos hlt hmaps
  have harrays := addAll_ofArrays [fourBytes] .x32 hpos hlt
  rw [hbuild] at harrays
  have hm : m.OfArrays := harrays
  exact ⟨m, hbuild, readMemory_exact (p := ⟨m, ()⟩) hm 4 3 (by decide)⟩

end Proc

end Microx
