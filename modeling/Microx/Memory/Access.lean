import Microx.Memory

/-!
# Microx.Memory.Access

What a `Memory` of core maps does with an access whose bytes all lie in the
range of the map their page resolves to.  Such an access never allocates a
default map, so the page table stays as it is; the test `_crosses_pages` only
selects between two ways of reaching the same bytes.

* `load_ok`: a load of array-backed bytes returns them and changes nothing;
* `store_ok`: a store to array-backed bytes finishes and replaces exactly them;
* `store_touches`: a store to bytes in range of any maps touches no other byte,
  however it ends.
-/

namespace Microx

namespace Memory

open Hoare

variable {μ π : Type}

/-- The object the page of an address resolves to. -/
def resolve (m : Memory μ π) (a : Nat) : Option Nat := m.memoryMaps.get? (m.page a)

section Lookup

variable [MemoryMap μ π]

/-- A probe of a page that is present. -/
theorem findMap_of_resolve {m : Memory μ π} {a r : Nat} (h : m.resolve a = some r) :
    findMap a m = .ok r m := by
  have h' : m.memoryMaps.get? (m.page a) = some r := h
  simp only [findMap, run_get_bind]
  rw [h']
  rfl

/-- A probe of a page that is absent enters a default map. -/
theorem findMap_absent {m : Memory μ π} {a : Nat} (h : m.resolve a = none) :
    findMap a m = .ok m.numObjs
      { m with
        memoryMaps := m.memoryMaps.set (m.page a) m.numObjs
        objs := Function.update m.objs m.numObjs MemoryMap.new
        numObjs := m.numObjs + 1 } := by
  have h' : m.memoryMaps.get? (m.page a) = none := h
  simp only [findMap, run_get_bind]
  rw [h']
  rfl

/-- The loop of `_crosses_pages` over pages that are present. -/
theorem crossesFrom_of_resolve {m : Memory μ π} {addr : Nat} {R : Nat → Nat} (mmap k : Nat) :
    ∀ i, (∀ j, i ≤ j → j < i + k → m.resolve (addr + j) = some (R j)) →
      ∃ b, crossesFrom mmap addr i k m = .ok b m ∧
        (b = false → ∀ j, i ≤ j → j < i + k → R j = mmap) := by
  induction k with
  | zero => exact fun i _ => ⟨false, rfl, fun _ j h1 h2 => by omega⟩
  | succ k ih =>
      intro i hR
      have hi := hR i (Nat.le_refl i) (by omega)
      by_cases hne : R i = mmap
      · obtain ⟨b, hb, hall⟩ := ih (i + 1) fun j h1 h2 => hR j (by omega) (by omega)
        refine ⟨b, ?_, fun hf j h1 h2 => ?_⟩
        · rw [crossesFrom, run_bind_ok (findMap_of_resolve hi), if_neg (by simp [hne]), hb]
        · by_cases hj : j = i
          · rw [hj, hne]
          · exact hall hf j (by omega) (by omega)
      · refine ⟨true, ?_, fun hf => by contradiction⟩
        rw [crossesFrom, run_bind_ok (findMap_of_resolve hi), if_pos (by simpa using hne)]
        rfl

/-- The test for a unit access over pages that are present: it changes nothing, and it holds
only for a unit whose bytes all resolve to one object. -/
theorem isUnit_of_resolve {m : Memory μ π} {addr n : Nat} {R : Nat → Nat}
    (hR : ∀ j < n, m.resolve (addr + j) = some (R j)) :
    ∃ b, isUnit addr n m = .ok b m ∧
      (b = true → n ∈ [1, 2, 4, 8] ∧ ∀ j < n, R j = R 0) := by
  by_cases hn : n ∈ [1, 2, 4, 8]
  · have hpos : 0 < n := by
      simp only [List.mem_cons, List.not_mem_nil, or_false] at hn
      omega
    have h0 : findMap addr m = .ok (R 0) m := findMap_of_resolve (hR 0 hpos)
    obtain ⟨b, hb, hall⟩ := crossesFrom_of_resolve (R 0) (n - 1) 1
      fun j h1 h2 => hR j (by omega)
    refine ⟨!b, ?_, fun hf => ⟨hn, fun j hj => ?_⟩⟩
    · have hc : crossesPages addr n m = .ok b m := by
        rw [crossesPages, run_bind_ok h0, hb]
      rw [isUnit, if_pos hn, run_bind_ok hc]
      rfl
    · by_cases h : j = 0
      · rw [h]
      · exact hall (by simpa using hf) j (by omega) (by omega)
  · exact ⟨false, by rw [isUnit, if_neg hn]; rfl, fun h => by contradiction⟩

end Lookup

/-- Entering an object for some addresses changes the page table and nothing else. -/
theorem foldl_setPage (r : Nat) (l : List Nat) (m : Memory μ π) :
    ∃ t, l.foldl (fun m a => setPage r a m) m = { m with memoryMaps := t } ∧
      ∀ q, t.get? q = if ∃ a ∈ l, m.page a = q then some r else m.memoryMaps.get? q := by
  induction l generalizing m with
  | nil => exact ⟨m.memoryMaps, rfl, fun q => by simp⟩
  | cons a l ih =>
      obtain ⟨t, ht, hget⟩ := ih (setPage r a m)
      refine ⟨t, ht, fun q => ?_⟩
      have hset : (setPage r a m).memoryMaps.get? q =
          if q = m.page a then some r else m.memoryMaps.get? q := PyDict.get?_set _ _ _ _
      have hpage : ∀ b, (setPage r a m).page b = m.page b := fun _ => rfl
      simp only [hget, hset, hpage, List.exists_mem_cons_iff]
      by_cases h : m.page a = q
      · simp [h]
      · simp [h, Ne.symm h]

/-- `add_map` of an object with an aligned base. -/
theorem addMap_ok [MemoryMap μ π] {m : Memory μ π} {r : Nat}
    (h : 2 ^ m.pageShift ∣ MemoryMap.base (m.objs r)) :
    ∃ t, addMap r m = .ok () { m with memoryMaps := t } ∧
      ∀ q, t.get? q =
        if ∃ a ∈ pageStarts m.pageSize (MemoryMap.base (m.objs r)) (MemoryMap.limit (m.objs r)),
            m.page a = q
        then some r else m.memoryMaps.get? q := by
  have halign : ((MemoryMap.base (m.objs r) >>> m.pageShift) <<< m.pageShift) =
      MemoryMap.base (m.objs r) := by
    rw [Nat.shiftRight_eq_div_pow, Nat.shiftLeft_eq, Nat.div_mul_cancel h]
  obtain ⟨t, ht, hget⟩ := foldl_setPage r
    (pageStarts m.pageSize (MemoryMap.base (m.objs r)) (MemoryMap.limit (m.objs r))) m
  refine ⟨t, ?_, hget⟩
  rw [addMap, run_get_bind]
  simp only [halign, beq_self_eq_true, pyAssert, if_true]
  rw [run_bind_ok (run_pure _ _), run_modify, ht]

/-! ## bytes in range -/

/-- A memory over core maps. -/
abbrev Core := Memory CoreMap Unit

/-- The byte the memory holds for an address, `0` where nothing is mapped. -/
def byteAt (m : Core) (a : Nat) : Byte :=
  ((m.resolve a).map fun r => (m.objs r).byteAt a).getD 0

/-- The address lies in the range of the object `r` its page resolves to. -/
structure InRange (m : Core) (a r : Nat) (p : PermissionedMemoryMap) : Prop where
  resolves : m.resolve a = some r
  range : (m.objs r).range? = some p
  base_le : p.base ≤ a
  lt_limit : a < p.limit

/-- The address lies in the range of an array map, the one its page resolves to. -/
structure Backed (m : Core) (a r : Nat) (arr : ArrayMemoryMap) : Prop where
  resolves : m.resolve a = some r
  isArray : m.objs r = .array arr
  base_le : arr.base ≤ a
  lt_limit : a < arr.limit

theorem Backed.inRange {m : Core} {a r : Nat} {arr : ArrayMemoryMap} (h : m.Backed a r arr) :
    m.InRange a r arr.toPermissionedMemoryMap :=
  ⟨h.resolves, by rw [h.isArray]; rfl, h.base_le, h.lt_limit⟩

theorem Backed.byteAt_eq {m : Core} {a r : Nat} {arr : ArrayMemoryMap} (h : m.Backed a r arr) :
    m.byteAt a = arr.byteAt a := by
  rw [byteAt, h.resolves, Option.map_some, h.isArray]
  rfl

/-! ## loads -/

theorem loadEach_of_backed {m : Core} {addr : Nat} (k : Nat) :
    ∀ i, (∀ j, i ≤ j → j < i + k → ∃ r arr, m.Backed (addr + j) r arr) →
      loadEach addr i k m = .ok ((List.range' i k).map fun j => m.byteAt (addr + j)) m := by
  induction k with
  | zero => exact fun i _ => rfl
  | succ k ih =>
      intro i hb
      obtain ⟨r, arr, hi⟩ := hb i (Nat.le_refl i) (by omega)
      have hload : invoke r (MemoryMap.loadBytes (addr + i) 1) m =
          .ok [m.byteAt (addr + i)] m := by
        have := CoreMap.load_array (n := 1) (.loadBytes 1 (addr + i)) m.shared hi.base_le
          (by have := hi.lt_limit; omega)
        simp only [invoke, hi.isArray, MemoryMap.loadBytes, this]
        simp [← hi.isArray, hi.byteAt_eq]
      have hrest := ih (i + 1) fun j h1 h2 => hb j (by omega) (by omega)
      rw [loadEach, run_bind_ok (findMap_of_resolve hi.resolves), run_bind_ok hload]
      simp only [List.range'_succ, List.map_cons]
      rw [run_bind_ok hrest]
      rfl

/-- **Loads**: a load of array-backed bytes returns them. -/
theorem load_ok {m : Core} {addr n : Nat} (hb : ∀ j < n, ∃ r arr, m.Backed (addr + j) r arr) :
    load addr n m = .ok ((List.range n).map fun j => m.byteAt (addr + j)) m := by
  have hR : ∀ j < n, m.resolve (addr + j) = some ((m.resolve (addr + j)).getD 0) := by
    intro j hj
    obtain ⟨r, arr, h⟩ := hb j hj
    rw [h.resolves, Option.getD_some]
  obtain ⟨b, hu, hone⟩ := isUnit_of_resolve hR
  rw [load, run_bind_ok hu]
  cases b with
  | false =>
      rw [List.range_eq_range']
      exact loadEach_of_backed n 0 fun j _ h2 => hb j (by omega)
  | true =>
      obtain ⟨hn, hsame⟩ := hone rfl
      have hpos : 0 < n := by
        simp only [List.mem_cons, List.not_mem_nil, or_false] at hn
        omega
      obtain ⟨r, arr, h0⟩ := hb 0 hpos
      rw [Nat.add_zero] at h0
      -- all bytes lie in the one array the first one resolves to
      have hall : ∀ j < n, m.Backed (addr + j) r arr := by
        intro j hj
        obtain ⟨r', arr', h⟩ := hb j hj
        have hr : r' = r := by
          have := hsame j hj
          rw [h.resolves, Nat.add_zero, h0.resolves] at this
          exact this
        subst hr
        obtain rfl : arr' = arr := by
          have := h.isArray.symm.trans h0.isArray
          exact CoreMap.array.inj this
        exact h
      have hlimit : addr + n ≤ arr.limit := by
        have := (hall (n - 1) (by omega)).lt_limit
        omega
      have hload : ∀ fault, invoke r (CoreMap.load fault (·.loadBytes addr n)) m =
          .ok ((List.range n).map fun j => m.byteAt (addr + j)) m := by
        intro fault
        have hbytes : ((List.range n).map fun j => arr.byteAt (addr + j)) =
            (List.range n).map fun j => m.byteAt (addr + j) := by
          refine List.map_congr_left fun j hj => ?_
          rw [(hall j (List.mem_range.mp hj)).byteAt_eq]
        simp only [invoke, h0.isArray, CoreMap.load_array fault m.shared h0.base_le hlimit, hbytes]
        simp [← h0.isArray]
      simp only [if_true, run_bind_ok (findMap_of_resolve h0.resolves)]
      simp only [List.mem_cons, List.not_mem_nil, or_false] at hn
      rcases hn with rfl | rfl | rfl | rfl
      · exact hload (.loadUnit 1 addr)
      · exact hload (.loadUnit 2 addr)
      · exact hload (.loadUnit 4 addr)
      · exact hload (.loadUnit 8 addr)

/-! ## what a store may change -/

/-- Two memories with the same page table over objects of the same classes, ranges and
permissions: they differ at most in the bytes of array maps. -/
structure SameLayout (m m' : Core) : Prop where
  addressSize : m'.addressSize = m.addressSize
  pageShift : m'.pageShift = m.pageShift
  memoryMaps : m'.memoryMaps = m.memoryMaps
  numObjs : m'.numObjs = m.numObjs
  range : ∀ r, (m'.objs r).range? = (m.objs r).range?
  isArray : ∀ r, (m'.objs r).isArray = (m.objs r).isArray

theorem SameLayout.refl (m : Core) : SameLayout m m :=
  ⟨rfl, rfl, rfl, rfl, fun _ => rfl, fun _ => rfl⟩

theorem SameLayout.symm {m m' : Core} (h : SameLayout m m') : SameLayout m' m :=
  ⟨h.addressSize.symm, h.pageShift.symm, h.memoryMaps.symm, h.numObjs.symm,
    fun r => (h.range r).symm, fun r => (h.isArray r).symm⟩

theorem SameLayout.trans {m₁ m₂ m₃ : Core} (h : SameLayout m₁ m₂) (h' : SameLayout m₂ m₃) :
    SameLayout m₁ m₃ where
  addressSize := h'.addressSize.trans h.addressSize
  pageShift := h'.pageShift.trans h.pageShift
  memoryMaps := h'.memoryMaps.trans h.memoryMaps
  numObjs := h'.numObjs.trans h.numObjs
  range r := (h'.range r).trans (h.range r)
  isArray r := (h'.isArray r).trans (h.isArray r)

theorem SameLayout.resolve {m m' : Core} (h : SameLayout m m') (a : Nat) :
    m'.resolve a = m.resolve a := by
  simp only [Memory.resolve, h.memoryMaps, page, addressMask, h.addressSize, h.pageShift]

theorem InRange.of_sameLayout {m m' : Core} {a r : Nat} {p : PermissionedMemoryMap}
    (h : m.InRange a r p) (hs : SameLayout m m') : m'.InRange a r p :=
  ⟨by rw [hs.resolve, h.resolves], by rw [hs.range, h.range], h.base_le, h.lt_limit⟩

theorem Backed.of_sameLayout {m m' : Core} {a r : Nat} {arr : ArrayMemoryMap}
    (h : m.Backed a r arr) (hs : SameLayout m m') : ∃ arr', m'.Backed a r arr' := by
  obtain ⟨arr', ha⟩ := CoreMap.isArray_iff.mp
    ((hs.isArray r).trans (CoreMap.isArray_iff.mpr ⟨arr, h.isArray⟩))
  have hp : arr'.toPermissionedMemoryMap = arr.toPermissionedMemoryMap := by
    have := hs.range r
    rw [ha, h.isArray] at this
    exact Option.some.inj this
  refine ⟨arr', by rw [hs.resolve, h.resolves], ha, ?_, ?_⟩
  · rw [hp]; exact h.base_le
  · rw [hp]; exact h.lt_limit

/-- From `m` to `m'` only bytes of `[addr, addr + n)` changed, each in the object its page
resolves to. -/
structure Touches (m m' : Core) (addr n : Nat) : Prop where
  layout : SameLayout m m'
  byteAt : ∀ r p, (m.objs r).range? = some p → ∀ a, p.base ≤ a →
    (m'.objs r).byteAt a ≠ (m.objs r).byteAt a →
      addr ≤ a ∧ a < addr + n ∧ m.resolve a = some r

theorem Touches.refl (m : Core) (addr n : Nat) : Touches m m addr n :=
  ⟨SameLayout.refl m, fun _ _ _ _ _ h => absurd rfl h⟩

/-- Touching one byte and then the ones after it. -/
theorem Touches.append {m₁ m₂ m₃ : Core} {addr k : Nat} (h : Touches m₁ m₂ addr 1)
    (h' : Touches m₂ m₃ (addr + 1) k) : Touches m₁ m₃ addr (k + 1) where
  layout := h.layout.trans h'.layout
  byteAt r p hp a ha hne := by
    by_cases h2 : (m₂.objs r).byteAt a = (m₁.objs r).byteAt a
    · have := h'.byteAt r p (by rw [h.layout.range, hp]) a ha (by rw [h2]; exact hne)
      rw [h.layout.resolve] at this
      exact ⟨by omega, by omega, this.2.2⟩
    · have := h.byteAt r p hp a ha h2
      exact ⟨this.1, by omega, this.2.2⟩

/-- Replacing the object `r` by one that differs from it in the datum's bytes. -/
theorem touches_update {m : Core} {r addr n : Nat} {o : CoreMap} {u : Unit}
    (ht : CoreMap.Touched (m.objs r) o addr n)
    (hr : ∀ a, addr ≤ a → a < addr + n → m.resolve a = some r) :
    Touches m { m with objs := Function.update m.objs r o, shared := u } addr n := by
  refine ⟨⟨rfl, rfl, rfl, rfl, fun q => ?_, fun q => ?_⟩, fun q p hp a ha hne => ?_⟩
  · by_cases h : q = r
    · subst h; simpa using ht.range
    · simp [Function.update_of_ne h]
  · by_cases h : q = r
    · subst h; simpa using ht.isArray
    · simp [Function.update_of_ne h]
  · by_cases h : q = r
    · subst h
      by_cases hin : addr ≤ a ∧ a < addr + n
      · exact ⟨hin.1, hin.2, hr a hin.1 hin.2⟩
      · simp only [Function.update_self] at hne
        exact absurd (ht.byteAt p hp a ha hin) hne
    · simp [Function.update_of_ne h] at hne

/-- A store method of the object `r`, when all bytes of the datum are its own. -/
theorem invoke_store_touches {m : Core} {r addr : Nat} {data : List Byte}
    {p : PermissionedMemoryMap} (fault : AccessFault) (hp : (m.objs r).range? = some p) (hb : p.base ≤ addr)
    (hl : addr + data.length ≤ p.limit)
    (hr : ∀ a, addr ≤ a → a < addr + data.length → m.resolve a = some r) :
    Meets (fun _ m' => Touches m m' addr data.length) (fun _ m' => Touches m m' addr data.length)
      (invoke r (CoreMap.store fault (·.storeBytes addr data)) m) := by
  have ht := CoreMap.store_touched fault m.shared hp hb hl
  cases hrun : CoreMap.store fault (·.storeBytes addr data) (m.objs r, m.shared) with
  | ok x s =>
      rw [hrun] at ht
      simp only [invoke, hrun]
      exact touches_update ht hr
  | error e s =>
      rw [hrun] at ht
      simp only [invoke, hrun]
      exact touches_update ht hr

/-- The byte-by-byte store, over bytes in range. -/
theorem storeEach_touches (data : List Byte) :
    ∀ (m : Core) (addr i : Nat), (∀ j < data.length, ∃ r p, m.InRange (addr + (i + j)) r p) →
      Meets (fun _ m' => Touches m m' (addr + i) data.length)
        (fun _ m' => Touches m m' (addr + i) data.length) (storeEach addr i data m) := by
  induction data with
  | nil => exact fun m addr i _ => Touches.refl m _ _
  | cons b data ih =>
      intro m addr i hR
      obtain ⟨r, p, h0⟩ := hR 0 (by simp)
      rw [Nat.add_zero] at h0
      have hlimit : addr + i + [b].length ≤ p.limit := by
        have := h0.lt_limit
        simp only [List.length_singleton]
        omega
      have hfirst := invoke_store_touches (.storeBytes 1 (addr + i)) h0.range h0.base_le hlimit
        (fun a h1 h2 => by
          simp only [List.length_singleton] at h2
          rw [show a = addr + i by omega, h0.resolves])
      rw [storeEach, run_bind_ok (findMap_of_resolve h0.resolves)]
      change Meets _ _ (((invoke r (CoreMap.store (.storeBytes 1 (addr + i)) (·.storeBytes (addr + i) [b]))) >>=
        fun _ => storeEach addr (i + 1) data) m)
      cases hrun : invoke r (CoreMap.store (.storeBytes 1 (addr + i)) (·.storeBytes (addr + i) [b])) m with
      | error e m₁ =>
          rw [hrun] at hfirst
          rw [run_bind_error hrun]
          have h1 : Touches m m₁ (addr + i) 1 := hfirst
          exact ⟨h1.layout, fun q pq hq a ha hne =>
            have := h1.byteAt q pq hq a ha hne
            ⟨this.1, by simp only [List.length_cons]; omega, this.2.2⟩⟩
      | ok x m₁ =>
          rw [hrun] at hfirst
          rw [run_bind_ok hrun]
          have h1 : Touches m m₁ (addr + i) 1 := hfirst
          have hrest := ih m₁ addr (i + 1) fun j hj => by
            obtain ⟨r', p', h'⟩ := hR (j + 1) (by simp only [List.length_cons]; omega)
            exact ⟨r', p', by
              rw [show i + 1 + j = i + (j + 1) by omega]
              exact h'.of_sameLayout h1.layout⟩
          cases hrun' : storeEach addr (i + 1) data m₁ with
          | ok y m₂ => rw [hrun'] at hrest; exact h1.append hrest
          | error e m₂ => rw [hrun'] at hrest; exact h1.append hrest

/-- One object holds all bytes of a unit access. -/
theorem resolve_unit {m : Core} {addr n r : Nat} {R : Nat → Nat}
    (hR : ∀ j < n, m.resolve (addr + j) = some (R j)) (hsame : ∀ j < n, R j = R 0)
    (h0 : m.resolve addr = some r) {a : Nat} (h1 : addr ≤ a) (h2 : a < addr + n) :
    m.resolve a = some r := by
  have h := hR (a - addr) (by omega)
  have h0' := hR 0 (by omega)
  rw [show addr + (a - addr) = a by omega, hsame (a - addr) (by omega)] at h
  rw [Nat.add_zero, h0] at h0'
  rw [h, ← h0']

/-- **Stores, the frame**: a store to bytes in range touches no other byte, however it ends. -/
theorem store_touches {m : Core} {addr : Nat} {data : List Byte}
    (hR : ∀ j < data.length, ∃ r p, m.InRange (addr + j) r p) :
    Meets (fun _ m' => Touches m m' addr data.length) (fun _ m' => Touches m m' addr data.length)
      (store addr data m) := by
  have hres : ∀ j < data.length, m.resolve (addr + j) =
      some ((m.resolve (addr + j)).getD 0) := by
    intro j hj
    obtain ⟨r, p, h⟩ := hR j hj
    rw [h.resolves, Option.getD_some]
  obtain ⟨b, hu, hone⟩ := isUnit_of_resolve hres
  rw [store, run_bind_ok hu]
  cases b with
  | false =>
      simpa using storeEach_touches data m addr 0 (by simpa using hR)
  | true =>
      obtain ⟨hn, hsame⟩ := hone rfl
      simp only [List.mem_cons, List.not_mem_nil, or_false] at hn
      obtain ⟨r, p, h0⟩ := hR 0 (by omega)
      rw [Nat.add_zero] at h0
      have hr : ∀ a, addr ≤ a → a < addr + data.length → m.resolve a = some r :=
        fun a h1 h2 => resolve_unit hres hsame h0.resolves h1 h2
      have hlimit : addr + data.length ≤ p.limit := by
        obtain ⟨r', p', h⟩ := hR (data.length - 1) (by omega)
        have hr' := hr (addr + (data.length - 1)) (by omega) (by omega)
        rw [h.resolves] at hr'
        obtain rfl : r' = r := Option.some.inj hr'
        have hp := h.range
        rw [h0.range] at hp
        obtain rfl : p = p' := Option.some.inj hp
        have := h.lt_limit
        omega
      have hm : ∀ fault, Meets (fun _ m' => Touches m m' addr data.length)
          (fun _ m' => Touches m m' addr data.length)
          (invoke r (CoreMap.store fault (·.storeBytes addr data)) m) :=
        fun fault => invoke_store_touches fault h0.range h0.base_le hlimit hr
      obtain ⟨s1, s2, s4, s8⟩ := CoreMap.storeUnit_eq addr data
      simp only [if_true, run_bind_ok (findMap_of_resolve h0.resolves)]
      rcases hn with h | h | h | h
      · rw [if_pos h.symm, s1 h]; exact hm (.storeUnit 1 addr)
      · rw [if_neg (by omega), if_pos h.symm, s2 h]; exact hm (.storeUnit 2 addr)
      · rw [if_neg (by omega), if_neg (by omega), if_pos h.symm, s4 h]; exact hm (.storeUnit 4 addr)
      · rw [if_neg (by omega), if_neg (by omega), if_neg (by omega), s8 h]; exact hm (.storeUnit 8 addr)

/-! ## stores to array maps -/

/-- From `m` to `m'` exactly the datum's bytes were replaced, each in the object its page
resolves to. -/
structure Stored (m m' : Core) (addr : Nat) (data : List Byte) : Prop where
  layout : SameLayout m m'
  byteAt : ∀ r p, (m.objs r).range? = some p → ∀ a, p.base ≤ a →
    (m'.objs r).byteAt a =
      if addr ≤ a ∧ a < addr + data.length ∧ m.resolve a = some r then data.getD (a - addr) 0
      else (m.objs r).byteAt a

theorem Stored.nil (m : Core) (addr : Nat) : Stored m m addr [] :=
  ⟨SameLayout.refl m, fun r p _ a _ => by rw [if_neg (by simp only [List.length_nil]; omega)]⟩

/-- Storing one byte and then the ones after it. -/
theorem Stored.append {m₁ m₂ m₃ : Core} {addr : Nat} {b : Byte} {data : List Byte}
    (h : Stored m₁ m₂ addr [b]) (h' : Stored m₂ m₃ (addr + 1) data) :
    Stored m₁ m₃ addr (b :: data) where
  layout := h.layout.trans h'.layout
  byteAt r p hp a ha := by
    rw [h'.byteAt r p (by rw [h.layout.range, hp]) a ha, h.byteAt r p hp a ha, h.layout.resolve]
    simp only [List.length_cons, List.length_nil]
    by_cases hr : m₁.resolve a = some r
    · by_cases h1 : a = addr
      · rw [if_neg (by omega), if_pos ⟨by omega, by omega, hr⟩, if_pos ⟨by omega, by omega, hr⟩,
          h1, Nat.sub_self]
        rfl
      · by_cases h2 : addr + 1 ≤ a ∧ a < addr + 1 + data.length
        · rw [if_pos ⟨h2.1, h2.2, hr⟩, if_pos ⟨by omega, by omega, hr⟩,
            show a - addr = (a - (addr + 1)) + 1 by omega, List.getD_cons_succ]
        · rw [if_neg fun hc => h2 ⟨hc.1, hc.2.1⟩, if_neg (by omega), if_neg (by omega)]
    · rw [if_neg fun hc => hr hc.2.2, if_neg fun hc => hr hc.2.2, if_neg fun hc => hr hc.2.2]

/-- A store method of an array map, when all bytes of the datum are its own. -/
theorem invoke_store_ok {m : Core} {r addr : Nat} {data : List Byte} {arr : ArrayMemoryMap}
    (fault : AccessFault) (ha : m.objs r = .array arr) (hb : arr.base ≤ addr) (hl : addr + data.length ≤ arr.limit)
    (hr : ∀ a, addr ≤ a → a < addr + data.length → m.resolve a = some r) :
    ∃ m', invoke r (CoreMap.store fault (·.storeBytes addr data)) m = .ok () m' ∧
      Stored m m' addr data := by
  have hrun := CoreMap.store_array fault m.shared hb hl
  have ht := invoke_store_touches fault (by rw [ha]; rfl) hb hl hr
  have heq : invoke r (CoreMap.store fault (·.storeBytes addr data)) m =
      .ok () { m with
        objs := Function.update m.objs r (.array (arr.storeBytes addr data).1) } := by
    simp only [invoke, ha, hrun]
  rw [heq] at ht
  refine ⟨_, heq, ht.layout, fun q p hp a hpa => ?_⟩
  · by_cases hq : q = r
    · subst hq
      rw [ha] at hp ⊢
      obtain rfl : arr.toPermissionedMemoryMap = p := Option.some.inj hp
      simp only [Function.update_self, CoreMap.byteAt_array,
        ArrayMemoryMap.byteAt_storeBytes hb hl hpa]
      by_cases hin : addr ≤ a ∧ a < addr + data.length
      · rw [if_pos hin, if_pos ⟨hin.1, hin.2, hr a hin.1 hin.2⟩]
      · rw [if_neg hin, if_neg fun hc => hin ⟨hc.1, hc.2.1⟩]
    · have hne : ¬(addr ≤ a ∧ a < addr + data.length ∧ m.resolve a = some q) := by
        rintro ⟨h1, h2, h3⟩
        rw [hr a h1 h2] at h3
        exact hq (Option.some.inj h3).symm
      simp only [Function.update_of_ne hq, if_neg hne]

theorem storeEach_ok (data : List Byte) :
    ∀ (m : Core) (addr i : Nat), (∀ j < data.length, ∃ r arr, m.Backed (addr + (i + j)) r arr) →
      ∃ m', storeEach addr i data m = .ok () m' ∧ Stored m m' (addr + i) data := by
  induction data with
  | nil => exact fun m addr i _ => ⟨m, rfl, Stored.nil m _⟩
  | cons b data ih =>
      intro m addr i hb
      obtain ⟨r, arr, h0⟩ := hb 0 (by simp)
      rw [Nat.add_zero] at h0
      have hlimit : addr + i + [b].length ≤ arr.limit := by
        have := h0.lt_limit
        simp only [List.length_singleton]
        omega
      obtain ⟨m₁, hrun, hst⟩ := invoke_store_ok (.storeBytes 1 (addr + i)) h0.isArray h0.base_le hlimit
        (fun a h1 h2 => by
          simp only [List.length_singleton] at h2
          rw [show a = addr + i by omega, h0.resolves])
      obtain ⟨m₂, hrun', hst'⟩ := ih m₁ addr (i + 1) fun j hj => by
        obtain ⟨r', arr', h'⟩ := hb (j + 1) (by simp only [List.length_cons]; omega)
        rw [show i + 1 + j = i + (j + 1) by omega]
        exact ⟨r', h'.of_sameLayout hst.layout⟩
      refine ⟨m₂, ?_, hst.append hst'⟩
      rw [storeEach, run_bind_ok (findMap_of_resolve h0.resolves)]
      exact (run_bind_ok hrun).trans hrun'

/-- **Stores**: a store to array-backed bytes finishes and replaces exactly them. -/
theorem store_ok {m : Core} {addr : Nat} {data : List Byte}
    (hb : ∀ j < data.length, ∃ r arr, m.Backed (addr + j) r arr) :
    ∃ m', store addr data m = .ok () m' ∧ Stored m m' addr data := by
  have hres : ∀ j < data.length, m.resolve (addr + j) =
      some ((m.resolve (addr + j)).getD 0) := by
    intro j hj
    obtain ⟨r, arr, h⟩ := hb j hj
    rw [h.resolves, Option.getD_some]
  obtain ⟨b, hu, hone⟩ := isUnit_of_resolve hres
  rw [store, run_bind_ok hu]
  cases b with
  | false =>
      simpa using storeEach_ok data m addr 0 (by simpa using hb)
  | true =>
      obtain ⟨hn, hsame⟩ := hone rfl
      simp only [List.mem_cons, List.not_mem_nil, or_false] at hn
      obtain ⟨r, arr, h0⟩ := hb 0 (by omega)
      rw [Nat.add_zero] at h0
      have hr : ∀ a, addr ≤ a → a < addr + data.length → m.resolve a = some r :=
        fun a h1 h2 => resolve_unit hres hsame h0.resolves h1 h2
      have hlimit : addr + data.length ≤ arr.limit := by
        obtain ⟨r', arr', h⟩ := hb (data.length - 1) (by omega)
        have hr' := hr (addr + (data.length - 1)) (by omega) (by omega)
        rw [h.resolves] at hr'
        obtain rfl : r' = r := Option.some.inj hr'
        have ha := h.isArray
        rw [h0.isArray] at ha
        obtain rfl : arr = arr' := CoreMap.array.inj ha
        have := h.lt_limit
        omega
      have hm : ∀ fault, ∃ m', invoke r (CoreMap.store fault (·.storeBytes addr data)) m = .ok () m' ∧
          Stored m m' addr data :=
        fun fault => invoke_store_ok fault h0.isArray h0.base_le hlimit hr
      obtain ⟨s1, s2, s4, s8⟩ := CoreMap.storeUnit_eq addr data
      simp only [if_true, run_bind_ok (findMap_of_resolve h0.resolves)]
      rcases hn with h | h | h | h
      · rw [if_pos h.symm, s1 h]; exact hm (.storeUnit 1 addr)
      · rw [if_neg (by omega), if_pos h.symm, s2 h]; exact hm (.storeUnit 2 addr)
      · rw [if_neg (by omega), if_neg (by omega), if_pos h.symm, s4 h]; exact hm (.storeUnit 4 addr)
      · rw [if_neg (by omega), if_neg (by omega), if_neg (by omega), s8 h]; exact hm (.storeUnit 8 addr)

end Memory

end Microx
