import Microx.Memory.Access

/-!
# Microx.Memory.Confined

What probing and permitted storing do to a `Memory` of core maps, over any
sequence of them.

A probe may enter a default map for a page that was absent, and default maps
grant nothing and hold nothing.  So whatever is probed, a byte that the memory
started with changes only where a store was permitted.
-/

namespace Microx

namespace Memory

open Hoare

/-- The page table refers to objects that exist. -/
def Closed (m : Core) : Prop := ∀ page r, m.memoryMaps.get? page = some r → r < m.numObjs

/-- The byte at an address may be written: its page resolves to a map that grants it. -/
def Writable (m : Core) (a : Nat) : Prop :=
  ∃ r, m.resolve a = some r ∧ (m.objs r).canWrite a = true

/-- From `m` to `m'` pages may have got default maps, and bytes changed only where `m` grants
writing. -/
structure Confined (m m' : Core) : Prop where
  addressSize : m'.addressSize = m.addressSize
  pageShift : m'.pageShift = m.pageShift
  numObjs : m.numObjs ≤ m'.numObjs
  mapped : ∀ page r, m.memoryMaps.get? page = some r → m'.memoryMaps.get? page = some r
  entered : ∀ page r, m'.memoryMaps.get? page = some r →
    m.memoryMaps.get? page = some r ∨ m.numObjs ≤ r
  range : ∀ r < m.numObjs, (m'.objs r).range? = (m.objs r).range?
  byteAt : ∀ r < m.numObjs, ∀ p, (m.objs r).range? = some p → ∀ a, p.base ≤ a →
    (m'.objs r).byteAt a ≠ (m.objs r).byteAt a →
      m.resolve a = some r ∧ (m.objs r).canWrite a = true

namespace Confined

theorem refl (m : Core) : Confined m m where
  addressSize := rfl
  pageShift := rfl
  numObjs := Nat.le_refl _
  mapped _ _ h := h
  entered _ _ h := .inl h
  range _ _ := rfl
  byteAt _ _ _ _ _ _ h := absurd rfl h

theorem page {m m' : Core} (h : Confined m m') (a : Nat) : m'.page a = m.page a := by
  simp only [Memory.page, addressMask, h.addressSize, h.pageShift]

theorem resolve {m m' : Core} (h : Confined m m') {a r : Nat} (hr : m.resolve a = some r) :
    m'.resolve a = some r := by
  rw [Memory.resolve, h.page]
  exact h.mapped _ _ hr

/-- A permission is not lost, and one that an object had before is not gained. -/
theorem canWrite {m m' : Core} (h : Confined m m') {r : Nat} (hr : r < m.numObjs) (a : Nat) :
    (m'.objs r).canWrite a = (m.objs r).canWrite a := by
  simp only [CoreMap.canWrite, h.range r hr]

theorem trans {m₁ m₂ m₃ : Core} (h : Confined m₁ m₂) (h' : Confined m₂ m₃) :
    Confined m₁ m₃ where
  addressSize := h'.addressSize.trans h.addressSize
  pageShift := h'.pageShift.trans h.pageShift
  numObjs := Nat.le_trans h.numObjs h'.numObjs
  mapped page r hr := h'.mapped page r (h.mapped page r hr)
  entered page r hr := by
    cases h'.entered page r hr with
    | inl h2 => exact h.entered page r h2
    | inr h2 => exact .inr (Nat.le_trans h.numObjs h2)
  range r hr := (h'.range r (Nat.lt_of_lt_of_le hr h.numObjs)).trans (h.range r hr)
  byteAt r hr p hp a ha hne := by
    by_cases h2 : (m₂.objs r).byteAt a = (m₁.objs r).byteAt a
    · have hr2 := Nat.lt_of_lt_of_le hr h.numObjs
      have hlater := h'.byteAt r hr2 p (by rw [h.range r hr, hp]) a ha (by rw [h2]; exact hne)
      refine ⟨?_, by rw [← h.canWrite hr, hlater.2]⟩
      have hget : m₂.memoryMaps.get? (m₂.page a) = some r := hlater.1
      rw [h.page] at hget
      cases h.entered _ _ hget with
      | inl h1 => exact h1
      | inr h1 => omega
    · exact h.byteAt r hr p hp a ha h2

end Confined

theorem Writable.of_confined {m m' : Core} {a : Nat} (hm : Closed m) (h : Confined m m')
    (hw : Writable m a) : Writable m' a := by
  obtain ⟨r, hr, hperm⟩ := hw
  have hlt : r < m.numObjs := hm _ _ hr
  exact ⟨r, h.resolve hr, by rw [h.canWrite hlt, hperm]⟩

/-! ## assertions that survive -/

/-- An assertion that survives whatever is confined. -/
def Stable (P : Core → Prop) : Prop :=
  ∀ m m', Closed m → Confined m m' → P m → P m'

theorem stable_confined (m₀ : Core) : Stable (Confined m₀) := fun _ _ _ h hP => hP.trans h

theorem stable_writable (a : Nat) : Stable (Writable · a) := fun _ _ hm h hP => hP.of_confined hm h

theorem Stable.and {P P' : Core → Prop} (h : Stable P) (h' : Stable P') :
    Stable fun m => P m ∧ P' m :=
  fun m m' hm hc hP => ⟨h m m' hm hc hP.1, h' m m' hm hc hP.2⟩

theorem Stable.forall_lt {n : Nat} {P : Nat → Core → Prop} (h : ∀ i < n, Stable (P i)) :
    Stable fun m => ∀ i < n, P i m :=
  fun m m' hm hc hP i hi => h i hi m m' hm hc (hP i hi)

/-- Both ways out of a method keep the page table closed and an assertion. -/
abbrev Survives {α : Type} (P : Core → Prop) (f : EStateM PyExc Core α) : Prop :=
  Triple (fun m => Closed m ∧ P m) f (fun _ m => Closed m ∧ P m) fun _ m => Closed m ∧ P m

/-! ## probing -/

theorem findMap_confined {m : Core} (hm : Closed m) (a : Nat) :
    ∃ r m', findMap a m = .ok r m' ∧ Closed m' ∧ Confined m m' ∧ m'.resolve a = some r := by
  cases h : m.resolve a with
  | some r => exact ⟨r, m, findMap_of_resolve h, hm, Confined.refl m, h⟩
  | none =>
      refine ⟨_, _, findMap_absent h, ?_, ?_, by simp [resolve, page, addressMask]⟩
      · intro page r hr
        simp only [PyDict.get?_set] at hr
        split at hr
        · cases hr
          exact Nat.lt_succ_self _
        · exact Nat.lt_succ_of_lt (hm _ _ hr)
      · have hother {r : Nat} (hr : r < m.numObjs) :
            Function.update m.objs m.numObjs MemoryMap.new r = m.objs r :=
          Function.update_of_ne (Nat.ne_of_lt hr) _ _
        refine ⟨rfl, rfl, Nat.le_succ _, fun page r hr => ?_, fun page r hr => ?_,
          fun r hr => ?_, fun r hr p hp b hb hne => ?_⟩
        · have hne : page ≠ m.page a := by
            rintro rfl
            rw [show m.memoryMaps.get? (m.page a) = none from h] at hr
            contradiction
          simpa [hne] using hr
        · simp only [PyDict.get?_set] at hr
          split at hr
          · cases hr
            exact .inr (Nat.le_refl _)
          · exact .inl hr
        · simp only [hother hr]
        · simp only [hother hr] at hne
          exact absurd rfl hne

section

variable {P : Core → Prop} (hP : Stable P)

include hP

theorem findMap_survives (a : Nat) :
    Triple (fun m => Closed m ∧ P m) (findMap a)
      (fun r m => (Closed m ∧ P m) ∧ m.resolve a = some r) fun _ m => Closed m ∧ P m := by
  rintro m ⟨hm, hPm⟩
  obtain ⟨r, m', hrun, hm', hc, hres⟩ := findMap_confined hm a
  rw [hrun]
  exact ⟨⟨hm', hP m m' hm hc hPm⟩, hres⟩

theorem findMap_keeps (a : Nat) : Survives P (findMap a : EStateM PyExc Core Nat) :=
  (findMap_survives hP a).post fun _ _ h => h.1

theorem crossesFrom_survives (mmap addr k : Nat) :
    ∀ i, Survives P (crossesFrom mmap addr i k : EStateM PyExc Core Bool) := by
  induction k with
  | zero => exact fun _ => Triple.pure fun _ h => h
  | succ k ih =>
      intro i
      refine Triple.bind (findMap_keeps hP (addr + i)) fun r => ?_
      exact Triple.ite (fun _ => Triple.pure fun _ h => h) fun _ => ih (i + 1)

theorem isUnit_survives (addr n : Nat) : Survives P (isUnit addr n : EStateM PyExc Core Bool) := by
  refine Triple.ite (fun _ => ?_) fun _ => Triple.pure fun _ h => h
  refine Triple.bind ?_ fun b => Triple.pure fun _ h => h
  exact Triple.bind (findMap_keeps hP addr) fun r => crossesFrom_survives hP r addr _ 1

/-- Whether a byte may be written. -/
theorem canWrite_survives (a : Nat) :
    Triple (fun m => Closed m ∧ P m) (canWrite a)
      (fun b m => (Closed m ∧ P m) ∧ (b = true → Writable m a)) fun _ m => Closed m ∧ P m := by
  refine Triple.bind (findMap_survives hP a) fun r => ?_
  intro m hm
  exact ⟨hm.1, fun hb => ⟨r, hm.2, hb⟩⟩

theorem canRead_survives (a : Nat) : Survives P (canRead a : EStateM PyExc Core Bool) :=
  Triple.bind (findMap_keeps hP a) fun _ => fun _ hm => hm

theorem canExecute_survives (a : Nat) : Survives P (canExecute a : EStateM PyExc Core Bool) :=
  Triple.bind (findMap_keeps hP a) fun _ => fun _ hm => hm

/-! ## loading -/

omit hP in
/-- A load method leaves its object as it is. -/
theorem invoke_load_survives (r : Nat) (fault : AccessFault) (f : ArrayMemoryMap → List Byte) :
    Survives P (invoke r (CoreMap.load fault f)) := by
  intro m hm
  have hsame {o : CoreMap} (ho : m.objs r = o) :
      { m with objs := Function.update m.objs r o, shared := m.shared } = m := by
    rw [← ho, Function.update_eq_self]
  cases ho : m.objs r with
  | array arr => simpa only [invoke, CoreMap.load, ho, hsame ho, meets_ok, meets_error] using hm
  | memoryMap => simpa only [invoke, CoreMap.load, ho, hsame ho, meets_ok, meets_error] using hm
  | permissioned p => simpa only [invoke, CoreMap.load, ho, hsame ho, meets_ok, meets_error] using hm

theorem loadEach_survives (addr k : Nat) :
    ∀ i, Survives P (loadEach addr i k : EStateM PyExc Core (List Byte)) := by
  induction k with
  | zero => exact fun _ => Triple.pure fun _ h => h
  | succ k ih =>
      intro i
      refine Triple.bind (findMap_keeps hP (addr + i)) fun r => ?_
      refine Triple.bind (invoke_load_survives r _ _) fun bs => ?_
      cases bs with
      | nil => exact Triple.throw fun _ h => h
      | cons b _ => exact Triple.bind (ih (i + 1)) fun _ => Triple.pure fun _ h => h

/-- A load only probes, however it ends. -/
theorem load_survives (addr n : Nat) :
    Survives P (load addr n : EStateM PyExc Core (List Byte)) := by
  refine Triple.bind (isUnit_survives hP addr n) fun b => Triple.ite (fun _ => ?_) fun _ => ?_
  · refine Triple.bind (findMap_keeps hP addr) fun r => Triple.ite (fun _ => ?_) fun _ => ?_
    · exact invoke_load_survives r _ _
    · refine Triple.ite (fun _ => invoke_load_survives r _ _) fun _ => ?_
      exact Triple.ite (fun _ => invoke_load_survives r _ _) fun _ => invoke_load_survives r _ _
  · exact loadEach_survives hP addr n 0

/-! ## storing -/

omit hP in
theorem Writable.inRange {m : Core} {a : Nat} (h : Writable m a) : ∃ r p, m.InRange a r p := by
  obtain ⟨r, hr, hperm⟩ := h
  cases hp : (m.objs r).range? with
  | none => simp [CoreMap.canWrite, hp] at hperm
  | some p =>
      simp only [CoreMap.canWrite, hp, Option.map_some, Option.getD_some,
        PermissionedMemoryMap.canWrite, Bool.and_eq_true] at hperm
      have hc := PermissionedMemoryMap.contains_iff.mp hperm.2
      exact ⟨r, p, hr, hp, hc.1, hc.2⟩

/-- A store to bytes that may be written is confined, however it ends. -/
theorem store_survives {addr : Nat} {data : List Byte} :
    Triple (fun m => (Closed m ∧ P m) ∧ ∀ i < data.length, Writable m (addr + i))
      (store addr data) (fun _ m => Closed m ∧ P m) fun _ m => Closed m ∧ P m := by
  rintro m ⟨⟨hm, hPm⟩, hw⟩
  have hrange : ∀ j < data.length, ∃ r p, m.InRange (addr + j) r p :=
    fun j hj => (hw j hj).inRange
  have htouch := store_touches hrange
  have hafter {m' : Core} (h : Touches m m' addr data.length) : Closed m' ∧ P m' := by
    have hc : Confined m m' := by
      refine ⟨h.layout.addressSize, h.layout.pageShift, Nat.le_of_eq h.layout.numObjs.symm,
        fun page r hr => ?_, fun page r hr => ?_, fun r _ => h.layout.range r, ?_⟩
      · rw [h.layout.memoryMaps, hr]
      · rw [h.layout.memoryMaps] at hr
        exact .inl hr
      · intro r _ p hp a ha hne
        obtain ⟨h1, h2, h3⟩ := h.byteAt r p hp a ha hne
        obtain ⟨r', hr', hperm⟩ := hw (a - addr) (by omega)
        rw [show addr + (a - addr) = a by omega] at hr' hperm
        rw [h3] at hr'
        cases hr'
        exact ⟨h3, hperm⟩
    refine ⟨fun page r hr => ?_, hP m m' hm hc hPm⟩
    rw [h.layout.memoryMaps] at hr
    rw [h.layout.numObjs]
    exact hm page r hr
  cases hrun : store addr data m with
  | ok _ m' => rw [hrun] at htouch; exact hafter htouch
  | error _ m' => rw [hrun] at htouch; exact hafter htouch

end

/-! ## memories filled by `add_map` -/

/-- A memory whose page table was filled by `add_map` with permissioned and array maps. -/
def Filled (m : Core) : Prop :=
  ∃ (m₀ : Core) (rs : List Nat), m₀.memoryMaps = PyDict.empty ∧
    (∀ r ∈ rs, r < m₀.numObjs ∧ (m₀.objs r).range?.isSome) ∧
    (rs.forM addMap : EStateM PyExc Core PUnit) m₀ = .ok ⟨⟩ m

theorem closed_of_filled {m : Core} (h : Filled m) : Closed m := by
  obtain ⟨m₀, rs, hempty, hrs, hrun⟩ := h
  have hadd : Triple (fun m => m.numObjs = m₀.numObjs ∧ Closed m)
      (rs.forM addMap : EStateM PyExc Core PUnit)
      (fun _ m => m.numObjs = m₀.numObjs ∧ Closed m) fun _ _ => True := by
    refine Triple.forM fun r hr => ?_
    refine Triple.read fun m => ?_
    refine Triple.bind ((pyAssert_triple _).conseq (fun _ h => h) (fun _ _ h => h)
      fun _ _ _ => trivial) fun _ => Triple.modify ?_
    rintro m' ⟨hn, hc⟩
    obtain ⟨t, ht, hget⟩ := foldl_setPage r (pageStarts m'.pageSize
      (MemoryMap.base (m.objs r)) (MemoryMap.limit (m.objs r))) m'
    rw [ht]
    refine ⟨hn, fun page q hq => ?_⟩
    simp only [hget] at hq
    split at hq
    · cases hq
      rw [hn]
      exact (hrs r hr).1
    · exact hc page q hq
  have hmeets := hadd m₀ ⟨rfl, fun page r hr => by simp [hempty] at hr⟩
  rw [hrun] at hmeets
  exact hmeets.2

end Memory

end Microx
