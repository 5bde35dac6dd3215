import Microx.Godefroid.Sections
import Microx.Godefroid.PolicyAccess
import Microx.Memory.Looking

/-!
# Microx.Godefroid.InputSpace

Where `GodefroidProcess.__init__` maps the input space: at what `find_hole`
returns.  That is the last page in use, so the input space takes it over
whenever it is mapped at all (`holes_right_iff`).
-/

namespace Microx

open Hoare Memory

/-! ## policy maps and their names -/

namespace PolicyMemoryMap

variable {α : Type}

/-- Both ways out of a method the map has the name `n`. -/
abbrev KeepsName (n : String) (f : PolicyMethod α) : Prop :=
  Triple (fun s => s.1.name = n) f (fun _ s => s.1.name = n) fun _ s => s.1.name = n

variable {n : String}

theorem callInput_name (f : InputMemoryPolicy.PolicyM α) : KeepsName n (callInput f) := by
  intro s hs
  unfold callInput
  cases s.2 with
  | none => exact hs
  | some p =>
      dsimp only
      cases f p with
      | ok a p' => exact hs
      | error e p' => exact hs

theorem readBeforeWrite_name (addr size : Nat) (data : List Byte) :
    KeepsName n (readBeforeWrite addr size data) := by
  refine Triple.read fun s => ?_
  cases s.1.policy with
  | default => exact Triple.pure fun _ h => h
  | input => exact callInput_name _

theorem loadPolicy_name (addr size : Nat) : KeepsName n (loadPolicy addr size) := by
  have hhandle : KeepsName n (handleLoad addr) := by
    refine Triple.read fun s => ?_
    cases s.1.policy with
    | default => exact Triple.pure fun _ h => h
    | input => exact callInput_name _
  have hreplace : KeepsName n (replaceData readBeforeWrite addr size) := by
    refine Triple.read fun s => ?_
    refine (readBeforeWrite_name addr size _).bind fun newData => ?_
    exact (pyAssert_triple _).bind fun _ => Triple.update fun _ h => h
  have hcallback (flags : List PolicyFlags) : KeepsName n (loadCallback flags addr size) :=
    Triple.ite (fun _ => hreplace) fun _ => Triple.pure fun _ h => h
  have hflags (flags : List PolicyFlags) : KeepsName n (setFlags addr flags) :=
    Triple.update fun _ h => h
  refine hhandle.bind fun watched => Triple.ite (fun _ => ?_) fun _ => Triple.pure fun _ h => h
  exact Triple.read fun s => (hcallback _).bind fun _ => hflags _

/-- A load keeps the name of the map. -/
theorem loadBytes_name (addr size : Nat) : KeepsName n (loadBytes addr size) :=
  (loadPolicy_name addr size).bind fun _ => Triple.read fun _ => Triple.pure fun _ h => h

end PolicyMemoryMap

namespace GodefroidMap

/-- `name`. -/
def name : GodefroidMap → String
  | .memoryMap => defaultName
  | .policy m => m.name

theorem onPolicy_name {α : Type} {exc : PyExc} {f : PolicyMemoryMap.PolicyMethod α}
    (hf : ∀ n, PolicyMemoryMap.KeepsName n f) (s : GodefroidMap × Option InputMemoryPolicy) :
    Meets (fun _ s' => some s'.1.name = some s.1.name) (fun _ s' => some s'.1.name = some s.1.name)
      (onPolicy exc f s) := by
  obtain ⟨o, p⟩ := s
  cases o with
  | memoryMap => exact rfl
  | policy m =>
      have h := hf m.name (m, p) rfl
      unfold onPolicy
      dsimp only
      cases hrun : f (m, p) with
      | ok a t | error e t =>
          rw [hrun] at h
          exact congrArg some h

instance : NamedMap GodefroidMap where
  name o := some o.name
  name_new := rfl
  loadByte_name addr := onPolicy_name fun _ => PolicyMemoryMap.loadBytes_name addr 1
  loadWord_name addr := onPolicy_name fun _ => PolicyMemoryMap.loadBytes_name addr 2
  loadDword_name addr := onPolicy_name fun _ => PolicyMemoryMap.loadBytes_name addr 4
  loadQword_name addr := onPolicy_name fun _ => PolicyMemoryMap.loadBytes_name addr 8
  loadBytes_name addr n := onPolicy_name fun _ => PolicyMemoryMap.loadBytes_name addr n

end GodefroidMap

/-! ## `GodefroidProcess.__init__` -/

open Section

/-- `INPUT_SPACE_SIZE`. -/
def inputSpaceSize : Nat := 0x1080000

/-- The part of `GodefroidProcess.__init__` that maps the input space, if there is none yet. -/
def mapInputSpace : EStateM PyExc GodefroidMemory Unit := do
  let m ← get
  match m.findMapsByName "[input_space]" with
  | .error e => throw e
  | .ok foundMaps =>
      if foundMaps = ∅ then
        match m.findHole inputSpaceSize with
        | .error e => throw e
        -- `None` has no hexadecimal format
        | .ok none => throw .typeError
        | .ok (some inputBase) => do
            let _ ← addPolicyMap inputBase (inputBase + inputSpaceSize) ⟨true, true, false⟩
              "[input_space]"

/-- Mapping the input space leaves every mapped page to the map it has. -/
def TakesNothingOver (m : GodefroidMemory) : Prop :=
  ∀ m', mapInputSpace m = .ok () m' →
    ∀ q r, m.memoryMaps.get? q = some r → m'.memoryMaps.get? q = some r

/-- The first page of a range. -/
theorem base_mem_pageStarts {pageSize base limit : Nat} (hsize : 0 < pageSize) (h : base < limit) :
    base ∈ pageStarts pageSize base limit := by
  refine List.mem_map.mpr ⟨0, List.mem_range.mpr (Nat.div_pos (by omega) hsize), by simp⟩

/-- Adding a policy map at a page below `MAX_ADDR` takes the page over. -/
theorem addPolicyMap_takes {m : GodefroidMemory} {last limit : Nat} (flags : MemoryFlags)
    (name : String) (hlast : last < m.maxPage) (hlimit : last <<< m.pageShift < limit) :
    ∃ m', addPolicyMap (last <<< m.pageShift) limit flags name m = .ok m.numObjs m' ∧
      m'.memoryMaps.get? last = some m.numObjs := by
  have hshift : 0 < 2 ^ m.pageShift := Nat.two_pow_pos _
  have haddr : last * 2 ^ m.pageShift < 2 ^ m.addressSize.bits := by
    have hle : last * 2 ^ m.pageShift ≤ 0xFFFF0000 := by
      rw [maxPage, Nat.shiftRight_eq_div_pow] at hlast
      exact (Nat.mul_le_of_le_div _ _ _ (Nat.le_of_lt hlast))
    have hbits : 2 ^ 32 ≤ 2 ^ m.addressSize.bits := by
      refine Nat.pow_le_pow_right (by decide) ?_
      cases m.addressSize <;> decide
    omega
  have hpage : m.page (last <<< m.pageShift) = last := by
    rw [Nat.shiftLeft_eq, page_of_lt m haddr, Nat.mul_div_cancel _ hshift]
  let o : GodefroidMap := .policy
    (PolicyMemoryMap.init (last <<< m.pageShift) limit hlimit flags .default name)
  let m₁ : GodefroidMemory :=
    { m with objs := Function.update m.objs m.numObjs o, numObjs := m.numObjs + 1 }
  have hobj : m₁.objs m.numObjs = o := Function.update_self _ _ _
  have hbase : MemoryMap.base (m₁.objs m.numObjs) = last <<< m.pageShift := by rw [hobj]; rfl
  have hlim : MemoryMap.limit (m₁.objs m.numObjs) = limit := by rw [hobj]; rfl
  have haligned : 2 ^ m₁.pageShift ∣ MemoryMap.base (m₁.objs m.numObjs) := by
    rw [hbase, Nat.shiftLeft_eq]
    exact Nat.dvd_mul_left _ _
  obtain ⟨t, hadd, hget⟩ := addMap_ok haligned
  refine ⟨{ m₁ with memoryMaps := t }, ?_, ?_⟩
  · rw [addPolicyMap, dif_pos hlimit, run_bind_ok (show alloc _ m = .ok m.numObjs m₁ from rfl),
      run_bind_ok hadd]
    rfl
  · have hfirst : ∃ a ∈ pageStarts m₁.pageSize (MemoryMap.base (m₁.objs m.numObjs))
        (MemoryMap.limit (m₁.objs m.numObjs)), m₁.page a = last := by
      rw [hbase, hlim]
      refine ⟨_, base_mem_pageStarts ?_ hlimit, hpage⟩
      rw [pageSize_eq]
      exact hshift
    exact (hget last).trans (if_pos hfirst)

/-- With an input space, or without a hole, nothing is mapped. -/
theorem mapInputSpace_unchanged {m m' : GodefroidMemory}
    (h : m.findMapsByName "[input_space]" ≠ .ok ∅ ∨ m.findHole inputSpaceSize = .ok none)
    (hrun : mapInputSpace m = .ok () m') : m' = m := by
  rw [mapInputSpace, run_get_bind] at hrun
  cases hfound : m.findMapsByName "[input_space]" with
  | error e =>
      rw [hfound] at hrun
      cases hrun
  | ok foundMaps =>
      rw [hfound] at hrun h
      by_cases hempty : foundMaps = ∅
      · have hnone := h.resolve_left fun hne => hne (by rw [hempty])
        simp only [if_pos hempty, hnone] at hrun
        cases hrun
      · simp only [if_neg hempty] at hrun
        cases hrun
        rfl

/-- Without an input space, one is mapped where `find_hole` says. -/
theorem mapInputSpace_takes {m : GodefroidMemory} {last : Nat}
    (hempty : m.findMapsByName "[input_space]" = .ok ∅) (hlast : last < m.maxPage)
    (hhole : m.findHole inputSpaceSize = .ok (some (last <<< m.pageShift))) :
    ∃ m', mapInputSpace m = .ok () m' ∧ m'.memoryMaps.get? last = some m.numObjs := by
  have hlimit : last <<< m.pageShift < last <<< m.pageShift + inputSpaceSize := by
    have : 0 < inputSpaceSize := by decide
    omega
  obtain ⟨m', hadd, hget⟩ :=
    addPolicyMap_takes ⟨true, true, false⟩ "[input_space]" hlast hlimit
  refine ⟨m', ?_, hget⟩
  rw [mapInputSpace, run_get_bind]
  simp only [hempty, hhole, if_true]
  rw [run_bind_ok hadd]
  rfl

/-- **Where `find_hole` is right**: it returns a hole, and the input space takes no mapped page
over, exactly where there is no page left behind the last one and it returns none. -/
theorem holes_right_iff {μ π : Type} (m : Memory μ π) (hm : m.memoryMaps.keys ≠ []) {holeSize : Int}
    (hpos : 0 < holeSize) (g : GodefroidMemory) (hg : g.memoryMaps.keys ≠ [])
    (halloc : g.Allocated) :
    ((∀ a, m.findHole holeSize = .ok (some a) → m.IsHole a holeSize) ↔
        ∃ p ∈ m.memoryMaps.keys, (m.maxPage : Int) - p ≤ m.pagedHole holeSize) ∧
      (TakesNothingOver g ↔ g.findMapsByName "[input_space]" ≠ .ok ∅ ∨
        ∃ p ∈ g.memoryMaps.keys, (g.maxPage : Int) - p ≤ g.pagedHole inputSpaceSize) := by
  refine ⟨findHole_isHole_iff hm hpos, ?_⟩
  have hsize : (0 : Int) < inputSpaceSize := by decide
  obtain ⟨last, hmem, hmax, hlast⟩ := exists_last hg
  have hhole := findHole_eq hsize hlast
  constructor
  · intro h
    by_contra hno
    obtain ⟨hempty, hroom⟩ := not_or.mp hno
    have hroom : g.pagedHole inputSpaceSize < (g.maxPage : Int) - last :=
      Int.not_le.mp fun hle => hroom ⟨last, hmem, hle⟩
    have hpaged := pagedHole_pos (m := g) hsize
    rw [if_pos hroom] at hhole
    obtain ⟨m', hrun, hget⟩ := mapInputSpace_takes (not_not.mp hempty) (by omega) hhole
    obtain ⟨r, hr⟩ := Option.isSome_iff_exists.mp ((PyDict.mem_keys_iff _ last).mp hmem)
    have hkept := h m' hrun last r hr
    rw [hget, Option.some.injEq] at hkept
    have := halloc last r hr
    omega
  · intro h m' hrun q r hr
    have hsame : m' = g := by
      refine mapInputSpace_unchanged (h.imp_right ?_) hrun
      rintro ⟨p, hp, hle⟩
      have := hmax p hp
      rw [hhole, if_neg (by omega)]
    rw [hsame, hr]

/-! ### one page in use -/

/-- A memory of one page, the one at 0x1000. -/
def onePage : GodefroidMemory :=
  { newMemory with
    objs := fun _ => .policy sampleMap
    numObjs := 1
    memoryMaps := PyDict.empty.set 1 0 }

theorem allocated_onePage : onePage.Allocated := by
  intro q r hr
  rw [show onePage.memoryMaps = PyDict.empty.set 1 0 from rfl, PyDict.get?_set] at hr
  split_ifs at hr
  · cases hr
    decide
  · cases hr

/-- **No hole**: behind the only page in use, `find_hole` returns that page. -/
theorem findHole_mapped : ¬∀ (m : GodefroidMemory) (holeSize : Int), m.memoryMaps.keys ≠ [] →
    0 < holeSize → ∀ a, m.findHole holeSize = .ok (some a) → m.IsHole a holeSize := by
  intro h
  have hhole := h onePage 0x1000 (by decide) (by decide) 0x1000 (by decide)
  exact hhole.unmapped 1 (by decide) (by decide)

/-- A memory whose page in use is the last one. -/
def lastPage : GodefroidMemory := { onePage with memoryMaps := PyDict.empty.set 0xFFFFF 0 }

theorem allocated_lastPage : lastPage.Allocated := by
  intro q r hr
  rw [show lastPage.memoryMaps = PyDict.empty.set 0xFFFFF 0 from rfl, PyDict.get?_set] at hr
  split_ifs at hr
  · cases hr
    decide
  · cases hr

/-- Behind the last page nothing is taken over; behind the other one it is. -/
theorem holes_right_iff_lastPage :
    ((∀ a, lastPage.findHole 0x1000 = .ok (some a) → lastPage.IsHole a 0x1000) ∧
      TakesNothingOver lastPage) ∧
      (¬∀ a, onePage.findHole 0x1000 = .ok (some a) → onePage.IsHole a 0x1000) ∧
      ¬TakesNothingOver onePage := by
  obtain ⟨hlast, htakesLast⟩ := holes_right_iff lastPage (by decide) (show (0 : Int) < 0x1000 by decide)
    lastPage (by decide) allocated_lastPage
  obtain ⟨hone, htakesOne⟩ := holes_right_iff onePage (by decide) (show (0 : Int) < 0x1000 by decide)
    onePage (by decide) allocated_onePage
  refine ⟨⟨hlast.mpr ?_, htakesLast.mpr (.inr ?_)⟩, fun h => ?_, fun h => ?_⟩
  · decide
  · decide
  · exact absurd (hone.mp h) (by decide)
  · exact absurd (htakesOne.mp h) (by decide)

/-! ### a look that shows -/

/-- **Looking can show**: after a look at 0x5000, `find_hole` returns 0x5000. -/
theorem looking_seen : ¬∀ (m : GodefroidMemory) (looks : List Look), m.memoryMaps.keys ≠ [] →
    SameSpace m (m.afterLooks looks) := by
  intro h
  have hsame := (h onePage [.canRead 0x5000] (by decide)).findHole 0x1000
  exact absurd hsame (by decide)

/-- Looks at the page in use. -/
theorem looking_unseen_onePage :
    SameSpace onePage (onePage.afterLooks [.canRead 0x1000, .load 0x1000 2]) := by
  have hpage : ∀ j < 2, (onePage.resolve (0x1000 + j)).isSome := by decide
  refine (looking_unseen onePage allocated_onePage _).1 ⟨rfl, ⟨fun _ => ?_, ?_⟩, trivial⟩
  · exact fun j hj _ => hpage j hj
  · exact fun j hj _ => hpage j hj

end Microx
