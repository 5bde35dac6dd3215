import Microx.Godefroid.Confinement
import Microx.Godefroid.InputSpace
import Microx.Godefroid.SectionLoad

/-!
# Microx.Godefroid.Start

`GodefroidProcess.__init__`, the copies that `copy.deepcopy` makes of maps and
policies, and `GodefroidRunner.make_new_process`.

A memory that has had no input policy yet is assumed: the policy made here is
the one that all maps with an input policy share.
-/

namespace Microx

open Hoare Memory Section

/-! ## copies -/

/-- `__deepcopy__`: a new map, with the bytes of this one. -/
def PolicyMemoryMap.deepcopy (m : PolicyMemoryMap) : PolicyMemoryMap :=
  { PolicyMemoryMap.init m.base m.limit m.base_lt_limit m.accessFlags m.policy m.name with
    data := m.data }

/-- `__deepcopy__`: a new policy for the ranges of this one. -/
def InputMemoryPolicy.deepcopy (p : InputMemoryPolicy) : InputMemoryPolicy where
  addressBytes := p.addressBytes
  start := p.start
  stop := p.stop
  pointersStart := p.pointersStart
  pointersEnd := p.pointersEnd
  start_lt_stop := p.start_lt_stop
  pointersStart_lt_pointersEnd := p.pointersStart_lt_pointersEnd
  knownInputs := PyDict.empty
  knownOutputs := PyDict.empty
  pointerWatermark := p.pointersStart
  pointerMap := PyDict.empty
  entropy i := p.entropy (p.drawn + i)
  drawn := 0

def GodefroidMap.deepcopy : GodefroidMap → GodefroidMap
  | .memoryMap => .memoryMap
  | .policy m => .policy m.deepcopy

/-- `copy.deepcopy` of a memory; what the maps share, their copies share. -/
def copyMemory (m : GodefroidMemory) : GodefroidMemory :=
  holding m (fun r => (m.objs r).deepcopy) (m.shared.map (·.deepcopy))

/-! ## `GodefroidProcess` -/

/-- `list(memory.find_maps_by_name(map_name))[0]`, asserted to be the only one. -/
def theMap (mapName : String) : EStateM PyExc GodefroidMemory Nat := do
  match (← get).findMapsByName mapName with
  | .error e => throw e
  | .ok foundMaps =>
      pyAssert (foundMaps.card == 1)
      return foundMaps.sup id

/-- The default of `sp_value`: the middle of the stack, aligned. -/
def middle (base limit : Nat) : Nat := ((base + (limit - base) / 2) >>> 8) <<< 8

/-- `InputMemoryPolicy(address_size, (start, stop), (pointers_start, pointers_end))`. -/
def newPolicy (addressSize : AddressSize) (start stop pointersStart pointersEnd : Nat)
    (entropy : Nat → Byte) : EStateM PyExc GodefroidMemory InputMemoryPolicy :=
  if h : start < stop ∧ pointersStart < pointersEnd then
    pure (.init addressSize start stop pointersStart pointersEnd h.1 h.2 entropy)
  else throw .assertionError

/-- `attach_policy`, for the map `r`. -/
def attach (r : Nat) (m : GodefroidMemory) : GodefroidMemory :=
  match m.objs r with
  | .memoryMap => m
  | .policy pm => withMap m r pm.attachPolicy

/-- `GodefroidProcess.__init__`; the result is `_initial_sp`. -/
def initProcess (entropy : Nat → Byte) (spValue : Option Nat) :
    EStateM PyExc GodefroidMemory Nat := do
  mapInputSpace
  let stack ← theMap "[stack]"
  let m ← get
  let base := MemoryMap.base (m.objs stack)
  let limit := MemoryMap.limit (m.objs stack)
  let initialSp := spValue.getD (middle base limit)
  let inputs ← theMap "[input_space]"
  let functionStackStart := initialSp + m.addressSize.bytes
  pyAssert (decide (base ≤ functionStackStart) && decide (functionStackStart < limit))
  let inputPolicy ← newPolicy m.addressSize functionStackStart limit
    (MemoryMap.base (m.objs inputs)) (MemoryMap.limit (m.objs inputs)) entropy
  modify fun m => holding m m.objs (some inputPolicy)
  modify (attach stack)
  modify (attach inputs)
  return initialSp

/-! ## `GodefroidRunner` -/

/-- `Icount`. -/
inductive Icount where
  | infinite
  | counted
  deriving DecidableEq, Repr

/-- `class GodefroidRunner`. -/
structure GodefroidRunner where
  memory : GodefroidMemory
  initialPc : Nat
  initialSp : Option Nat
  maxInsts : Nat
  runLength : Icount
  magicReturn : Option Nat
  runLength_ok : runLength = .infinite ∨ 0 < maxInsts

/-- `n.to_bytes(size, byteorder="little")`. -/
def toBytes (size n : Nat) : EStateM PyExc GodefroidMemory (List Byte) :=
  if n < 256 ^ size then pure (InputMemoryPolicy.toBytesLE size n) else throw .overflowError

/-- `make_new_process`, over a copy of the memory. -/
def GodefroidRunner.makeNewProcess (runner : GodefroidRunner) (entropy : Nat → Byte) :
    EStateM PyExc GodefroidMemory Nat := do
  let initialSp ← initProcess entropy runner.initialSp
  match runner.magicReturn with
  | none => pure ()
  | some magicReturn =>
      let stack ← theMap "[stack]"
      let bs ← toBytes (← get).addressSize.bytes magicReturn
      invoke stack (GodefroidMap.onPolicy .attributeError
        (PolicyMemoryMap.storeBytesRaw initialSp bs))
  return initialSp

/-! ## memories before a process is made -/

/-- A 32-bit memory whose policy maps hold their ranges and span the pages they stand at. -/
structure Spread (m : GodefroidMemory) : Prop where
  addressSize : m.addressSize = .x32
  pageShift : m.pageShift = 12
  table_lt : ∀ q r, m.memoryMaps.get? q = some r → r < m.numObjs
  wellFormed : ∀ r pm, m.objs r = .policy pm → pm.WellFormed
  spans : ∀ q r pm, m.memoryMaps.get? q = some r → m.objs r = .policy pm → Spans pm q

/-- No map has been given an input policy. -/
structure LaidOut (m : GodefroidMemory) : Prop extends Spread m where
  free : ∀ r, m.numObjs ≤ r → m.objs r = .memoryMap
  default : ∀ r pm, m.objs r = .policy pm → pm.policy = .default

theorem Section.Laid.laidOut {f : Nat → Bool} {last : List Nat} {m : GodefroidMemory}
    {memMap : Option Nat} (h : Laid f last m memMap) : LaidOut m where
  addressSize := h.addressSize
  pageShift := h.pageShift
  table_lt := h.table_lt
  wellFormed r pm hpm := (h.maps r pm hpm).1
  spans q r pm hq hpm := h.spans q r pm (owner_eq_some.mpr ⟨hq, pm, hpm⟩) hpm
  free := h.free
  default r pm hpm := (h.maps r pm hpm).2.1

/-- Storing content keeps the invariant of the loop. -/
theorem writeContent_laid {s : Section} {f : Nat → Bool} {last : List Nat}
    {m m' : GodefroidMemory} {memMap : Option Nat} (h : Laid f last m memMap)
    (hrun : writeContent s memMap m = .ok () m') : Laid f last m' memMap := by
  rcases writeContent_frame hrun with rfl | ⟨c, k, pm, -, -, ho, rfl⟩
  · exact h
  · exact h.withMap ho (sameKind_putBytes _ _ _)

theorem loadSections_laid (rest : List Section) :
    ∀ (done : List Section) (m m' : GodefroidMemory) (memMap : Option Nat),
      (∀ s ∈ rest, s.Mappable) → Laid (mapped done) (lastPages done) m memMap →
      loadSections rest memMap m = .ok () m' →
      ∃ memMap', Laid (mapped (rest.reverse ++ done)) (lastPages (rest.reverse ++ done)) m' memMap' := by
  induction rest with
  | nil =>
      intro done m m' memMap _ h hrun
      simp only [loadSections, run_pure, EStateM.Result.ok.injEq, true_and] at hrun
      exact ⟨memMap, hrun ▸ h⟩
  | cons s rest ih =>
      intro done m m' memMap hmappable h hrun
      obtain ⟨memMap', m₁, m₂, hmap, hwrite, hrest⟩ := loadSections_cons hrun
      obtain ⟨memMap₁, m₁', hmap', hsec⟩ := mapSection_ok (hmappable s List.mem_cons_self) h
      rw [hmap, EStateM.Result.ok.injEq] at hmap'
      obtain ⟨rfl, rfl⟩ := hmap'
      have hih := ih (s :: done) m₂ m' memMap' (fun t ht => hmappable t (List.mem_cons_of_mem _ ht))
        (writeContent_laid hsec.laid hwrite) hrest
      rwa [List.reverse_cons, List.append_assoc]

section

variable {sections : List Section} {m : GodefroidMemory} (hmappable : ∀ s ∈ sections, s.Mappable)
  (hrun : createMemoryFromSections sections = .ok () m)

include hmappable hrun

/-- **The memory of sections** that can be mapped is laid out. -/
theorem createMemoryFromSections_laidOut : LaidOut m := by
  obtain ⟨memMap, h⟩ := loadSections_laid sections [] newMemory m none hmappable laid_newMemory hrun
  exact h.laidOut

/-- Every page of a section is entered. -/
theorem createMemoryFromSections_mapped {s : Section} (hs : s ∈ sections) {q : Nat}
    (hq : q ∈ s.pages) : ∃ r, m.memoryMaps.get? q = some r := by
  obtain ⟨memMap, h⟩ := loadSections_laid sections [] newMemory m none hmappable laid_newMemory hrun
  have hmapped : mapped (sections.reverse ++ []) q = true := by
    simpa [mapped] using ⟨s, hs, hq⟩
  obtain ⟨r, hr⟩ := Option.isSome_iff_exists.mp ((h.owned q).trans hmapped)
  exact ⟨r, (owner_eq_some.mp hr).1⟩

end

/-! ## what the maps of sections are -/

/-- The pages with `P` are entered, by maps with the names `N`, of which every one but a stack has
one page. -/
structure Paged (P : Nat → Prop) (N : String → Prop) (m : GodefroidMemory) : Prop where
  addressSize : m.addressSize = .x32
  pageShift : m.pageShift = 12
  page : ∀ q r, m.memoryMaps.get? q = some r → P q
  map : ∀ r pm, m.objs r = .policy pm →
    N pm.name ∧ (pm.name ≠ "[stack]" → pm.limit = pm.base + 0x1000)

variable {P : Nat → Prop} {N : String → Prop}

theorem Paged.pages_mono {P' : Nat → Prop} {m : GodefroidMemory} (h : Paged P N m)
    (hP : ∀ q, P q → P' q) : Paged P' N m :=
  ⟨h.addressSize, h.pageShift, fun q r hq => hP q (h.page q r hq), h.map⟩

/-- A method that returns leaves the maps paged. -/
abbrev KeepsPaged {α : Type} (P : Nat → Prop) (N : String → Prop)
    (f : EStateM PyExc GodefroidMemory α) : Prop :=
  Triple (Paged P N) f (fun _ => Paged P N) fun _ _ => True

/-- A probe may enter a map of the base class. -/
theorem canRead_paged {q : Nat} (hlt : q < 0x100000) (hq : P q) :
    KeepsPaged P N (canRead (q * 0x1000)) := by
  refine Triple.bind (Q := fun _ => Paged P N) ?_ fun r =>
    Triple.read fun _ => Triple.pure fun _ h => h
  intro m h
  have hpage : m.page (q * 0x1000) = q := by
    rw [page_eq, h.addressSize, h.pageShift]
    simp only [AddressSize.bits]
    omega
  cases hres : m.resolve (q * 0x1000) with
  | some r => rw [findMap_of_resolve hres]; exact h
  | none =>
      rw [findMap_absent hres]
      refine ⟨h.addressSize, h.pageShift, fun q' r hr => ?_, fun r pm hr => ?_⟩
      · simp only [PyDict.get?_set, hpage] at hr
        split at hr
        · next heq => rw [heq]; exact hq
        · exact h.page q' r hr
      · dsimp only at hr
        by_cases heq : r = m.numObjs
        · rw [heq, Function.update_self] at hr
          cases hr
        · rw [Function.update_of_ne heq] at hr
          exact h.map r pm hr

/-- A policy map is the new one or an old one. -/
theorem Section.Added.policyMap {m m' : GodefroidMemory} {a b r : Nat} {new pm : PolicyMemoryMap}
    (h : Added m m' a b new) (hpm : m'.objs r = .policy pm) :
    (pm = new ∧ r = m.numObjs) ∨ m.objs r = .policy pm := by
  rw [h.objs] at hpm
  by_cases heq : r = m.numObjs
  · rw [heq, Function.update_self] at hpm
    exact .inl ⟨(GodefroidMap.policy.inj hpm).symm, heq⟩
  · rw [Function.update_of_ne heq] at hpm
    exact .inr hpm

theorem addPolicyMap_paged {a b : Nat} (hab : a < b) (hb : b ≤ 0x100000) (flags : MemoryFlags)
    {name : String} (hname : N name) (hone : name ≠ "[stack]" → b = a + 1)
    (hpages : ∀ q, a ≤ q → q < b → P q) :
    KeepsPaged P N (addPolicyMap (a * 0x1000) (b * 0x1000) flags name) := by
  intro m h
  obtain ⟨m', hrun, hadd⟩ := addPolicyMap_ok h.addressSize h.pageShift hab hb flags name
  rw [hrun]
  refine ⟨hadd.addressSize.trans h.addressSize, hadd.pageShift.trans h.pageShift,
    fun q r hr => ?_, fun r pm hr => ?_⟩
  · rw [hadd.table] at hr
    split at hr
    · next hin => exact hpages q hin.1 hin.2
    · exact h.page q r hr
  · obtain ⟨rfl, -⟩ | hold := hadd.policyMap hr
    · refine ⟨hname, fun hne => ?_⟩
      have hone := hone hne
      simp only [PolicyMemoryMap.init]
      omega
    · exact h.map r pm hold

theorem mapPages_paged (flags : MemoryFlags) {name : String} (hname : N name) (qs : List Nat) :
    ∀ memMap, (∀ q ∈ qs, q < 0x100000 ∧ P q) →
      KeepsPaged P N (mapPages flags name (qs.map (· * 0x1000)) memMap) := by
  induction qs with
  | nil => exact fun _ _ => Triple.pure fun _ h => h
  | cons q qs ih =>
      intro memMap hqs
      obtain ⟨hlt, hq⟩ := hqs q List.mem_cons_self
      have hrest : ∀ x ∈ qs, x < 0x100000 ∧ P x := fun x hx => hqs x (List.mem_cons_of_mem _ hx)
      refine Triple.bind (canRead_paged hlt hq) fun ok =>
        Triple.ite (fun _ => ih memMap hrest) fun _ => ?_
      have hadd : KeepsPaged P N (addPolicyMap (q * 0x1000) ((q + 1) * 0x1000) flags name) :=
        addPolicyMap_paged (Nat.lt_succ_self q) hlt flags hname (fun _ => rfl) fun x h1 h2 => by
          obtain rfl : x = q := by omega
          exact hq
      rw [show (q + 1) * 0x1000 = q * 0x1000 + 0x1000 by omega] at hadd
      exact Triple.bind hadd fun r => ih (some r) hrest

theorem Section.Mappable.page_lt {s : Section} (hs : s.Mappable) {q : Nat} (hq : q ∈ s.pages) :
    q < 0x100000 := by
  have hlimit := hs.le_limit
  have := (mem_pages.mp hq).2
  omega

theorem alignDown_eq (a : Nat) : alignDown a = a / 0x1000 * 0x1000 := by
  rw [alignDown, Nat.shiftRight_eq_div_pow, Nat.shiftLeft_eq]

theorem mapSection_paged {s : Section} (hs : s.Mappable) (memMap : Option Nat) (hname : N s.name)
    (hpages : ∀ q ∈ s.pages, P q) : KeepsPaged P N (mapSection s memMap) := by
  have hpos := hs.size_pos
  have hlimit := hs.le_limit
  have hlast : (s.start + s.size + 0xFFF) / 0x1000 ≤ 0x100000 := by omega
  unfold mapSection
  cases hstack : s.isStack with
  | true =>
      rw [if_pos rfl, pageStart, pageEnd, alignDown_eq, alignDown_eq]
      refine Triple.bind (addPolicyMap_paged (by omega) hlast s.flags hname (fun hne => ?_)
        fun q h1 h2 => hpages q (mem_pages.mpr ⟨h1, h2⟩)) fun r => Triple.pure fun _ h => h
      exact absurd (by simpa [isStack] using hstack) hne
  | false =>
      rw [if_neg (by simp), pageStarts_eq]
      exact mapPages_paged s.flags hname s.pages memMap fun q hq => ⟨hs.page_lt hq, hpages q hq⟩

theorem writeContent_paged (s : Section) (memMap : Option Nat) :
    KeepsPaged P N (writeContent s memMap) := by
  intro m h
  cases hrun : writeContent s memMap m with
  | error e m' => trivial
  | ok u m' =>
      rcases writeContent_frame hrun with rfl | ⟨c, k, old, -, -, hold, rfl⟩
      · exact h
      · refine ⟨h.addressSize, h.pageShift, h.page, fun r pm hr => ?_⟩
        rw [objs_withMap] at hr
        by_cases heq : r = k
        · rw [heq, Function.update_self] at hr
          rw [← GodefroidMap.policy.inj hr]
          exact h.map k old hold
        · rw [Function.update_of_ne heq] at hr
          exact h.map r pm hr

theorem loadSections_paged (sections : List Section) :
    ∀ memMap, (∀ s ∈ sections, s.Mappable ∧ N s.name ∧ ∀ q ∈ s.pages, P q) →
      KeepsPaged P N (loadSections sections memMap) := by
  induction sections with
  | nil => exact fun _ _ => Triple.pure fun _ h => h
  | cons s rest ih =>
      intro memMap hall
      obtain ⟨hs, hname, hpages⟩ := hall s List.mem_cons_self
      exact Triple.bind (mapSection_paged hs memMap hname hpages) fun memMap' =>
        Triple.bind (writeContent_paged s memMap') fun _ =>
          ih memMap' fun t ht => hall t (List.mem_cons_of_mem _ ht)

/-- The pages and names of sections. -/
theorem createMemoryFromSections_paged {sections : List Section} {m : GodefroidMemory}
    (hmappable : ∀ s ∈ sections, s.Mappable) (hrun : createMemoryFromSections sections = .ok () m) :
    Paged (fun q => ∃ s ∈ sections, q ∈ s.pages) (fun n => ∃ s ∈ sections, s.name = n) m := by
  have h := loadSections_paged sections none (P := fun q => ∃ s ∈ sections, q ∈ s.pages)
    (N := fun n => ∃ s ∈ sections, s.name = n)
    (fun s hs => ⟨hmappable s hs, ⟨s, hs, rfl⟩, fun q hq => ⟨s, hs, hq⟩⟩) newMemory
    ⟨rfl, rfl, fun q r hq => by simp [newMemory] at hq, fun r pm hr => by cases hr⟩
  rwa [show loadSections sections none newMemory = _ from hrun] at h

/-! ## copies and new maps -/

/-- What a copied object is a copy of. -/
theorem deepcopy_eq_policy {o : GodefroidMap} {pm : PolicyMemoryMap}
    (h : o.deepcopy = .policy pm) : ∃ pm', o = .policy pm' ∧ pm = pm'.deepcopy := by
  cases o with
  | memoryMap => cases h
  | policy pm' => exact ⟨pm', rfl, (GodefroidMap.policy.inj h).symm⟩

/-- A copied memory finds the same maps. -/
theorem findMapsByName_copyMemory (m : GodefroidMemory) (mapName : String) :
    (copyMemory m).findMapsByName mapName = m.findMapsByName mapName := by
  refine collectByName_congr mapName _ (fun r _ => ?_) ∅
  change some ((m.objs r).deepcopy.name) = some (m.objs r).name
  cases m.objs r <;> rfl

theorem LaidOut.copyMemory {m : GodefroidMemory} (h : LaidOut m) : LaidOut (copyMemory m) where
  addressSize := h.addressSize
  pageShift := h.pageShift
  table_lt := h.table_lt
  free r hr := congrArg GodefroidMap.deepcopy (h.free r hr)
  wellFormed r pm hpm := by
    obtain ⟨pm', hobj, rfl⟩ := deepcopy_eq_policy hpm
    exact h.wellFormed r pm' hobj
  default r pm hpm := by
    obtain ⟨pm', hobj, rfl⟩ := deepcopy_eq_policy hpm
    exact h.default r pm' hobj
  spans q r pm hq hpm := by
    obtain ⟨pm', hobj, rfl⟩ := deepcopy_eq_policy hpm
    exact h.spans q r pm' hq hobj

/-- A new map keeps the memory laid out. -/
theorem LaidOut.added {m m' : GodefroidMemory} {a b : Nat} {flags : MemoryFlags} {name : String}
    {hab : a * 0x1000 < b * 0x1000} (h : LaidOut m)
    (hadd : Added m m' a b (PolicyMemoryMap.init (a * 0x1000) (b * 0x1000) hab flags
      .default name)) : LaidOut m' where
  addressSize := hadd.addressSize.trans h.addressSize
  pageShift := hadd.pageShift.trans h.pageShift
  table_lt q r hr := by
    rw [hadd.table] at hr
    rw [hadd.numObjs]
    split at hr
    · rw [← Option.some.inj hr]
      exact Nat.lt_succ_self _
    · exact Nat.lt_succ_of_lt (h.table_lt q r hr)
  free r hr := by
    rw [hadd.numObjs] at hr
    rw [hadd.objs, Function.update_of_ne (by omega), h.free r (by omega)]
  wellFormed r pm hpm := by
    obtain ⟨rfl, -⟩ | hpm := hadd.policyMap hpm
    · exact List.length_replicate
    · exact h.wellFormed r pm hpm
  default r pm hpm := by
    obtain ⟨rfl, -⟩ | hpm := hadd.policyMap hpm
    · rfl
    · exact h.default r pm hpm
  spans q r pm hq hpm := by
    rw [hadd.table] at hq
    rw [hadd.objs] at hpm
    by_cases hin : a ≤ q ∧ q < b
    · rw [if_pos hin] at hq
      rw [← Option.some.inj hq, Function.update_self] at hpm
      rw [← GodefroidMap.policy.inj hpm]
      simp only [Spans, PolicyMemoryMap.init]
      omega
    · rw [if_neg hin] at hq
      rw [Function.update_of_ne (Nat.ne_of_lt (h.table_lt q r hq))] at hpm
      exact h.spans q r pm hq hpm

/-! ## a process that has been made -/

/-- The pages of the input space that `GodefroidProcess` maps, from `last` on. -/
theorem inputSpace_lt (last : Nat) : last * 0x1000 < (last + 0x1080) * 0x1000 := by omega

/-- The input space is mapped at the last page in use. -/
structure TakesLast (m m' : GodefroidMemory) (last : Nat) : Prop where
  mem : last ∈ m.memoryMaps.keys
  max : ∀ q ∈ m.memoryMaps.keys, q ≤ last
  room : last < 0xFEF70
  added : Added m m' last (last + 0x1080) (PolicyMemoryMap.init _ _ (inputSpace_lt last)
    ⟨true, true, false⟩ .default "[input_space]")

/-- The memory has an input space of its own. -/
def HasInputSpace (m : GodefroidMemory) : Prop := m.findMapsByName "[input_space]" ≠ .ok ∅

/-- The input space goes to the last page in use, if there is room behind it. -/
theorem mapInputSpace_run {m : GodefroidMemory} (h : LaidOut m) (hnone : ¬ HasInputSpace m)
    (hkeys : m.memoryMaps.keys ≠ []) :
    ∃ last ∈ m.memoryMaps.keys, (∀ q ∈ m.memoryMaps.keys, q ≤ last) ∧
      if last < 0xFEF70 then ∃ m', mapInputSpace m = .ok () m' ∧ TakesLast m m' last
      else mapInputSpace m = .error .typeError m := by
  obtain ⟨last, hmem, hmax, hlast⟩ := exists_last hkeys
  have hhole := findHole_eq (show (0 : Int) < inputSpaceSize by decide) hlast
  have hpaged : m.pagedHole inputSpaceSize = 0x1080 := by
    simp only [pagedHole, h.pageShift]
    decide
  have hmaxPage : m.maxPage = 0xFFFF0 := by
    simp only [maxPage, h.pageShift]
    decide
  rw [hpaged, hmaxPage] at hhole
  refine ⟨last, hmem, hmax, ?_⟩
  rw [mapInputSpace, run_get_bind]
  simp only [not_not.mp hnone, if_true]
  by_cases hroom : last < 0xFEF70
  · rw [if_pos hroom]
    rw [if_pos (by omega)] at hhole
    obtain ⟨m', hadd, hadded⟩ := addPolicyMap_ok h.addressSize h.pageShift
      (a := last) (b := last + 0x1080) (by omega) (by omega) ⟨true, true, false⟩
      "[input_space]"
    have hbase : last <<< 12 = last * 0x1000 := Nat.shiftLeft_eq ..
    have hlimit : last * 0x1000 + inputSpaceSize = (last + 0x1080) * 0x1000 := by
      simp only [inputSpaceSize]
      omega
    refine ⟨m', ?_, hmem, hmax, hroom, hadded⟩
    simp only [hhole, h.pageShift, hbase, hlimit]
    rw [run_bind_ok hadd]
    rfl
  · rw [if_neg hroom]
    rw [if_neg (by omega)] at hhole
    simp only [hhole]
    rfl

/-- The input space is mapped, or the memory has one. -/
theorem mapInputSpace_ok {m m' : GodefroidMemory} (h : LaidOut m)
    (hrun : mapInputSpace m = .ok () m') :
    (m' = m ∧ HasInputSpace m) ∨ (¬ HasInputSpace m ∧ ∃ last, TakesLast m m' last) := by
  by_cases hhas : HasInputSpace m
  · refine .inl ⟨?_, hhas⟩
    rw [mapInputSpace, run_get_bind] at hrun
    cases hfound : m.findMapsByName "[input_space]" with
    | error e => rw [hfound] at hrun; cases hrun
    | ok foundMaps =>
        simp only [hfound] at hrun
        rw [if_neg fun hempty => hhas (by rw [hfound, hempty]), run_pure,
          EStateM.Result.ok.injEq] at hrun
        exact hrun.2.symm
  · refine .inr ⟨hhas, ?_⟩
    by_cases hkeys : m.memoryMaps.keys = []
    · have hhole : m.findHole inputSpaceSize = .error (.other "UnboundLocalError") := by
        simp [Memory.findHole, hkeys, Memory.scanHoles]
      rw [mapInputSpace, run_get_bind] at hrun
      simp only [not_not.mp hhas, if_true, hhole] at hrun
      cases hrun
    · obtain ⟨last, -, -, hspace⟩ := mapInputSpace_run h hhas hkeys
      split at hspace
      · obtain ⟨m₁, hrun₁, htakes⟩ := hspace
        rw [hrun, EStateM.Result.ok.injEq] at hrun₁
        exact ⟨last, hrun₁.2 ▸ htakes⟩
      · rw [hrun] at hspace
        cases hspace

theorem mapInputSpace_laidOut {m m' : GodefroidMemory} (h : LaidOut m)
    (hrun : mapInputSpace m = .ok () m') : LaidOut m' := by
  rcases mapInputSpace_ok h hrun with ⟨rfl, -⟩ | ⟨-, last, htakes⟩
  · exact h
  · exact h.added htakes.added

/-- The object is the only map of that name, and the map. -/
structure IsTheMap (m : GodefroidMemory) (mapName : String) (r : Nat) (pm : PolicyMemoryMap) :
    Prop where
  mapped : ∃ q, m.memoryMaps.get? q = some r
  map : m.objs r = .policy pm
  name : pm.name = mapName
  only : ∀ q r' pm', m.memoryMaps.get? q = some r' → m.objs r' = .policy pm' →
    pm'.name = mapName → r' = r

/-- An object that is the map has its name. -/
theorem IsTheMap.name_of_objs {m : GodefroidMemory} {mapName : String} {r : Nat}
    {pm pm' : PolicyMemoryMap} (h : IsTheMap m mapName r pm) (hobj : m.objs r = .policy pm') :
    pm'.name = mapName := by
  rw [GodefroidMap.policy.inj (hobj.symm.trans h.map)]
  exact h.name

theorem theMap_ok {m m' : GodefroidMemory} {name : String} {r : Nat} (hname : name ≠ defaultName)
    (hrun : theMap name m = .ok r m') : m' = m ∧ ∃ pm, IsTheMap m name r pm := by
  obtain ⟨found, hfound, hmem⟩ := mem_collectByName (m := m) name
    (m.memoryMaps.entries.map Prod.snd) (fun _ _ => rfl) ∅
  rw [theMap, run_get_bind] at hrun
  simp only [show m.findMapsByName name = .ok found from hfound] at hrun
  by_cases hcard : found.card = 1
  · obtain ⟨r', rfl⟩ := Finset.card_eq_one.mp hcard
    simp only [Finset.card_singleton, beq_self_eq_true, pyAssert, if_true,
      Finset.sup_singleton, id] at hrun
    obtain ⟨rfl, rfl⟩ := EStateM.Result.ok.inj hrun
    have hiff (x : Nat) : x = r' ↔ x ∈ m.memoryMaps.entries.map Prod.snd ∧
        NamedMap.name (m.objs x) = some name := by
      have := hmem x
      simpa using this
    obtain ⟨hentry, hnamed⟩ := (hiff r').mp rfl
    obtain ⟨e, he, hsnd⟩ := List.mem_map.mp hentry
    cases hobj : m.objs r' with
    | memoryMap =>
        rw [hobj] at hnamed
        exact absurd (Option.some.inj hnamed).symm hname
    | policy pm =>
        rw [hobj] at hnamed
        refine ⟨rfl, pm, ⟨e.1, ?_⟩, hobj, Option.some.inj hnamed, fun q x px hq hx hxname => ?_⟩
        · rw [← hsnd]
          exact (PyDict.get?_eq_some_iff _).mpr he
        · refine (hiff x).mpr ⟨List.mem_map.mpr ⟨(q, x), (PyDict.get?_eq_some_iff _).mp hq, rfl⟩, ?_⟩
          rw [hx]
          exact congrArg some hxname
  · simp [pyAssert, hcard] at hrun

/-- Such a map is found. -/
theorem theMap_run {m : GodefroidMemory} {name : String} {r : Nat} {pm : PolicyMemoryMap}
    (h : IsTheMap m name r pm) (hname : name ≠ defaultName) : theMap name m = .ok r m := by
  obtain ⟨found, hfound, hmem⟩ := mem_collectByName (m := m) name
    (m.memoryMaps.entries.map Prod.snd) (fun _ _ => rfl) ∅
  have hone : found = {r} := by
    ext x
    rw [hmem, Finset.mem_singleton]
    constructor
    · rintro (hnone | ⟨hentry, hnamed⟩)
      · exact absurd hnone (Finset.notMem_empty x)
      · obtain ⟨e, he, rfl⟩ := List.mem_map.mp hentry
        cases hobj : m.objs e.2 with
        | memoryMap =>
            rw [hobj] at hnamed
            exact absurd (Option.some.inj hnamed).symm hname
        | policy px =>
            rw [hobj] at hnamed
            exact h.only e.1 e.2 px ((PyDict.get?_eq_some_iff _).mpr he) hobj
              (Option.some.inj hnamed)
    · rintro rfl
      obtain ⟨q, hq⟩ := h.mapped
      refine .inr ⟨List.mem_map.mpr ⟨(q, x), (PyDict.get?_eq_some_iff _).mp hq, rfl⟩, ?_⟩
      rw [h.map]
      exact congrArg some h.name
  rw [theMap, run_get_bind]
  simp only [show m.findMapsByName name = .ok found from hfound, hone, Finset.card_singleton,
    beq_self_eq_true, pyAssert, if_true, Finset.sup_singleton, id]
  rfl

/-- The policy of a stack and an input space that has recorded nothing yet. -/
structure IsNew (p : InputMemoryPolicy) (sp : Nat) (pmS pmI : PolicyMemoryMap) : Prop where
  addressBytes : p.addressBytes = 4
  start : p.start = sp + 4
  stop : p.stop = pmS.limit
  pointersStart : p.pointersStart = pmI.base
  pointersEnd : p.pointersEnd = pmI.limit
  knownInputs : p.knownInputs = PyDict.empty
  knownOutputs : p.knownOutputs = PyDict.empty
  watermark : p.pointerWatermark = pmI.base
  pointerMap : p.pointerMap = PyDict.empty

/-- No pointer has been handed out yet. -/
theorem IsNew.pointersInside {p : InputMemoryPolicy} {sp : Nat} {pmS pmI : PolicyMemoryMap}
    (h : IsNew p sp pmS pmI) : p.PointersInside := by
  have hnone (a ptr : Nat) : p.pointerMap.get? a ≠ some ptr := by
    rw [h.pointerMap, PyDict.get?_empty]
    exact (Option.some_ne_none ptr).symm
  have hstart : p.pointerWatermark = p.pointersStart := h.watermark.trans h.pointersStart.symm
  refine ⟨⟨Nat.le_of_eq hstart.symm, ?_, fun a ptr hptr => absurd hptr (hnone a ptr),
    fun a _ ptr hptr => absurd hptr (hnone a ptr)⟩, fun a ptr hptr => absurd hptr (hnone a ptr)⟩
  rw [hstart, Nat.sub_self]
  exact Nat.dvd_zero _

/-- Nothing has been recorded yet. -/
theorem IsNew.recordsAccesses {p : InputMemoryPolicy} {sp : Nat} {pmS pmI : PolicyMemoryMap}
    {A : InputMemoryPolicy.Accesses} (h : IsNew p sp pmS pmI) : p.RecordsAccesses A where
  outputs k size hk := by
    rw [h.knownOutputs, PyDict.get?_empty] at hk
    cases hk
  pointers a ptr hptr := by
    rw [h.pointerMap, PyDict.get?_empty] at hptr
    cases hptr

/-- What `GodefroidProcess.__init__` makes of the memory `m₁`, in which the input space is mapped. -/
structure Initialized (m₁ : GodefroidMemory) (sp stack inputs : Nat)
    (pmS pmI : PolicyMemoryMap) (policy : InputMemoryPolicy) : Prop where
  stack : IsTheMap m₁ "[stack]" stack pmS
  inputs : IsTheMap m₁ "[input_space]" inputs pmI
  base_le : pmS.base ≤ sp + 4
  lt_limit : sp + 4 < pmS.limit
  policy : IsNew policy sp pmS pmI

/-- `m₁` with a policy for the two maps. -/
def withPolicy (m₁ : GodefroidMemory) (stack inputs : Nat) (pmS pmI : PolicyMemoryMap)
    (policy : InputMemoryPolicy) : GodefroidMemory :=
  holding m₁ (Function.update (Function.update m₁.objs stack (.policy pmS.attachPolicy)) inputs
    (.policy pmI.attachPolicy)) (some policy)

theorem Initialized.ne {m₁ : GodefroidMemory} {sp stack inputs : Nat}
    {pmS pmI : PolicyMemoryMap} {policy : InputMemoryPolicy}
    (h : Initialized m₁ sp stack inputs pmS pmI policy) : inputs ≠ stack := by
  rintro rfl
  have hmap := h.stack.map
  rw [h.inputs.map] at hmap
  have hname := h.inputs.name
  rw [GodefroidMap.policy.inj hmap, h.stack.name] at hname
  revert hname
  decide

theorem Initialized.objs_stack {m₁ : GodefroidMemory} {sp stack inputs : Nat}
    {pmS pmI : PolicyMemoryMap} {policy : InputMemoryPolicy}
    (h : Initialized m₁ sp stack inputs pmS pmI policy) (pm : PolicyMemoryMap) :
    (withPolicy m₁ stack inputs pm pmI policy).objs stack = .policy pm.attachPolicy := by
  simp only [withPolicy, holding, Function.update_of_ne h.ne.symm, Function.update_self]

/-- The maps with an input policy, and the others. -/
theorem Initialized.policyMap {m₁ : GodefroidMemory} {stack inputs r : Nat}
    {pmI pm pm' : PolicyMemoryMap} {policy : InputMemoryPolicy}
    (hr : (withPolicy m₁ stack inputs pm pmI policy).objs r = .policy pm') :
    (r = inputs ∧ pm' = pmI.attachPolicy) ∨ (r = stack ∧ pm' = pm.attachPolicy) ∨
      (r ≠ inputs ∧ r ≠ stack ∧ m₁.objs r = .policy pm') := by
  by_cases hinputs : r = inputs
  · simp only [withPolicy, holding, hinputs, Function.update_self] at hr
    exact .inl ⟨hinputs, (GodefroidMap.policy.inj hr).symm⟩
  · by_cases hstack : r = stack
    · subst hstack
      simp only [withPolicy, holding, Function.update_of_ne hinputs, Function.update_self] at hr
      exact .inr (.inl ⟨rfl, (GodefroidMap.policy.inj hr).symm⟩)
    · simp only [withPolicy, holding, Function.update_of_ne hinputs, Function.update_of_ne hstack] at hr
      exact .inr (.inr ⟨hinputs, hstack, hr⟩)

/-- Looked up by its name again, the stack is the same map. -/
theorem Initialized.stack_again {m₁ : GodefroidMemory} {sp stack inputs : Nat}
    {pmS pmI : PolicyMemoryMap} {policy : InputMemoryPolicy}
    (h : Initialized m₁ sp stack inputs pmS pmI policy) :
    IsTheMap (withPolicy m₁ stack inputs pmS pmI policy) "[stack]" stack pmS.attachPolicy where
  mapped := h.stack.mapped
  map := h.objs_stack pmS
  name := h.stack.name
  only q r pm hq hpm hname := by
    obtain ⟨-, rfl⟩ | ⟨rfl, -⟩ | ⟨-, -, hold⟩ := policyMap hpm
    · exact absurd (h.inputs.name.symm.trans hname) (by decide)
    · rfl
    · exact h.stack.only q r pm hq hold hname

/-- **`GodefroidProcess.__init__`**, when the input space is mapped and there is one stack. -/
theorem initProcess_run {m m₁ : GodefroidMemory} {stack inputs sp : Nat}
    {pmS pmI : PolicyMemoryMap} (entropy : Nat → Byte) (spValue : Option Nat)
    (hspace : mapInputSpace m = .ok () m₁)
    (haddr : m₁.addressSize = .x32) (hstack : IsTheMap m₁ "[stack]" stack pmS)
    (hinputs : IsTheMap m₁ "[input_space]" inputs pmI)
    (hsp : spValue.getD (middle pmS.base pmS.limit) = sp) :
    if pmS.base ≤ sp + 4 ∧ sp + 4 < pmS.limit then
      ∃ policy, Initialized m₁ sp stack inputs pmS pmI policy ∧
        initProcess entropy spValue m = .ok sp (withPolicy m₁ stack inputs pmS pmI policy)
    else initProcess entropy spValue m = .error .assertionError m₁ := by
  have hsize : m₁.addressSize.bytes = 4 := by
    rw [haddr]
    rfl
  have hrange (r : Nat) (pm : PolicyMemoryMap) (hpm : m₁.objs r = .policy pm) :
      MemoryMap.base (m₁.objs r) = pm.base ∧ MemoryMap.limit (m₁.objs r) = pm.limit := by
    rw [hpm]
    exact ⟨rfl, rfl⟩
  rw [initProcess, run_bind_ok hspace, run_bind_ok (theMap_run hstack (by decide)), run_get_bind,
    run_bind_ok (theMap_run hinputs (by decide)), (hrange _ _ hstack.map).1,
    (hrange _ _ hstack.map).2, (hrange _ _ hinputs.map).1, (hrange _ _ hinputs.map).2, hsize, hsp]
  by_cases hfits : pmS.base ≤ sp + 4 ∧ sp + 4 < pmS.limit
  · rw [if_pos hfits]
    have hinit : Initialized m₁ sp stack inputs pmS pmI (.init m₁.addressSize (sp + 4) pmS.limit
        pmI.base pmI.limit hfits.2 pmI.base_lt_limit entropy) :=
      ⟨hstack, hinputs, hfits.1, hfits.2, hsize, rfl, rfl, rfl, rfl, rfl, rfl, rfl, rfl⟩
    have hnew : newPolicy m₁.addressSize (sp + 4) pmS.limit pmI.base pmI.limit entropy =
        pure (.init m₁.addressSize (sp + 4) pmS.limit pmI.base pmI.limit hfits.2
          pmI.base_lt_limit entropy) := dif_pos ⟨hfits.2, pmI.base_lt_limit⟩
    refine ⟨_, hinit, ?_⟩
    simp only [pyAssert, hfits.1, hfits.2, decide_true, Bool.and_self, if_true]
    rw [run_bind_ok (run_pure ..), hnew, run_bind_ok (run_pure ..), run_modify_bind,
      run_modify_bind, run_modify_bind, run_pure]
    simp only [attach, holding, hstack.map, objs_withMap, Function.update_of_ne hinit.ne, hinputs.map]
    rfl
  · rw [if_neg hfits]
    refine run_bind_error ?_
    rw [pyAssert, if_neg (by simpa using hfits)]
    rfl

/-- **`GodefroidProcess.__init__`**, when it raises nothing. -/
theorem initProcess_ok {m m' : GodefroidMemory} {entropy : Nat → Byte} {spValue : Option Nat}
    {sp : Nat} (h : LaidOut m) (hrun : initProcess entropy spValue m = .ok sp m') :
    ∃ m₁ stack inputs pmS pmI policy, mapInputSpace m = .ok () m₁ ∧
      Initialized m₁ sp stack inputs pmS pmI policy ∧
      sp = spValue.getD (middle pmS.base pmS.limit) ∧
      m' = withPolicy m₁ stack inputs pmS pmI policy := by
  obtain ⟨u, m₁, hspace, hrun₁⟩ := bind_eq_ok.mp hrun
  obtain ⟨stack, m₂, hstack, hrun₂⟩ := bind_eq_ok.mp hrun₁
  obtain ⟨rfl, pmS, hpmS⟩ := theMap_ok (by decide) hstack
  rw [run_get_bind] at hrun₂
  obtain ⟨inputs, m₃, hinputs, -⟩ := bind_eq_ok.mp hrun₂
  obtain ⟨rfl, pmI, hpmI⟩ := theMap_ok (by decide) hinputs
  have hmade := initProcess_run entropy spValue hspace (mapInputSpace_laidOut h hspace).addressSize
    hpmS hpmI rfl
  split at hmade
  · obtain ⟨policy, hinit, hrun₃⟩ := hmade
    obtain ⟨rfl, rfl⟩ := EStateM.Result.ok.inj (hrun.symm.trans hrun₃)
    exact ⟨m₃, stack, inputs, pmS, pmI, policy, hspace, hinit, rfl, rfl⟩
  · rw [hrun] at hmade
    cases hmade

/-- The map of the stack, with the return address. -/
def plant (magicReturn : Option Nat) (sp : Nat) (pm : PolicyMemoryMap) : PolicyMemoryMap :=
  match magicReturn with
  | none => pm
  | some v => (pm.putBytes sp (InputMemoryPolicy.toBytesLE 4 v)).1

/-- Planting a return address changes bytes only. -/
theorem sameKind_plant (magicReturn : Option Nat) (sp : Nat) (pm : PolicyMemoryMap) :
    SameKind pm (plant magicReturn sp pm) ∧ (plant magicReturn sp pm).name = pm.name := by
  cases magicReturn with
  | none => exact ⟨⟨rfl, rfl, rfl, rfl, rfl⟩, rfl⟩
  | some v => exact ⟨sameKind_putBytes pm sp _, rfl⟩

theorem toBytes_ok {size n : Nat} {bs : List Byte} {m m' : GodefroidMemory}
    (h : toBytes size n m = .ok bs m') :
    n < 256 ^ size ∧ bs = InputMemoryPolicy.toBytesLE size n ∧ m' = m := by
  unfold toBytes at h
  split at h
  · next hlt =>
      obtain ⟨rfl, rfl⟩ := EStateM.Result.ok.inj h
      exact ⟨hlt, rfl, rfl⟩
  · cases h

/-- What `make_new_process` makes of the memory `m`, when it raises nothing. -/
structure GodefroidRunner.Makes (runner : GodefroidRunner) (m m₁ : GodefroidMemory)
    (sp stack inputs : Nat) (pmS pmI : PolicyMemoryMap) (policy : InputMemoryPolicy) : Prop
    extends Initialized m₁ sp stack inputs pmS pmI policy where
  space : mapInputSpace m = .ok () m₁
  sp_eq : sp = runner.initialSp.getD (middle pmS.base pmS.limit)
  magic_lt : ∀ v, runner.magicReturn = some v → v < 2 ^ 32

/-- The map of the input space is the new one. -/
theorem GodefroidRunner.Makes.inputs_eq {runner : GodefroidRunner} {m m₁ : GodefroidMemory}
    {sp stack inputs last : Nat} {pmS pmI : PolicyMemoryMap} {policy : InputMemoryPolicy}
    (h : runner.Makes m m₁ sp stack inputs pmS pmI policy) (htakes : TakesLast m m₁ last) :
    m.numObjs = inputs ∧ PolicyMemoryMap.init _ _ (inputSpace_lt last) ⟨true, true, false⟩
      .default "[input_space]" = pmI := by
  have hnew : m₁.objs m.numObjs = .policy (PolicyMemoryMap.init _ _ (inputSpace_lt last)
      ⟨true, true, false⟩ .default "[input_space]") := by
    rw [htakes.added.objs, Function.update_self]
  have heq := h.inputs.only last _ _
    (by rw [htakes.added.table, if_pos ⟨Nat.le_refl _, by omega⟩]) hnew rfl
  rw [heq, h.inputs.map] at hnew
  exact ⟨heq, (GodefroidMap.policy.inj hnew).symm⟩

/-- **`make_new_process`**, when it raises nothing. -/
theorem makeNewProcess_ok {runner : GodefroidRunner} {m m' : GodefroidMemory}
    {entropy : Nat → Byte} {sp : Nat} (h : LaidOut m)
    (hrun : runner.makeNewProcess entropy m = .ok sp m') :
    ∃ m₁ stack inputs pmS pmI policy,
      runner.Makes m m₁ sp stack inputs pmS pmI policy ∧
        m' = withPolicy m₁ stack inputs (plant runner.magicReturn sp pmS) pmI policy := by
  obtain ⟨sp', m₂, hinit, hrun₁⟩ := bind_eq_ok.mp hrun
  obtain ⟨m₁, stack, inputs, pmS, pmI, policy, hspace, hmade, hsp, rfl⟩ := initProcess_ok h hinit
  have hsize : (withPolicy m₁ stack inputs pmS pmI policy).addressSize.bytes = 4 := by
    rw [show (withPolicy m₁ stack inputs pmS pmI policy).addressSize = .x32 from
      (mapInputSpace_laidOut h hspace).addressSize]
    rfl
  cases hmagic : runner.magicReturn with
  | none =>
      rw [hmagic] at hrun₁
      obtain ⟨rfl, rfl⟩ := EStateM.Result.ok.inj hrun₁
      exact ⟨m₁, stack, inputs, pmS, pmI, policy, ⟨hmade, hspace, hsp, by simp [hmagic]⟩, rfl⟩
  | some v =>
      rw [hmagic] at hrun₁
      obtain ⟨stack', m₃, hstack, hrun₂⟩ := bind_eq_ok.mp hrun₁
      rw [theMap_run hmade.stack_again (by decide)] at hstack
      obtain ⟨rfl, rfl⟩ := EStateM.Result.ok.inj hstack
      rw [run_get_bind] at hrun₂
      obtain ⟨bs, m₄, hbytes, hrun₃⟩ := bind_eq_ok.mp hrun₂
      obtain ⟨hlt, rfl, rfl⟩ := toBytes_ok hbytes
      rw [hsize] at hlt hrun₃
      obtain ⟨_, m₅, hstore, hrun₄⟩ := bind_eq_ok.mp hrun₃
      obtain ⟨rfl, rfl⟩ := EStateM.Result.ok.inj hrun₄
      rw [invoke_storeBytesRaw (hmade.objs_stack pmS)] at hstore
      split at hstore
      · obtain ⟨-, rfl⟩ := EStateM.Result.ok.inj hstore
        refine ⟨m₁, stack, inputs, pmS, pmI, policy, ⟨hmade, hspace, hsp, fun v' hv' => ?_⟩, ?_⟩
        · rw [hmagic] at hv'
          rw [← Option.some.inj hv']
          exact hlt
        · simp only [withMap, withPolicy, holding, plant]
          rw [Function.update_comm hmade.ne.symm, Function.update_idem,
            Function.update_comm hmade.ne]
          rfl
      · cases hstore

/-- **`make_new_process`**, when the slot of the return address lies in the stack. -/
theorem makeNewProcess_run {runner : GodefroidRunner} {m m₁ : GodefroidMemory}
    {entropy : Nat → Byte} {sp stack inputs : Nat} {pmS pmI : PolicyMemoryMap}
    {policy : InputMemoryPolicy} (hmade : Initialized m₁ sp stack inputs pmS pmI policy)
    (haddr : m₁.addressSize = .x32) (hc : pmS.Contains sp 4)
    (hmagic : ∀ v, runner.magicReturn = some v → v < 2 ^ 32)
    (hinit : initProcess entropy runner.initialSp m =
      .ok sp (withPolicy m₁ stack inputs pmS pmI policy)) :
    ∃ m', runner.makeNewProcess entropy m = .ok sp m' := by
  rw [GodefroidRunner.makeNewProcess, run_bind_ok hinit]
  cases hreturn : runner.magicReturn with
  | none => exact ⟨_, rfl⟩
  | some v =>
      have hsize : (withPolicy m₁ stack inputs pmS pmI policy).addressSize.bytes = 4 := by
        rw [show (withPolicy m₁ stack inputs pmS pmI policy).addressSize = .x32 from haddr]
        rfl
      have hlength : (InputMemoryPolicy.toBytesLE 4 v).length = 4 := by
        simp [InputMemoryPolicy.toBytesLE]
      have hbytes : toBytes 4 v (withPolicy m₁ stack inputs pmS pmI policy) =
          .ok (InputMemoryPolicy.toBytesLE 4 v) (withPolicy m₁ stack inputs pmS pmI policy) := by
        rw [toBytes, if_pos (show v < 256 ^ 4 from hmagic v hreturn)]
        rfl
      have hc' : pmS.attachPolicy.Contains sp (InputMemoryPolicy.toBytesLE 4 v).length := by
        rw [hlength]
        exact ⟨hc.1, hc.2, hc.3⟩
      have hstored : (pmS.attachPolicy.putBytes sp (InputMemoryPolicy.toBytesLE 4 v)).2 = true := by
        simp only [PolicyMemoryMap.putBytes, hc'.offset_eq]
        exact PyList.writeFrom_ok hc'.fits
      dsimp only
      rw [run_bind_ok (theMap_run hmade.stack_again (by decide)), run_get_bind, hsize,
        run_bind_ok hbytes, run_bind_ok ((invoke_storeBytesRaw (hmade.objs_stack pmS) ..).trans
          (if_pos hstored))]
      exact ⟨_, rfl⟩

end Microx
