import Microx.Godefroid.Sections
import Microx.Memory.Access

/-!
# Microx.Godefroid.SectionMaps

The maps `create_memory_from_sections` creates.

`Laid` is the invariant of its loops: every page some section touches resolves
to a policy map that spans it, every other page to none, and the map created
last spans the pages `lastPages` computes from the layout.  The loop over the
pages of a section and the one map of a stack keep it (`mapSection_ok`).
-/

namespace Microx

namespace Section

open Memory Hoare

/-! ## what a page resolves to -/

/-- The policy map a page resolves to. -/
def owner (m : GodefroidMemory) (q : Nat) : Option Nat :=
  (m.memoryMaps.get? q).filter fun r => (m.objs r).policyMap?.isSome

theorem owner_eq_some {m : GodefroidMemory} {q r : Nat} :
    owner m q = some r ↔ m.memoryMaps.get? q = some r ∧ ∃ pm, m.objs r = .policy pm := by
  rw [owner, Option.filter_eq_some_iff]
  refine and_congr_right fun _ => ?_
  cases m.objs r <;> simp [GodefroidMap.policyMap?]

/-- The map spans the page. -/
def Spans (pm : PolicyMemoryMap) (q : Nat) : Prop :=
  pm.base ≤ q * 0x1000 ∧ q * 0x1000 + 0x1000 ≤ pm.limit

/-- The object holds no byte other than zero. -/
def Blank (o : GodefroidMap) : Prop := ∀ pm, o = .policy pm → ∀ x ∈ pm.data, x = 0

/-- The invariant of the loops, when the pages with `isMapped` are mapped, and the map created last
has the pages `last`. -/
structure Laid (isMapped : Nat → Bool) (last : List Nat) (m : GodefroidMemory)
    (memMap : Option Nat) : Prop where
  addressSize : m.addressSize = .x32
  pageShift : m.pageShift = 12
  table_lt : ∀ q r, m.memoryMaps.get? q = some r → r < m.numObjs
  free : ∀ r, m.numObjs ≤ r → m.objs r = .memoryMap
  maps : ∀ r pm, m.objs r = .policy pm →
    pm.WellFormed ∧ pm.policy = .default ∧ pm.accessFlags.read = true
  owned : ∀ q, (owner m q).isSome = isMapped q
  spans : ∀ q r pm, owner m q = some r → m.objs r = .policy pm → Spans pm q
  last_none : memMap = none → last = []
  last_some : ∀ r, memMap = some r → ∃ pm, m.objs r = .policy pm ∧ ∀ q,
    (q ∈ last ↔ Spans pm q) ∧ (q ∈ last → owner m q = some r)

theorem laid_newMemory : Laid (fun _ => false) [] newMemory none where
  addressSize := rfl
  pageShift := rfl
  table_lt q r h := by simp [newMemory] at h
  free _ _ := rfl
  maps r pm h := by simp [newMemory] at h
  owned q := by simp [owner, newMemory]
  spans q r pm h := by simp [owner, newMemory] at h
  last_none _ := rfl
  last_some r h := by contradiction

/-- Maps were created: older objects are as before, newer ones are blank. -/
structure Grows (m m' : GodefroidMemory) : Prop where
  numObjs_le : m.numObjs ≤ m'.numObjs
  objs : ∀ r, r < m.numObjs → m'.objs r = m.objs r
  fresh : ∀ r, m.numObjs ≤ r → Blank (m'.objs r)

theorem Grows.trans {m₁ m₂ m₃ : GodefroidMemory} (h : Grows m₁ m₂) (h' : Grows m₂ m₃) :
    Grows m₁ m₃ where
  numObjs_le := h.numObjs_le.trans h'.numObjs_le
  objs r hr := (h'.objs r (Nat.lt_of_lt_of_le hr h.numObjs_le)).trans (h.objs r hr)
  fresh r hr := by
    by_cases h2 : r < m₂.numObjs
    · rw [h'.objs r h2]
      exact h.fresh r hr
    · exact h'.fresh r (Nat.le_of_not_lt h2)

theorem blank_memoryMap : Blank .memoryMap := fun pm h => by contradiction

theorem blank_init (base limit : Nat) (h : base < limit) (flags : MemoryFlags) (p : PolicyRef)
    (name : String) : Blank (.policy (PolicyMemoryMap.init base limit h flags p name)) := by
  rintro pm ⟨⟩ x hx
  exact List.eq_of_mem_replicate hx

/-! ## one new map -/

/-- The effect of adding a map for the pages from `a` to `b`. -/
structure Added (m m' : GodefroidMemory) (a b : Nat) (pm : PolicyMemoryMap) : Prop where
  addressSize : m'.addressSize = m.addressSize
  pageShift : m'.pageShift = m.pageShift
  numObjs : m'.numObjs = m.numObjs + 1
  objs : m'.objs = Function.update m.objs m.numObjs (.policy pm)
  table : ∀ q, m'.memoryMaps.get? q =
    if a ≤ q ∧ q < b then some m.numObjs else m.memoryMaps.get? q

/-- The addresses `add_map` enters a map at, one for each of its pages. -/
theorem exists_pageStart {m : GodefroidMemory} (hA : m.addressSize = .x32)
    (hS : m.pageShift = 12) {a b : Nat} (hb : b ≤ 0x100000) (q : Nat) :
    (∃ x ∈ pageStarts m.pageSize (a * 0x1000) (b * 0x1000), m.page x = q) ↔ a ≤ q ∧ q < b := by
  have hsize : m.pageSize = 0x1000 := by simp only [pageSize_eq, hS, Nat.reducePow]
  have hcount : (b * 0x1000 - a * 0x1000 + (0x1000 - 1)) / 0x1000 = b - a := by omega
  have hpage : ∀ i, a + i < b → m.page (a * 0x1000 + i * 0x1000) = a + i := by
    intro i hi
    rw [page_of_lt m (by rw [hA]; simp only [AddressSize.bits]; omega), hS]
    omega
  rw [hsize, pageStarts, hcount]
  simp only [List.mem_map, List.mem_range, exists_exists_and_eq_and]
  constructor
  · rintro ⟨i, hi, rfl⟩
    rw [hpage i (by omega)]
    omega
  · intro hq
    exact ⟨q - a, by omega, by rw [hpage (q - a) (by omega)]; omega⟩

theorem addPolicyMap_ok {m : GodefroidMemory} (hA : m.addressSize = .x32) (hS : m.pageShift = 12)
    {a b : Nat} (hab : a < b) (hb : b ≤ 0x100000) (flags : MemoryFlags) (name : String) :
    ∃ m', addPolicyMap (a * 0x1000) (b * 0x1000) flags name m = .ok m.numObjs m' ∧
      Added m m' a b (PolicyMemoryMap.init (a * 0x1000) (b * 0x1000) (by omega) flags
        .default name) := by
  have hlt : a * 0x1000 < b * 0x1000 := by omega
  obtain ⟨t, ht, hget⟩ := addMap_ok (r := m.numObjs) (m := { m with
      objs := Function.update m.objs m.numObjs
        (.policy (PolicyMemoryMap.init (a * 0x1000) (b * 0x1000) hlt flags .default name))
      numObjs := m.numObjs + 1 }) (by
    simp only [Function.update_self, hS]
    exact ⟨a, Nat.mul_comm _ _⟩)
  refine ⟨{ m with
      objs := Function.update m.objs m.numObjs
        (.policy (PolicyMemoryMap.init (a * 0x1000) (b * 0x1000) hlt flags .default name))
      numObjs := m.numObjs + 1
      memoryMaps := t }, ?_, ⟨rfl, rfl, rfl, rfl, fun q => ?_⟩⟩
  · rw [addPolicyMap, dif_pos hlt, run_bind_ok (show alloc _ m = .ok _ _ from rfl),
      run_bind_ok ht]
    rfl
  · have hpages := exists_pageStart hA hS (a := a) hb q
    rw [hget]
    simp only [Function.update_self]
    refine if_congr ?_ rfl rfl
    exact hpages

/-- What the pages resolve to after a new map. -/
theorem Added.owner {m m' : GodefroidMemory} {a b : Nat} {pm : PolicyMemoryMap}
    (h : Added m m' a b pm) (hlt : ∀ q r, m.memoryMaps.get? q = some r → r < m.numObjs) (q : Nat) :
    owner m' q = if a ≤ q ∧ q < b then some m.numObjs else Section.owner m q := by
  by_cases hin : a ≤ q ∧ q < b
  · rw [if_pos hin, owner_eq_some, h.table, if_pos hin, h.objs]
    exact ⟨rfl, pm, by rw [Function.update_self]⟩
  · rw [if_neg hin, Section.owner, Section.owner, h.table, if_neg hin]
    cases hq : m.memoryMaps.get? q with
    | none => rfl
    | some r =>
        have hr : r ≠ m.numObjs := Nat.ne_of_lt (hlt q r hq)
        simp only [Option.filter_some, h.objs, Function.update_of_ne hr]

theorem Added.grows {m m' : GodefroidMemory} {a b : Nat} {pm : PolicyMemoryMap}
    (h : Added m m' a b pm) (hfree : ∀ r, m.numObjs ≤ r → m.objs r = .memoryMap)
    (hblank : Blank (.policy pm)) : Grows m m' where
  numObjs_le := by rw [h.numObjs]; omega
  objs r hr := by rw [h.objs, Function.update_of_ne (Nat.ne_of_lt hr)]
  fresh r hr := by
    rw [h.objs]
    by_cases he : r = m.numObjs
    · rw [he, Function.update_self]
      exact hblank
    · rw [Function.update_of_ne he, hfree r hr]
      exact blank_memoryMap

/-- Adding a map keeps the invariant. -/
theorem Laid.added {isMapped : Nat → Bool} {last : List Nat} {m m' : GodefroidMemory}
    {memMap : Option Nat} {a b : Nat} {flags : MemoryFlags} {name : String}
    {hab : a * 0x1000 < b * 0x1000} (h : Laid isMapped last m memMap)
    (hadd : Added m m' a b (PolicyMemoryMap.init (a * 0x1000) (b * 0x1000) hab flags
      .default name))
    (hflags : flags.read = true) {qs : List Nat} (hqs : ∀ q, q ∈ qs ↔ a ≤ q ∧ q < b) :
    Laid (fun q => isMapped q || decide (q ∈ qs)) qs m' (some m.numObjs) where
  addressSize := hadd.addressSize.trans h.addressSize
  pageShift := hadd.pageShift.trans h.pageShift
  table_lt q r hr := by
    rw [hadd.table] at hr
    rw [hadd.numObjs]
    split at hr
    · simp only [Option.some.injEq] at hr
      omega
    · have := h.table_lt q r hr
      omega
  free r hr := by
    rw [hadd.numObjs] at hr
    rw [hadd.objs, Function.update_of_ne (by omega), h.free r (by omega)]
  maps r pm hr := by
    rw [hadd.objs] at hr
    by_cases he : r = m.numObjs
    · rw [he, Function.update_self, GodefroidMap.policy.injEq] at hr
      subst hr
      exact ⟨List.length_replicate, rfl, hflags⟩
    · rw [Function.update_of_ne he] at hr
      exact h.maps r pm hr
  owned q := by
    rw [hadd.owner h.table_lt, ← h.owned q]
    by_cases hin : a ≤ q ∧ q < b
    · simp [if_pos hin, (hqs q).mpr hin]
    · simp [if_neg hin, mt (hqs q).mp hin]
  spans q r pm hq hr := by
    rw [hadd.owner h.table_lt] at hq
    rw [hadd.objs] at hr
    by_cases hin : a ≤ q ∧ q < b
    · rw [if_pos hin, Option.some.injEq] at hq
      subst hq
      rw [Function.update_self, GodefroidMap.policy.injEq] at hr
      subst hr
      simp only [Spans, PolicyMemoryMap.init]
      omega
    · rw [if_neg hin] at hq
      have hne : r ≠ m.numObjs := Nat.ne_of_lt (h.table_lt q r (owner_eq_some.mp hq).1)
      rw [Function.update_of_ne hne] at hr
      exact h.spans q r pm hq hr
  last_none hn := by contradiction
  last_some r hr := by
    simp only [Option.some.injEq] at hr
    subst hr
    refine ⟨_, by rw [hadd.objs, Function.update_self], fun q => ⟨?_, fun hq => ?_⟩⟩
    · rw [hqs]
      simp only [Spans, PolicyMemoryMap.init]
      omega
    · rw [hadd.owner h.table_lt, if_pos ((hqs q).mp hq)]

/-! ## the maps of one section -/

theorem Laid.congr {f g : Nat → Bool} {last last' : List Nat} {m : GodefroidMemory}
    {memMap : Option Nat} (h : Laid f last m memMap) (hf : ∀ q, f q = g q) (hl : last = last') :
    Laid g last' m memMap := by
  obtain rfl : f = g := funext hf
  exact hl ▸ h

/-- Probing a page tells whether it is mapped, and changes no page that is. -/
theorem canRead_ok {isMapped : Nat → Bool} {last : List Nat} {m : GodefroidMemory}
    {memMap : Option Nat} (h : Laid isMapped last m memMap) {q : Nat} (hq : q < 0x100000) :
    ∃ m', canRead (q * 0x1000) m = .ok (isMapped q) m' ∧ Laid isMapped last m' memMap ∧
      Grows m m' ∧ ∀ x, owner m' x = owner m x := by
  have hpage : m.page (q * 0x1000) = q := by
    rw [page_of_lt m (by rw [h.addressSize]; simp only [AddressSize.bits]; omega), h.pageShift]
    omega
  have hgrow : Grows m m := ⟨Nat.le_refl _, fun _ _ => rfl, fun r hr => by
    rw [h.free r hr]
    exact blank_memoryMap⟩
  cases ht : m.memoryMaps.get? q with
  | some r =>
      have hfind : findMap (q * 0x1000) m = .ok r m :=
        findMap_of_resolve (by rw [resolve, hpage, ht])
      refine ⟨m, ?_, h, hgrow, fun _ => rfl⟩
      rw [canRead, run_bind_ok hfind, run_get_bind, run_pure, ← h.owned q]
      congr 1
      cases ho : m.objs r with
      | memoryMap =>
          have : owner m q = none := by simp [owner, ht, ho, GodefroidMap.policyMap?]
          rw [this]
          rfl
      | policy pm =>
          have hown : owner m q = some r := owner_eq_some.mpr ⟨ht, pm, ho⟩
          have hread := (h.maps r pm ho).2.2
          have hspan := h.spans q r pm hown ho
          simp only [Spans] at hspan
          rw [hown]
          simp only [MemoryMap.canRead, GodefroidMap.policyMap?, Option.map_some, Option.getD_some,
            PolicyMemoryMap.canRead, PolicyMemoryMap.canDoOp, hread, Option.isSome_some,
            Bool.true_and, Bool.and_eq_true, decide_eq_true_eq]
          omega
  | none =>
      -- the probe enters a map of the base class for the page
      have hnone : owner m q = none := by simp [owner, ht]
      have hfind : findMap (q * 0x1000) m = .ok m.numObjs { m with
          objs := Function.update m.objs m.numObjs .memoryMap
          numObjs := m.numObjs + 1
          memoryMaps := m.memoryMaps.set q m.numObjs } := by
        simp only [findMap, run_get_bind]
        rw [hpage, ht]
        simp only [run_bind_ok (show alloc _ m = .ok _ _ from rfl), run_modify_bind, run_pure,
          setPage]
        have : page { m with
            objs := Function.update m.objs m.numObjs MemoryMap.new
            numObjs := m.numObjs + 1 } (q * 0x1000) = q := hpage
        rw [this]
        rfl
      have hobjs : Function.update m.objs m.numObjs .memoryMap = m.objs := by
        rw [← h.free m.numObjs (Nat.le_refl _), Function.update_eq_self]
      rw [hobjs] at hfind
      have howner : ∀ x, owner { m with
          numObjs := m.numObjs + 1
          memoryMaps := m.memoryMaps.set q m.numObjs } x = owner m x := by
        intro x
        simp only [owner, PyDict.get?_set]
        by_cases hx : x = q
        · rw [if_pos hx, hx, ht, Option.filter_some, h.free _ (Nat.le_refl _)]
          rfl
        · rw [if_neg hx]
      refine ⟨_, ?_, ?_, ?_, howner⟩
      · rw [canRead, run_bind_ok hfind, run_get_bind, run_pure, ← h.owned q, hnone]
        simp only [h.free _ (Nat.le_refl _)]
        rfl
      · refine ⟨h.addressSize, h.pageShift, fun x r hr => ?_, fun r hr => ?_, h.maps,
          fun x => by rw [howner, h.owned], fun x r pm hr => h.spans x r pm (by rwa [howner] at hr),
          h.last_none, fun r hr => ?_⟩
        · simp only [PyDict.get?_set] at hr
          split at hr
          · simp only [Option.some.injEq] at hr
            exact hr ▸ Nat.lt_succ_self _
          · exact Nat.lt_succ_of_lt (h.table_lt x r hr)
        · exact h.free r (Nat.le_of_succ_le hr)
        · obtain ⟨pm, hpm, hlast⟩ := h.last_some r hr
          exact ⟨pm, hpm, fun x => ⟨(hlast x).1, fun hx => by rw [howner, (hlast x).2 hx]⟩⟩
      · exact ⟨Nat.le_succ _, fun _ _ => rfl, hgrow.fresh⟩

theorem lastFresh_mapped {f : Nat → Bool} {q : Nat} {qs last : List Nat} (h : f q = true) :
    lastFresh f (q :: qs) last = lastFresh f qs last := by
  simp [lastFresh, h]

theorem lastFresh_fresh {f : Nat → Bool} {q : Nat} {qs last : List Nat} (h : f q = false)
    (hq : q ∉ qs) :
    lastFresh f (q :: qs) last = lastFresh (fun x => f x || decide (x ∈ [q])) qs [q] := by
  have hfilter : (qs.filter fun x => !(f x || decide (x ∈ [q]))) = qs.filter fun x => !f x := by
    refine List.filter_congr fun x hx => ?_
    have hne : x ≠ q := fun he => hq (he ▸ hx)
    simp [hne]
  simp only [lastFresh, hfilter]
  cases hl : (qs.filter fun x => !f x).getLast? with
  | none => simp [h, List.getLast?_cons, hl]
  | some x => simp [h, List.getLast?_cons, hl]

/-- The loop over the pages of a section. -/
theorem mapPages_ok {flags : MemoryFlags} (hflags : flags.read = true) (name : String)
    (qs : List Nat) :
    ∀ (isMapped : Nat → Bool) (last : List Nat) (m : GodefroidMemory) (memMap : Option Nat),
      Laid isMapped last m memMap → qs.Nodup → (∀ q ∈ qs, q < 0x100000) →
      ∃ memMap' m', mapPages flags name (qs.map (· * 0x1000)) memMap m = .ok memMap' m' ∧
        Laid (fun q => isMapped q || decide (q ∈ qs)) (lastFresh isMapped qs last) m' memMap' ∧
        Grows m m' ∧ ∀ q, isMapped q = true → owner m' q = owner m q := by
  induction qs with
  | nil =>
      intro isMapped last m memMap h _ _
      refine ⟨memMap, m, rfl, h.congr (fun q => by simp) rfl,
        ⟨Nat.le_refl _, fun _ _ => rfl, fun r hr => ?_⟩, fun _ _ => rfl⟩
      rw [h.free r hr]
      exact blank_memoryMap
  | cons q qs ih =>
      intro isMapped last m memMap h hnd hlt
      rw [List.nodup_cons] at hnd
      have hq := hlt q List.mem_cons_self
      have hlt' : ∀ x ∈ qs, x < 0x100000 := fun x hx => hlt x (List.mem_cons_of_mem _ hx)
      obtain ⟨m₁, hread, h₁, hgrow₁, howner₁⟩ := canRead_ok h hq
      cases hm : isMapped q with
      | true =>
          obtain ⟨memMap', m', hrun, h', hgrow, howner⟩ := ih isMapped last m₁ memMap h₁ hnd.2 hlt'
          refine ⟨memMap', m', ?_, h'.congr (fun x => ?_) (lastFresh_mapped hm).symm,
            hgrow₁.trans hgrow, fun x hx => by rw [howner x hx, howner₁]⟩
          · rw [List.map_cons, mapPages, run_bind_ok hread, hm, if_pos rfl, hrun]
          · by_cases hx : x = q
            · simp [hx, hm]
            · simp [hx]
      | false =>
          obtain ⟨m₂, hnew, hadd⟩ := addPolicyMap_ok h₁.addressSize h₁.pageShift
            (Nat.lt_succ_self q) hq flags name
          have hpages : ∀ x, x ∈ [q] ↔ q ≤ x ∧ x < q + 1 := fun x => by
            rw [List.mem_singleton]
            omega
          have h₂ := h₁.added hadd hflags hpages
          obtain ⟨memMap', m', hrun, h', hgrow, howner⟩ :=
            ih _ _ m₂ _ h₂ hnd.2 hlt'
          refine ⟨memMap', m', ?_, h'.congr (fun x => ?_) (lastFresh_fresh hm hnd.1).symm,
            hgrow₁.trans ((hadd.grows h₁.free (blank_init _ _ _ _ _ _)).trans hgrow),
            fun x hx => ?_⟩
          · have hpage : q * 0x1000 + 0x1000 = (q + 1) * 0x1000 := by omega
            rw [List.map_cons, mapPages, run_bind_ok hread, hm, if_neg (by simp), hpage,
              run_bind_ok hnew, hrun]
          · simp [Bool.or_assoc]
          · have hxq : x ≠ q := fun he => by rw [he, hm] at hx; contradiction
            rw [howner x (by simp [hx]), hadd.owner h₁.table_lt, if_neg (by omega), howner₁]

/-- A section whose pages can be mapped and found again: not empty, below `2^32`, and readable. -/
structure Mappable (s : Section) : Prop where
  size_pos : 0 < s.size
  le_limit : s.start + s.size ≤ 2 ^ 32
  readable : s.flags.read = true

/-- Such a section with as many bytes of content as it has, if it has content. -/
structure Valid (s : Section) : Prop extends Mappable s where
  length_content : ∀ c, s.content = some c → c.length = s.size

/-- What the maps of one section change. -/
structure SectionMapped (s : Section) (before : List Section) (m m' : GodefroidMemory)
    (memMap' : Option Nat) : Prop where
  laid : Laid (mapped (s :: before)) (lastPages (s :: before)) m' memMap'
  grows : Grows m m'
  /-- A mapped page stays with its map, unless the section is a stack over it. -/
  keep : ∀ q, mapped before q = true → (s.isStack = true → q ∉ s.pages) → owner m' q = owner m q
  /-- A stack takes its pages over. -/
  take : s.isStack = true → ∀ q ∈ s.pages, ∃ r, m.numObjs ≤ r ∧ owner m' q = some r

theorem mapped_cons (s : Section) (before : List Section) (q : Nat) :
    (mapped before q || decide (q ∈ s.pages)) = mapped (s :: before) q := by
  rw [mapped, mapped, List.any_cons, Bool.or_comm]

/-- **The maps of one section.** -/
theorem mapSection_ok {s : Section} (hs : s.Mappable) {before : List Section} {m : GodefroidMemory}
    {memMap : Option Nat} (h : Laid (mapped before) (lastPages before) m memMap) :
    ∃ memMap' m', mapSection s memMap m = .ok memMap' m' ∧
      SectionMapped s before m m' memMap' := by
  have hpos := hs.size_pos
  have hlimit := hs.le_limit
  have hlast : (s.start + s.size + 0xFFF) / 0x1000 ≤ 0x100000 := by omega
  unfold mapSection
  cases hstack : s.isStack with
  | true =>
      rw [if_pos rfl]
      have halign : ∀ a, alignDown a = a / 0x1000 * 0x1000 := fun a => by
        rw [alignDown, Nat.shiftRight_eq_div_pow, Nat.shiftLeft_eq]
      obtain ⟨m', hnew, hadd⟩ := addPolicyMap_ok h.addressSize h.pageShift
        (a := s.start / 0x1000) (b := (s.start + s.size + 0xFFF) / 0x1000) (by omega) hlast
        s.flags s.name
      have hmem : ∀ q, q ∈ s.pages ↔
          s.start / 0x1000 ≤ q ∧ q < (s.start + s.size + 0xFFF) / 0x1000 := fun q => mem_pages
      refine ⟨some m.numObjs, m', ?_, ?_⟩
      · rw [pageStart, pageEnd, halign, halign, run_bind_ok hnew]
        rfl
      · refine ⟨(h.added hadd hs.readable hmem).congr (mapped_cons s before) ?_,
          hadd.grows h.free (blank_init _ _ _ _ _ _), fun q _ hq => ?_, fun _ q hq => ?_⟩
        · rw [lastPages, if_pos hstack]
        · rw [hadd.owner h.table_lt, if_neg fun hc => hq hstack ((hmem q).mpr hc)]
        · exact ⟨m.numObjs, Nat.le_refl _, by rw [hadd.owner h.table_lt, if_pos ((hmem q).mp hq)]⟩
  | false =>
      rw [if_neg (by simp), pageStarts_eq]
      have hnd : s.pages.Nodup := by
        rw [pages]
        exact List.nodup_range'
      have hlt : ∀ q ∈ s.pages, q < 0x100000 := fun q hq => by
        have := (mem_pages.mp hq).2
        omega
      obtain ⟨memMap', m', hrun, h', hgrow, howner⟩ :=
        mapPages_ok hs.readable s.name s.pages _ _ m memMap h hnd hlt
      refine ⟨memMap', m', hrun, ⟨h'.congr (mapped_cons s before) ?_, hgrow,
        fun q hq _ => howner q hq, fun hc => ?_⟩⟩
      · rw [lastPages, if_neg (by simp [hstack])]
      · rw [hstack] at hc
        contradiction

end Section

end Microx
