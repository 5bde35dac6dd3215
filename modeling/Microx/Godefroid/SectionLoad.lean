import Microx.Godefroid.SectionMaps

/-!
# Microx.Godefroid.SectionLoad

When sections load faithfully.

Content is stored through the map created last, so it lands where it belongs
exactly when that map spans the section; and it stays there unless a later
stack takes one of its pages over.  `loadsFaithfully_iff`: the sections load
faithfully whatever their content is, if and only if the layout is
`WellPlaced`.
-/

namespace Microx

namespace Section

open Memory Hoare

/-! ## bytes of the memory -/

/-- The byte of the policy map the page of an address resolves to. -/
def byteAt (m : GodefroidMemory) (a : Nat) : Option Byte :=
  (owner m (a / 0x1000)).bind fun r => (m.objs r).policyMap?.map (·.byteAt a)

theorem byteAt_of_owner {m : GodefroidMemory} {a r : Nat} {pm : PolicyMemoryMap}
    (h : owner m (a / 0x1000) = some r) (ho : m.objs r = .policy pm) :
    byteAt m a = some (pm.byteAt a) := by
  rw [byteAt, h, Option.bind_some, ho]
  rfl

/-- Loading one byte of a mapped page. -/
theorem load_byte {f : Nat → Bool} {last : List Nat} {m : GodefroidMemory} {memMap : Option Nat}
    (h : Laid f last m memMap) {a : Nat} (ha : a < 2 ^ 32) {b : Byte} (hb : byteAt m a = some b) :
    load a 1 m = .ok [b] m := by
  obtain ⟨r, hown, hmap⟩ := Option.bind_eq_some_iff.mp hb
  obtain ⟨ht, pm, ho⟩ := owner_eq_some.mp hown
  rw [ho] at hmap
  obtain rfl : pm.byteAt a = b := Option.some.inj hmap
  have hpage : m.page a = a / 0x1000 := by
    rw [page_of_lt m (by rw [h.addressSize]; exact ha)]
    simp only [h.pageShift, Nat.reducePow]
  have hfind : findMap a m = .ok r m := findMap_of_resolve (by rw [resolve, hpage, ht])
  have hunit : isUnit a 1 m = .ok true m := by
    rw [isUnit, if_pos (by simp), run_bind_ok (show crossesPages a 1 m = .ok false m from by
      rw [crossesPages, run_bind_ok hfind]
      rfl)]
    rfl
  have hspan := h.spans _ r pm hown ho
  obtain ⟨hwf, hpol, -⟩ := h.maps r pm ho
  have hc : pm.Contains a 1 := by
    simp only [Spans] at hspan
    exact ⟨hwf, by omega, by omega⟩
  have hload : PolicyMemoryMap.loadUnit a 1 (pm, m.shared) = .ok [pm.byteAt a] (pm, m.shared) := by
    have hpolicy : PolicyMemoryMap.loadPolicy a 1 (pm, m.shared) = .ok () (pm, m.shared) := by
      have : PolicyMemoryMap.handleLoad a (pm, m.shared) = .ok false (pm, m.shared) := by
        simp [PolicyMemoryMap.handleLoad, hpol]
      rw [PolicyMemoryMap.loadPolicy, run_bind_ok this]
      rfl
    rw [PolicyMemoryMap.loadUnit, run_bind_ok hpolicy, PolicyMemoryMap.readData, run_get_bind,
      run_pure]
    simp only [PolicyMemoryMap.slice_eq hc]
    rfl
  rw [load, run_bind_ok hunit]
  simp only [if_true, run_bind_ok hfind]
  simp only [invoke, MemoryMap.loadByte, ho, GodefroidMap.onPolicy, hload]
  rw [← ho, Function.update_eq_self]

/-! ## content -/

/-- The same map with other bytes. -/
structure SameKind (pm pm' : PolicyMemoryMap) : Prop where
  base : pm'.base = pm.base
  limit : pm'.limit = pm.limit
  policy : pm'.policy = pm.policy
  accessFlags : pm'.accessFlags = pm.accessFlags
  length : pm'.data.length = pm.data.length

theorem sameKind_putBytes (pm : PolicyMemoryMap) (addr : Nat) (data : List Byte) :
    SameKind pm (pm.putBytes addr data).1 :=
  ⟨rfl, rfl, rfl, rfl, PyList.length_writeFrom _ _ _⟩

/-- `m` with other bytes in the map `r`. -/
def withMap (m : GodefroidMemory) (r : Nat) (pm : PolicyMemoryMap) : GodefroidMemory :=
  { m with objs := Function.update m.objs r (.policy pm) }

@[simp] theorem objs_withMap (m : GodefroidMemory) (r : Nat) (pm : PolicyMemoryMap) :
    (withMap m r pm).objs = Function.update m.objs r (.policy pm) := rfl

theorem owner_withMap {m : GodefroidMemory} {r : Nat} {pm : PolicyMemoryMap}
    (pm' : PolicyMemoryMap) (ho : m.objs r = .policy pm) (q : Nat) :
    owner (withMap m r pm') q = owner m q := by
  have htable : (withMap m r pm').memoryMaps = m.memoryMaps := rfl
  rw [owner, owner, htable]
  cases m.memoryMaps.get? q with
  | none => rfl
  | some x =>
      rw [Option.filter_some, Option.filter_some, objs_withMap]
      by_cases hx : x = r
      · rw [hx, Function.update_self, ho]
        rfl
      · rw [Function.update_of_ne hx]

/-- Other bytes keep the invariant. -/
theorem Laid.withMap {f : Nat → Bool} {last : List Nat} {m : GodefroidMemory}
    {memMap : Option Nat} (h : Laid f last m memMap) {r : Nat} {pm pm' : PolicyMemoryMap}
    (ho : m.objs r = .policy pm) (hk : SameKind pm pm') :
    Laid f last (withMap m r pm') memMap := by
  have hspans : ∀ q, Spans pm' q ↔ Spans pm q := fun q => by
    rw [Spans, Spans, hk.base, hk.limit]
  refine ⟨h.addressSize, h.pageShift, h.table_lt, fun x hx => ?_, fun x px hx => ?_,
    fun q => by rw [owner_withMap pm' ho, h.owned], fun q x px hq hx => ?_, h.last_none,
    fun x hx => ?_⟩
  · have hne : x ≠ r := fun he => by
      rw [← he, h.free x hx] at ho
      contradiction
    rw [objs_withMap, Function.update_of_ne hne, h.free x hx]
  · by_cases he : x = r
    · subst he
      simp only [objs_withMap, Function.update_self, GodefroidMap.policy.injEq] at hx
      subst hx
      obtain ⟨hwf, hpol, hread⟩ := h.maps x pm ho
      have hlen : pm.data.length = pm.limit - pm.base := hwf
      exact ⟨by rw [PolicyMemoryMap.WellFormed, hk.length, hk.limit, hk.base, hlen],
        hk.policy.trans hpol, by rw [hk.accessFlags, hread]⟩
    · simp only [objs_withMap, Function.update_of_ne he] at hx
      exact h.maps x px hx
  · rw [owner_withMap pm' ho] at hq
    by_cases he : x = r
    · subst he
      simp only [objs_withMap, Function.update_self, GodefroidMap.policy.injEq] at hx
      subst hx
      exact (hspans q).mpr (h.spans q x pm hq ho)
    · simp only [objs_withMap, Function.update_of_ne he] at hx
      exact h.spans q x px hq hx
  · obtain ⟨px, hpx, hlast⟩ := h.last_some x hx
    by_cases he : x = r
    · subst he
      rw [ho, GodefroidMap.policy.injEq] at hpx
      subst hpx
      refine ⟨pm', by simp, fun q => ⟨?_, fun hq => ?_⟩⟩
      · rw [hspans, (hlast q).1]
      · rw [owner_withMap pm' ho, (hlast q).2 hq]
    · refine ⟨px, by simp [Function.update_of_ne he, hpx],
        fun q => ⟨(hlast q).1, fun hq => ?_⟩⟩
      rw [owner_withMap pm' ho, (hlast q).2 hq]

/-- Storing content to a policy map. -/
theorem invoke_storeBytesRaw {m : GodefroidMemory} {r : Nat} {pm : PolicyMemoryMap}
    (ho : m.objs r = .policy pm) (start : Nat) (c : List Byte) :
    invoke r (GodefroidMap.onPolicy .attributeError (PolicyMemoryMap.storeBytesRaw start c)) m =
      if (pm.putBytes start c).2 then .ok () (withMap m r (pm.putBytes start c).1)
      else .error .indexError (withMap m r (pm.putBytes start c).1) := by
  simp only [invoke, GodefroidMap.onPolicy, ho, PolicyMemoryMap.storeBytesRaw]
  cases (pm.putBytes start c).2 <;> rfl

/-- However it is placed, content goes to the map created last. -/
theorem writeContent_frame {s : Section} {m m' : GodefroidMemory} {memMap : Option Nat}
    (h : writeContent s memMap m = .ok () m') :
    m' = m ∨ ∃ c r pm, s.content = some c ∧ memMap = some r ∧ m.objs r = .policy pm ∧
      m' = withMap m r (pm.putBytes s.start c).1 := by
  cases hc : s.content with
  | none =>
      simp only [writeContent, hc, run_pure, EStateM.Result.ok.injEq, true_and] at h
      exact Or.inl h.symm
  | some c =>
      cases c with
      | nil =>
          simp only [writeContent, hc, run_pure, EStateM.Result.ok.injEq, true_and] at h
          exact Or.inl h.symm
      | cons b c =>
          cases hm : memMap with
          | none => simp [writeContent, hc, hm] at h
          | some r =>
              simp only [writeContent, hc, hm] at h
              cases ho : m.objs r with
              | memoryMap => simp [invoke, GodefroidMap.onPolicy, ho] at h
              | policy pm =>
                  rw [invoke_storeBytesRaw ho] at h
                  split at h
                  · simp only [EStateM.Result.ok.injEq, true_and] at h
                    exact Or.inr ⟨b :: c, r, pm, rfl, rfl, ho, h.symm⟩
                  · contradiction

/-- A map that spans the pages of a section contains it. -/
theorem contains_of_spans {s : Section} {pm : PolicyMemoryMap} (hpos : 0 < s.size)
    (hwf : pm.WellFormed) (h : ∀ q ∈ s.pages, Spans pm q) : pm.Contains s.start s.size := by
  have hfirst := h _ (page_mem (s := s) (i := 0) hpos)
  have hlast := h _ (page_mem (s := s) (i := s.size - 1) (by omega))
  simp only [Spans] at hfirst hlast
  exact ⟨hwf, by omega, by omega⟩

/-- Content stored to a map that spans the section. -/
theorem writeContent_ok {s : Section} {m : GodefroidMemory} {r : Nat} {pm : PolicyMemoryMap}
    {c : List Byte} (hs : s.Valid) (hc : s.content = some c) (ho : m.objs r = .policy pm)
    (hwf : pm.WellFormed) (h : ∀ q ∈ s.pages, Spans pm q) :
    writeContent s (some r) m = .ok () (withMap m r (pm.putBytes s.start c).1) := by
  have hlen : c.length = s.size := hs.length_content c hc
  have hcont : pm.Contains s.start c.length := hlen ▸ contains_of_spans hs.size_pos hwf h
  have hok : (pm.putBytes s.start c).2 = true := by
    simp only [PolicyMemoryMap.putBytes, hcont.offset_eq]
    exact PyList.writeFrom_ok hcont.fits
  cases c with
  | nil =>
      have := hs.size_pos
      rw [← hlen] at this
      contradiction
  | cons b c => simp only [writeContent, hc, invoke_storeBytesRaw ho, hok, if_true]

/-! ## well-placed sections load -/

/-- Every section with content lies in the pages of the map created last when its content is
stored, and no later stack takes a page of it over. -/
def WellPlaced (sections : List Section) : Prop :=
  ∀ before s after, sections = before ++ s :: after → s.content ≠ none →
    (∀ q ∈ s.pages, q ∈ lastPages (s :: before.reverse)) ∧
      ∀ t ∈ after, t.isStack = true → ∀ q ∈ s.pages, q ∉ t.pages

/-- The byte ranges of two sections have no byte in common. -/
def Apart (s t : Section) : Prop := s.start + s.size ≤ t.start ∨ t.start + t.size ≤ s.start

/-- The content of the sections so far is in place. -/
def Placed (before : List Section) (m : GodefroidMemory) : Prop :=
  ∀ s ∈ before, ∀ bs, s.content = some bs → ∀ i < s.size, byteAt m (s.start + i) = bs[i]?

/-- A section that is well placed keeps what is in place, and puts its content in place. -/
theorem Placed.step {s : Section} {before : List Section} {m : GodefroidMemory}
    {memMap : Option Nat} (hs : s.Valid)
    (hapart : ∀ t ∈ before, Apart t s)
    (hlast : s.content ≠ none → ∀ q ∈ s.pages, q ∈ lastPages (s :: before))
    (hstack : s.isStack = true → ∀ t ∈ before, t.content ≠ none → ∀ q ∈ t.pages, q ∉ s.pages)
    (h : Laid (mapped before) (lastPages before) m memMap) (hp : Placed before m) :
    ∃ memMap' m₁ m', mapSection s memMap m = .ok memMap' m₁ ∧
      writeContent s memMap' m₁ = .ok () m' ∧
      Laid (mapped (s :: before)) (lastPages (s :: before)) m' memMap' ∧
      Placed (s :: before) m' := by
  obtain ⟨memMap', m₁, hmap, hsec⟩ := mapSection_ok hs.toMappable h
  -- the new maps leave the earlier content where it is
  have hkeep : Placed before m₁ := by
    intro t ht c hc i hi
    rw [← hp t ht c hc i hi]
    have hpage : (t.start + i) / 0x1000 ∈ t.pages := page_mem hi
    have hmapped : mapped before ((t.start + i) / 0x1000) = true :=
      List.any_eq_true.mpr ⟨t, ht, by simpa using hpage⟩
    have hown := hsec.keep _ hmapped fun hst =>
      hstack hst t ht (by rw [hc]; simp) _ hpage
    rw [byteAt, byteAt, hown]
    cases ho : owner m ((t.start + i) / 0x1000) with
    | none => rfl
    | some r => rw [Option.bind_some, Option.bind_some,
        hsec.grows.objs r (h.table_lt _ r (owner_eq_some.mp ho).1)]
  cases hc : s.content with
  | none =>
      refine ⟨memMap', m₁, m₁, hmap, by rw [writeContent, hc]; rfl, hsec.laid, fun t ht c' hc' => ?_⟩
      rcases List.mem_cons.mp ht with rfl | ht
      · rw [hc] at hc'
        contradiction
      · exact hkeep t ht c' hc'
  | some bs =>
      have hlast' := hlast (by rw [hc]; simp)
      have hlen : bs.length = s.size := hs.length_content bs hc
      cases hm : memMap' with
      | none =>
          have hnil := hsec.laid.last_none hm
          have := hlast' _ (page_mem (s := s) (i := 0) hs.size_pos)
          rw [hnil] at this
          contradiction
      | some r =>
          obtain ⟨pm, ho, hpages⟩ := hsec.laid.last_some r hm
          obtain ⟨hwf, -, -⟩ := hsec.laid.maps r pm ho
          have hspans : ∀ q ∈ s.pages, Spans pm q := fun q hq => (hpages q).1.mp (hlast' q hq)
          have hcont : pm.Contains s.start bs.length :=
            hlen ▸ contains_of_spans hs.size_pos hwf hspans
          refine ⟨some r, m₁, _, hm ▸ hmap, writeContent_ok hs hc ho hwf hspans,
            (hm ▸ hsec.laid).withMap ho (sameKind_putBytes pm s.start bs), ?_⟩
          -- bytes of the memory after the store
          have hbyte : ∀ a, byteAt (withMap m₁ r (pm.putBytes s.start bs).1) a =
              if s.start ≤ a ∧ a < s.start + s.size ∧ owner m₁ (a / 0x1000) = some r
              then bs[a - s.start]? else byteAt m₁ a := by
            intro a
            cases hown : owner m₁ (a / 0x1000) with
            | none => simp [byteAt, owner_withMap _ ho, hown]
            | some x =>
                by_cases hx : x = r
                · subst hx
                  have hbase := (hsec.laid.spans _ x pm hown ho).1
                  rw [byteAt_of_owner (by rw [owner_withMap _ ho, hown])
                    (by rw [objs_withMap, Function.update_self]), byteAt_of_owner hown ho,
                    PolicyMemoryMap.byteAt_putBytes hcont (by omega), hlen]
                  by_cases hin : s.start ≤ a ∧ a < s.start + s.size
                  · rw [if_pos hin, if_pos ⟨hin.1, hin.2, rfl⟩, List.getD_eq_getElem?_getD,
                      List.getElem?_eq_getElem (by omega), Option.getD_some]
                  · rw [if_neg hin, if_neg fun hc => hin ⟨hc.1, hc.2.1⟩]
                · rw [if_neg fun hc => hx (Option.some.inj hc.2.2), byteAt, byteAt,
                    owner_withMap _ ho, hown, Option.bind_some, Option.bind_some, objs_withMap,
                    Function.update_of_ne hx]
          intro t ht c' hc' i hi
          rw [hbyte]
          rcases List.mem_cons.mp ht with rfl | ht
          · rw [hc, Option.some.injEq] at hc'
            subst hc'
            rw [if_pos ⟨by omega, by omega, (hpages _).2 (hlast' _ (page_mem hi))⟩]
            congr 1
            omega
          · have := hapart t ht
            simp only [Apart] at this
            rw [if_neg (by omega), hkeep t ht c' hc' i hi]

/-- The loop over sections that are well placed. -/
theorem loadSections_ok (rest : List Section) :
    ∀ (before : List Section) (m : GodefroidMemory) (memMap : Option Nat),
      (∀ s ∈ before.reverse ++ rest, s.Valid) → (before.reverse ++ rest).Pairwise Apart →
      WellPlaced (before.reverse ++ rest) →
      Laid (mapped before) (lastPages before) m memMap → Placed before m →
      ∃ m' memMap', loadSections rest memMap m = .ok () m' ∧
        Laid (mapped (rest.reverse ++ before)) (lastPages (rest.reverse ++ before)) m' memMap' ∧
        Placed (rest.reverse ++ before) m' := by
  induction rest with
  | nil => exact fun before m memMap _ _ _ h hp => ⟨m, memMap, rfl, h, hp⟩
  | cons s rest ih =>
      intro before m memMap hvalid hapart hwell h hp
      obtain ⟨memMap', m₁, m', hmap, hwrite, h', hp'⟩ := hp.step (hvalid s (by simp))
        (fun t ht => (List.pairwise_append.mp hapart).2.2 t (List.mem_reverse.mpr ht) s
          List.mem_cons_self)
        (fun hc q hq => by
          have := (hwell before.reverse s rest rfl hc).1 q hq
          rwa [List.reverse_reverse] at this)
        (fun hst t ht hc q hq => by
          obtain ⟨l₁, l₂, hl⟩ := List.append_of_mem (List.mem_reverse.mpr ht)
          refine (hwell l₁ t (l₂ ++ s :: rest) ?_ hc).2 s (by simp) hst q hq
          rw [hl, List.append_assoc, List.cons_append])
        h
      obtain ⟨m₂, memMap₂, hrun, h₂, hp₂⟩ := ih (s :: before) m' memMap'
        (by simpa using hvalid) (by simpa using hapart) (by simpa using hwell) h' hp'
      refine ⟨m₂, memMap₂, ?_, by simpa using h₂, by simpa using hp₂⟩
      rw [loadSections, run_bind_ok hmap, run_bind_ok hwrite, hrun]

/-! ## sections that load are well placed -/

/-- The section has no byte of content other than zero. -/
def Zero (s : Section) : Prop := ∀ c, s.content = some c → ∀ x ∈ c, x = 0

/-- All objects but `r` are blank. -/
def BlankBut (r : Option Nat) (m : GodefroidMemory) : Prop :=
  ∀ x, r ≠ some x → Blank (m.objs x)

theorem Grows.blankBut {m m' : GodefroidMemory} {r : Option Nat} (h : Grows m m')
    (hb : BlankBut r m) : BlankBut r m' := by
  intro x hx
  by_cases hlt : x < m.numObjs
  · rw [h.objs x hlt]
    exact hb x hx
  · exact h.fresh x (Nat.le_of_not_lt hlt)

/-- Storing content leaves the pages as they are, and blanks the map it goes to at most if it is
not zero. -/
theorem writeContent_blank {s : Section} {f : Nat → Bool} {last : List Nat}
    {m m' : GodefroidMemory} {memMap r : Option Nat} (h : Laid f last m memMap)
    (hr : s.Zero ∨ memMap = r) (hb : BlankBut r m) (hrun : writeContent s memMap m = .ok () m') :
    Laid f last m' memMap ∧ BlankBut r m' ∧ (∀ q, owner m' q = owner m q) ∧
      m'.numObjs = m.numObjs := by
  rcases writeContent_frame hrun with rfl | ⟨c, k, pm, hc, hk, ho, rfl⟩
  · exact ⟨h, hb, fun _ => rfl, rfl⟩
  · refine ⟨h.withMap ho (sameKind_putBytes _ _ _), fun x hx => ?_,
      fun q => owner_withMap _ ho q, rfl⟩
    rw [objs_withMap]
    by_cases hxk : x = k
    · subst hxk
      rw [Function.update_self]
      rcases hr with hzero | rfl
      · rintro pm' ⟨⟩ y hy
        rcases PyList.mem_writeFrom hy with hd | hd
        · exact hb x hx pm ho y hd
        · exact hzero c hc y hd
      · exact absurd hk hx
    · rw [Function.update_of_ne hxk]
      exact hb x hx

/-- A loop that returns went through its first section. -/
theorem loadSections_cons {s : Section} {rest : List Section} {m m' : GodefroidMemory}
    {memMap : Option Nat} (h : loadSections (s :: rest) memMap m = .ok () m') :
    ∃ memMap' m₁ m₂, mapSection s memMap m = .ok memMap' m₁ ∧
      writeContent s memMap' m₁ = .ok () m₂ ∧ loadSections rest memMap' m₂ = .ok () m' := by
  obtain ⟨memMap', m₁, hmap, h⟩ := bind_eq_ok.mp h
  obtain ⟨u, m₂, hwrite, h⟩ := bind_eq_ok.mp h
  exact ⟨memMap', m₁, m₂, hmap, hwrite, h⟩

/-- The sections before the marked one leave all objects blank. -/
theorem loadSections_before (before : List Section) :
    ∀ (done rest : List Section) (m m' : GodefroidMemory) (memMap : Option Nat),
      (∀ s ∈ before, s.Valid ∧ s.Zero) → Laid (mapped done) (lastPages done) m memMap →
      BlankBut none m → loadSections (before ++ rest) memMap m = .ok () m' →
      ∃ m₁ memMap₁, Laid (mapped (before.reverse ++ done)) (lastPages (before.reverse ++ done))
          m₁ memMap₁ ∧
        BlankBut none m₁ ∧ loadSections rest memMap₁ m₁ = .ok () m' := by
  induction before with
  | nil => exact fun done rest m m' memMap _ h hb hrun => ⟨m, memMap, h, hb, hrun⟩
  | cons s before ih =>
      intro done rest m m' memMap hall h hb hrun
      obtain ⟨hvalid, hzero⟩ := hall s List.mem_cons_self
      obtain ⟨memMap', m₁, m₂, hmap, hwrite, hrest⟩ := loadSections_cons hrun
      obtain ⟨memMap₁, m₁', hmap', hsec⟩ := mapSection_ok hvalid.toMappable h
      rw [hmap, EStateM.Result.ok.injEq] at hmap'
      obtain ⟨rfl, rfl⟩ := hmap'
      obtain ⟨h₂, hb₂, -, -⟩ := writeContent_blank hsec.laid (Or.inl hzero)
        (hsec.grows.blankBut hb) hwrite
      obtain ⟨m₃, memMap₃, h₃, hb₃, hrun₃⟩ := ih (s :: done) rest m₂ m' memMap'
        (fun t ht => hall t (List.mem_cons_of_mem _ ht)) h₂ hb₂ hrest
      exact ⟨m₃, memMap₃, by simpa using h₃, hb₃, hrun₃⟩

/-- Since there were `n` objects, the page has stayed with `r`, or a stack has taken it over. -/
def Stays (n : Nat) (r : Option Nat) (q : Nat) (after : List Section) (m : GodefroidMemory) :
    Prop :=
  (owner m q = r ∧ ∀ t ∈ after, t.isStack = true → q ∉ t.pages) ∨
    ∃ x, n ≤ x ∧ owner m q = some x

theorem Stays.step {n : Nat} {r : Option Nat} {q : Nat} {past : List Section}
    {m m' : GodefroidMemory} {s : Section} {done : List Section} {memMap' : Option Nat}
    (h : Stays n r q past m) (hn : n ≤ m.numObjs) (hq : mapped done q = true)
    (hsec : SectionMapped s done m m' memMap') : Stays n r q (past ++ [s]) m' := by
  by_cases htake : s.isStack = true ∧ q ∈ s.pages
  · obtain ⟨x, hx, hown⟩ := hsec.take htake.1 q htake.2
    exact Or.inr ⟨x, hn.trans hx, hown⟩
  · have hkeep := hsec.keep q hq fun hst hmem => htake ⟨hst, hmem⟩
    rcases h with ⟨hown, hpast⟩ | ⟨x, hx, hown⟩
    · refine Or.inl ⟨hkeep.trans hown, fun t ht hst hmem => ?_⟩
      rcases List.mem_append.mp ht with ht | ht
      · exact hpast t ht hst hmem
      · obtain rfl := List.mem_singleton.mp ht
        exact htake ⟨hst, hmem⟩
    · exact Or.inr ⟨x, hx, hkeep.trans hown⟩

/-- The sections after the marked one leave all objects but its own blank, and take over no page
but by a stack. -/
theorem loadSections_after {n q : Nat} {r k : Option Nat} (after : List Section) :
    ∀ (done past : List Section) (m m' : GodefroidMemory) (memMap : Option Nat),
      (∀ s ∈ after, s.Valid ∧ s.Zero) → Laid (mapped done) (lastPages done) m memMap →
      BlankBut r m → n ≤ m.numObjs → mapped done q = true → Stays n k q past m →
      loadSections after memMap m = .ok () m' →
      (∃ f last memMap', Laid f last m' memMap' ∧ f q = true) ∧ BlankBut r m' ∧
        Stays n k q (past ++ after) m' := by
  induction after with
  | nil =>
      intro done past m m' memMap _ h hb _ hq hst hrun
      simp only [loadSections, run_pure, EStateM.Result.ok.injEq, true_and] at hrun
      subst hrun
      exact ⟨⟨_, _, memMap, h, hq⟩, hb, by simpa using hst⟩
  | cons s after ih =>
      intro done past m m' memMap hall h hb hn hq hst hrun
      obtain ⟨hvalid, hzero⟩ := hall s List.mem_cons_self
      obtain ⟨memMap', m₁, m₂, hmap, hwrite, hrest⟩ := loadSections_cons hrun
      obtain ⟨memMap₁, m₁', hmap', hsec⟩ := mapSection_ok hvalid.toMappable h
      rw [hmap, EStateM.Result.ok.injEq] at hmap'
      obtain ⟨rfl, rfl⟩ := hmap'
      obtain ⟨h₂, hb₂, hown₂, hnum₂⟩ := writeContent_blank hsec.laid (Or.inl hzero)
        (hsec.grows.blankBut hb) hwrite
      have hst₂ : Stays n k q (past ++ [s]) m₂ := by
        have := hst.step hn hq hsec
        rwa [Stays, ← hown₂] at this
      have hq₂ : mapped (s :: done) q = true := by
        rw [← mapped_cons, hq, Bool.true_or]
      have hn₂ : n ≤ m₂.numObjs := by
        rw [hnum₂]
        exact hn.trans hsec.grows.numObjs_le
      have := ih (s :: done) (past ++ [s]) m₂ m' memMap'
        (fun t ht => hall t (List.mem_cons_of_mem _ ht)) h₂ hb₂ hn₂ hq₂ hst₂ hrest
      simpa using this

/-- Every page of a section has a byte of it. -/
theorem exists_byte {s : Section} (hpos : 0 < s.size) {q : Nat} (hq : q ∈ s.pages) :
    ∃ i < s.size, (s.start + i) / 0x1000 = q := by
  rw [mem_pages] at hq
  exact ⟨max s.start (q * 0x1000) - s.start, by omega, by omega⟩

/-- What `create_memory_from_sections` is for: it returns a memory in which every byte of every
content can be loaded. -/
def LoadsFaithfully (sections : List Section) : Prop :=
  ∃ m, createMemoryFromSections sections = .ok () m ∧
    ∀ s ∈ sections, ∀ bs, s.content = some bs → ∀ i < s.size, ∃ b,
      bs[i]? = some b ∧ load (s.start + i) 1 m = .ok [b] m

/-- A section whose content is all ones among sections without such bytes is well placed if the
sections load. -/
theorem wellPlaced_of_loads (before after : List Section) {s : Section} (hs : s.Valid)
    (hone : ∀ c, s.content = some c → ∀ x ∈ c, x = 1) (hsome : s.content ≠ none)
    (hbefore : ∀ t ∈ before, t.Valid ∧ t.Zero) (hafter : ∀ t ∈ after, t.Valid ∧ t.Zero)
    (h : LoadsFaithfully (before ++ s :: after)) :
    (∀ q ∈ s.pages, q ∈ lastPages (s :: before.reverse)) ∧
      ∀ t ∈ after, t.isStack = true → ∀ q ∈ s.pages, q ∉ t.pages := by
  obtain ⟨c, hc⟩ := Option.ne_none_iff_exists'.mp hsome
  obtain ⟨m, hrun, hload⟩ := h
  -- the state when the section's content has been stored
  obtain ⟨m₀, memMap₀, h₀, hb₀, hrun₀⟩ := loadSections_before before [] (s :: after) newMemory m
    none hbefore laid_newMemory (fun x _ => blank_memoryMap) hrun
  rw [List.append_nil] at h₀
  obtain ⟨memMap₁, m₁, m₂, hmap, hwrite, hrest⟩ := loadSections_cons hrun₀
  obtain ⟨memMap₁', m₁', hmap', hsec⟩ := mapSection_ok hs.toMappable h₀
  rw [hmap, EStateM.Result.ok.injEq] at hmap'
  obtain ⟨rfl, rfl⟩ := hmap'
  obtain ⟨h₂, hb₂, hown₂, hnum₂⟩ := writeContent_blank hsec.laid (Or.inr rfl)
    (fun x _ => hsec.grows.blankBut hb₀ x (by simp)) hwrite
  -- a byte of the section is read from the map its content went to
  have hpage : ∀ q ∈ s.pages, q ∈ lastPages (s :: before.reverse) ∧
      ∀ t ∈ after, t.isStack = true → q ∉ t.pages := by
    intro q hq
    obtain ⟨i, hi, rfl⟩ := exists_byte hs.size_pos hq
    have hq₂ : mapped (s :: before.reverse) ((s.start + i) / 0x1000) = true :=
      List.any_eq_true.mpr ⟨s, List.mem_cons_self, by simpa using hq⟩
    obtain ⟨⟨f, last, memMap', h', hf⟩, hb', hst'⟩ :=
      loadSections_after (n := m₂.numObjs) (k := owner m₂ ((s.start + i) / 0x1000)) after _ [] m₂
        m memMap₁ hafter h₂ hb₂ (Nat.le_refl _) hq₂ (Or.inl ⟨rfl, by simp⟩) hrest
    obtain ⟨x, hx⟩ := Option.isSome_iff_exists.mp ((h'.owned _).trans hf)
    obtain ⟨-, pm, ho⟩ := owner_eq_some.mp hx
    obtain ⟨b, hcb, hlb⟩ := hload s (by simp) c hc i hi
    have hb1 : b = 1 := hone c hc b (List.mem_of_getElem? hcb)
    have hlb' := load_byte h' (by have := hs.le_limit; omega) (byteAt_of_owner hx ho)
    rw [hlb, EStateM.Result.ok.injEq] at hlb'
    obtain ⟨hbyte, -⟩ := hlb'
    have hne : memMap₁ = some x := by
      by_contra hne
      have hzero := hb' x hne pm ho
      have : pm.byteAt (s.start + i) = 0 := by
        rw [PolicyMemoryMap.byteAt, List.getD_eq_getElem?_getD]
        cases hd : pm.data[s.start + i - pm.base]? with
        | none => rfl
        | some y => exact hzero y (List.mem_of_getElem? hd)
      rw [this, hb1] at hbyte
      simp at hbyte
    obtain ⟨pm₂, hpm₂, hlast⟩ := h₂.last_some x hne
    have hlt : x < m₂.numObjs := by
      by_contra hge
      rw [h₂.free x (Nat.le_of_not_lt hge)] at hpm₂
      contradiction
    rw [List.nil_append] at hst'
    rcases hst' with ⟨hown, hafter'⟩ | ⟨y, hy, hown⟩
    · refine ⟨?_, hafter'⟩
      rw [hx] at hown
      exact (hlast _).1.mpr (h₂.spans _ x pm₂ hown.symm hpm₂)
    · rw [hx, Option.some.injEq] at hown
      omega
  exact ⟨fun q hq => (hpage q hq).1, fun t ht hst q hq => (hpage q hq).2 t ht hst⟩

/-! ## which layouts load -/

/-- Which sections are well placed depends on the layout alone. -/
theorem WellPlaced.of_layout {sections sections' : List Section}
    (h : WellPlaced sections) (hl : sections'.map layout = sections.map layout) :
    WellPlaced sections' := by
  intro before' s' after' hsplit hc
  rw [hsplit, List.map_append, List.map_cons] at hl
  obtain ⟨before, rest, rfl, hbefore, hrest⟩ := List.map_eq_append_iff.mp hl.symm
  obtain ⟨s, after, rfl, hs, hafter⟩ := List.map_eq_cons_iff.mp hrest
  have hpages : ∀ {x y : Section}, layout x = layout y → x.pages = y.pages := fun hxy => by
    simp only [layout, Section.mk.injEq] at hxy
    rw [pages, pages, hxy.2.1, hxy.2.2.1]
  have hcs : s.content ≠ none := by
    simp only [layout, Section.mk.injEq] at hs
    intro hn
    rw [hn] at hs
    exact hc (Option.map_eq_none_iff.mp hs.2.2.2.2.symm)
  obtain ⟨hlast, hstack⟩ := h before s after rfl hcs
  have hlastEq : lastPages (s' :: before'.reverse) = lastPages (s :: before.reverse) := by
    rw [← lastPages_layout (s' :: before'.reverse), ← lastPages_layout (s :: before.reverse),
      List.map_cons, List.map_cons, List.map_reverse, List.map_reverse, hbefore, hs]
  refine ⟨fun q hq => ?_, fun t' ht' hst q hq => ?_⟩
  · rw [hlastEq]
    exact hlast q (hpages hs ▸ hq)
  · have hmem : layout t' ∈ after.map layout := by
      rw [hafter]
      exact List.mem_map_of_mem ht'
    obtain ⟨t, ht, htl⟩ := List.mem_map.mp hmem
    have hname : t.isStack = true := by
      simp only [layout, Section.mk.injEq] at htl
      rw [isStack, htl.1]
      exact hst
    rw [← hpages htl]
    exact hstack t ht hname q (hpages hs ▸ hq)

/-- The section with all bytes of its content replaced. -/
def fill (b : Byte) (s : Section) : Section :=
  { s with content := s.content.map fun _ => List.replicate s.size b }

theorem content_fill {b : Byte} {s : Section} {c : List Byte} (h : (s.fill b).content = some c) :
    c = List.replicate s.size b := by
  obtain ⟨_, -, rfl⟩ := Option.map_eq_some_iff.mp h
  rfl

theorem layout_fill (b : Byte) (s : Section) : (s.fill b).layout = s.layout := by
  simp [fill, layout, Function.comp_def]

theorem Valid.fill {s : Section} (h : s.Valid) (b : Byte) : (s.fill b).Valid :=
  ⟨⟨h.size_pos, h.le_limit, h.readable⟩, fun c hc => by
    rw [content_fill hc, List.length_replicate]
    rfl⟩

theorem zero_fill (s : Section) : (s.fill 0).Zero := fun c hc x hx => by
  rw [content_fill hc] at hx
  exact List.eq_of_mem_replicate hx

/-- Sections that are well placed load. -/
theorem loadsFaithfully_of_wellPlaced {sections : List Section} (hvalid : ∀ s ∈ sections, s.Valid)
    (hapart : sections.Pairwise Apart) (h : WellPlaced sections) : LoadsFaithfully sections := by
  obtain ⟨m, memMap, hrun, hlaid, hplaced⟩ := loadSections_ok sections [] newMemory none
    hvalid hapart h laid_newMemory (by simp [Placed])
  refine ⟨m, hrun, fun s hs bs hbs i hi => ?_⟩
  have hlen := (hvalid s hs).length_content bs hbs
  have hlimit := (hvalid s hs).le_limit
  have hbyte := hplaced s (by simpa using hs) bs hbs i hi
  have hget : bs[i]? = some bs[i] := List.getElem?_eq_getElem (by omega)
  exact ⟨bs[i], hget, load_byte hlaid (by omega) (hbyte.trans hget)⟩

/-- **Sections load faithfully**, whatever their content is, if and only if they are well
placed. -/
theorem loadsFaithfully_iff {sections : List Section} (hvalid : ∀ s ∈ sections, s.Valid)
    (hapart : sections.Pairwise Apart) :
    (∀ sections', sections'.map layout = sections.map layout → (∀ s ∈ sections', s.Valid) →
      LoadsFaithfully sections') ↔ WellPlaced sections := by
  have hapart_layout : ∀ sections' : List Section, sections'.map layout = sections.map layout →
      sections'.Pairwise Apart := by
    intro sections' hl
    have h1 : (sections.map layout).Pairwise Apart := List.pairwise_map.mpr hapart
    rw [← hl] at h1
    exact (List.pairwise_map (f := layout)).mp h1
  constructor
  · intro h before s after hsplit hc
    -- the section's content all ones, the other contents all zeros
    have hmem : ∀ t ∈ before ++ s :: after, t.Valid := fun t ht => hvalid t (hsplit ▸ ht)
    have hl : (before.map (fill 0) ++ s.fill 1 :: after.map (fill 0)).map layout =
        sections.map layout := by
      simp [hsplit, Function.comp_def, layout_fill]
    have hload := h _ hl (by
      intro t ht
      simp only [List.mem_append, List.mem_map, List.mem_cons] at ht
      rcases ht with ⟨u, hu, rfl⟩ | rfl | ⟨u, hu, rfl⟩
      · exact (hmem u (by simp [hu])).fill 0
      · exact (hmem s (by simp)).fill 1
      · exact (hmem u (by simp [hu])).fill 0)
    have hzero : ∀ l : List Section, (∀ t ∈ l, t.Valid) →
        ∀ t ∈ l.map (fill 0), t.Valid ∧ t.Zero := by
      intro l hl t ht
      obtain ⟨u, hu, rfl⟩ := List.mem_map.mp ht
      exact ⟨(hl u hu).fill 0, zero_fill u⟩
    obtain ⟨hlast, hstack⟩ := wellPlaced_of_loads _ _ ((hmem s (by simp)).fill 1)
      (fun c hc x hx => List.eq_of_mem_replicate (content_fill hc ▸ hx))
      (by simpa [fill] using hc) (hzero before fun t ht => hmem t (by simp [ht]))
      (hzero after fun t ht => hmem t (by simp [ht])) hload
    refine ⟨fun q hq => ?_, fun t ht hst q hq => hstack (t.fill 0) (List.mem_map_of_mem ht) hst q hq⟩
    have := hlast q hq
    rwa [← lastPages_layout, List.map_cons, List.map_reverse, List.map_map,
      show layout ∘ fill 0 = layout from funext (layout_fill 0), layout_fill, ← List.map_reverse,
      ← List.map_cons, lastPages_layout] at this
  · intro h sections' hl hvalid'
    exact loadsFaithfully_of_wellPlaced hvalid' (hapart_layout sections' hl) (h.of_layout hl)

/-- Two sections, the second of which takes over no page with content. -/
theorem wellPlaced_pair {s t : Section} (hs : ∀ q ∈ s.pages, q ∈ lastPages [s])
    (hkeep : t.isStack = true → ∀ q ∈ s.pages, q ∉ t.pages)
    (ht : t.content ≠ none → ∀ q ∈ t.pages, q ∈ lastPages [t, s]) : WellPlaced [s, t] := by
  intro before x after hsplit hcontent
  cases before with
  | nil =>
      obtain ⟨rfl, rfl⟩ := List.cons.inj hsplit
      refine ⟨hs, fun y hy => ?_⟩
      rw [List.mem_singleton.mp hy]
      exact hkeep
  | cons y before =>
      obtain ⟨rfl, hrest⟩ := List.cons.inj hsplit
      cases before with
      | nil =>
          obtain ⟨rfl, rfl⟩ := List.cons.inj hrest
          exact ⟨ht hcontent, by simp⟩
      | cons z before => simp at hrest

/-- A program inside one page, and a stack with content that crosses into the next. -/
def textAndStack : List Section :=
  [⟨".text", 0x1000, 2, ⟨true, false, true⟩, some [0x90, 0xc3]⟩,
    ⟨"[stack]", 0x2FFE, 4, ⟨true, true, false⟩, some [1, 2, 3, 4]⟩]

theorem loadsFaithfully_textAndStack : textAndStack.Pairwise Apart ∧ WellPlaced textAndStack ∧
    ∀ sections', sections'.map layout = textAndStack.map layout → (∀ s ∈ sections', s.Valid) →
      LoadsFaithfully sections' := by
  have hvalid : ∀ s ∈ textAndStack, s.Valid := by
    intro s hs
    simp only [textAndStack, List.mem_cons, List.not_mem_nil, or_false] at hs
    rcases hs with rfl | rfl <;> exact ⟨⟨by decide, by decide, rfl⟩, by rintro c ⟨⟩; rfl⟩
  have hapart : textAndStack.Pairwise Apart :=
    List.pairwise_pair.mpr (.inl (show 0x1000 + 2 ≤ 0x2FFE by decide))
  have hwell : WellPlaced textAndStack :=
    wellPlaced_pair (by decide) (fun _ => by decide) fun _ => by decide
  exact ⟨hapart, hwell, (loadsFaithfully_iff hvalid hapart).mpr hwell⟩

/-- A section of two bytes, the last of one page and the first of the next. -/
def twoPages : Section := ⟨".text", 0xFFF, 2, ⟨true, false, true⟩, some [1, 1]⟩

/-- **Content that crosses a page is lost**: the section has as much content as bytes, and does not
load. -/
theorem twoPages_lost : twoPages.Valid ∧ [twoPages].Pairwise Apart ∧
    ¬LoadsFaithfully [twoPages] := by
  have hvalid : twoPages.Valid := ⟨⟨by decide, by decide, rfl⟩, by rintro c ⟨⟩; rfl⟩
  refine ⟨hvalid, List.pairwise_singleton _ _, fun h => ?_⟩
  have hlast := (wellPlaced_of_loads [] [] hvalid
    (by rintro c ⟨⟩ x hx; simpa using hx) (by simp [twoPages]) (by simp) (by simp) h).1 0 (by decide)
  exact absurd hlast (by decide)

end Section

end Microx
