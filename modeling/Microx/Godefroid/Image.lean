import Microx.Godefroid.Start

/-!
# Microx.Godefroid.Image

`make_stack_section`, and what becomes of the image of a binary in the process
that `run_on_binary` makes.

The stack goes below the image if it fits there, and above it otherwise, and
takes no page of the image.  The input space goes to the last page in use: a
process can be made exactly when there is room behind that page
(`makeNewProcess_succeeds_iff`), and the image keeps its pages exactly when the
stack is above it (`image_kept_iff`).
-/

namespace Microx

open Hoare Memory Section

/-- `STACK_SIZE`. -/
def stackSize : Nat := 8 * 1024 * 1024

/-- The section of a stack. -/
def stackAt (start : Nat) : Section := ⟨"[stack]", start, stackSize, ⟨true, true, false⟩, none⟩

/-- `make_stack_section`, for a loader with the addresses from `min_addr` to `max_addr`. -/
def makeStackSection (minAddr maxAddr : Nat) : Option Section :=
  if (minAddr : Int) - 0x40000 > stackSize then some (stackAt 0x40000)
  else if (0xFFFFFFFF : Int) - (maxAddr + 0x40000) > stackSize then
    some (stackAt (alignDown (maxAddr + 0xFFF) + 0x40000))
  else none

/-- The addresses of the image. -/
structure Loads (image : List Section) (minAddr maxAddr : Nat) : Prop where
  mappable : ∀ s ∈ image, s.Mappable
  nonempty : image ≠ []
  min_le : ∀ s ∈ image, minAddr ≤ s.start
  le_max : ∀ s ∈ image, s.start + s.size ≤ maxAddr + 1

variable {image : List Section} {stack : Section} {minAddr maxAddr : Nat}

/-- Where the stack is. -/
theorem makeStackSection_eq (h : makeStackSection minAddr maxAddr = some stack) :
    (0x40000 + stackSize < minAddr ∧ stack = stackAt 0x40000) ∨
      (minAddr ≤ 0x40000 + stackSize ∧ maxAddr + 0x40000 + stackSize < 0xFFFFFFFF ∧
        stack = stackAt ((maxAddr + 0xFFF) / 0x1000 * 0x1000 + 0x40000)) := by
  unfold makeStackSection at h
  split at h
  · exact .inl ⟨by omega, (Option.some.inj h).symm⟩
  · split at h
    · refine .inr ⟨by omega, by omega, ?_⟩
      rw [← Option.some.inj h, alignDown_eq]
    · cases h

/-- The stack is a section that can be loaded. -/
theorem makeStackSection_mappable (h : makeStackSection minAddr maxAddr = some stack) :
    stack.Mappable := by
  have hsize : stackSize = 0x800000 := rfl
  obtain ⟨-, rfl⟩ | ⟨-, hroom, rfl⟩ := makeStackSection_eq h
  · exact ⟨by decide, by decide, rfl⟩
  · refine ⟨show 0 < stackSize by decide, ?_, rfl⟩
    simp only [stackAt, hsize] at hroom ⊢
    omega

/-- The stack takes no page of the image. -/
theorem makeStackSection_apart (h : makeStackSection minAddr maxAddr = some stack)
    (hload : Loads image minAddr maxAddr) {s : Section} (hs : s ∈ image) {q q' : Nat}
    (hq : q ∈ s.pages) (hq' : q' ∈ stack.pages) :
    (0x40000 + stackSize < minAddr ∧ q' < q) ∨ (minAddr ≤ 0x40000 + stackSize ∧ q < q') := by
  have hsize : stackSize = 0x800000 := rfl
  have hmin := hload.min_le s hs
  have hmax := hload.le_max s hs
  rw [mem_pages] at hq hq'
  obtain ⟨hbelow, rfl⟩ | ⟨habove, -, rfl⟩ := makeStackSection_eq h
  · refine .inl ⟨hbelow, ?_⟩
    simp only [stackAt, hsize] at hq' hbelow
    omega
  · refine .inr ⟨habove, ?_⟩
    simp only [stackAt, hsize] at hq'
    omega

/-- The names that `GodefroidProcess` looks for are not in the image. -/
def NamesApart (image : List Section) : Prop :=
  ∀ s ∈ image, s.name ≠ "[stack]" ∧ s.name ≠ "[input_space]"

/-- What `run_on_binary` makes a process of. -/
structure ImageLoaded (image : List Section) (minAddr maxAddr : Nat) (stack : Section)
    (m : GodefroidMemory) : Prop where
  loads : Loads image minAddr maxAddr
  names : NamesApart image
  made : makeStackSection minAddr maxAddr = some stack
  run : createMemoryFromSections (image ++ [stack]) = .ok () m

/-! ## the map of the stack -/

/-- Loading sections in front of others comes first, and leaves the maps paged. -/
theorem loadSections_append {P : Nat → Prop} {N : String → Prop} {rest : List Section}
    {m' : GodefroidMemory} (before : List Section) :
    ∀ memMap m, (∀ s ∈ before, s.Mappable ∧ N s.name ∧ ∀ q ∈ s.pages, P q) → Paged P N m →
      loadSections (before ++ rest) memMap m = .ok () m' →
      ∃ memMap₁ m₁, Paged P N m₁ ∧ loadSections rest memMap₁ m₁ = .ok () m' := by
  induction before with
  | nil => exact fun memMap m _ h hrun => ⟨memMap, m, h, hrun⟩
  | cons s before ih =>
      intro memMap m hall h hrun
      obtain ⟨hs, hname, hpages⟩ := hall s List.mem_cons_self
      obtain ⟨memMap', m₁, m₂, hmap, hwrite, hrest⟩ := loadSections_cons hrun
      have h₁ := mapSection_paged hs memMap hname hpages m h
      rw [hmap] at h₁
      have h₂ := writeContent_paged s memMap' m₁ h₁
      rw [hwrite] at h₂
      exact ih memMap' m₂ (fun t ht => hall t (List.mem_cons_of_mem _ ht)) h₂ hrest

/-- The map is the only one with the name of the stack, and has all its pages. -/
structure IsStackMap (stack : Section) (m : GodefroidMemory) (r : Nat) (pm : PolicyMemoryMap) :
    Prop where
  mapped : ∀ q ∈ stack.pages, m.memoryMaps.get? q = some r
  map : m.objs r = .policy pm
  name : pm.name = "[stack]"
  base : pm.base = stack.start
  limit : pm.limit = stack.start + stackSize
  only : ∀ x px, m.objs x = .policy px → px.name = "[stack]" → x = r

/-- Behind the sections of an image, `create_memory_from_sections` maps the stack. -/
theorem ImageLoaded.stackMap {m : GodefroidMemory} (h : ImageLoaded image minAddr maxAddr stack m) :
    ∃ r pm, IsStackMap stack m r pm := by
  have hsize : stackSize = 0x800000 := rfl
  have hmappable := makeStackSection_mappable h.made
  obtain ⟨start, rfl, halign⟩ : ∃ start, stack = stackAt start ∧ start % 0x1000 = 0 := by
    obtain ⟨-, rfl⟩ | ⟨-, -, rfl⟩ := makeStackSection_eq h.made
    · exact ⟨_, rfl, by decide⟩
    · exact ⟨_, rfl, by omega⟩
  obtain ⟨memMap, m₁, hpaged, hrest⟩ := loadSections_append (P := fun _ => True)
    (N := (· ≠ "[stack]")) image none newMemory
    (fun s hs => ⟨h.loads.mappable s hs, (h.names s hs).1, fun _ _ => trivial⟩)
    ⟨rfl, rfl, fun _ _ _ => trivial, fun r pm hr => by cases hr⟩ h.run
  obtain ⟨memMap', m₂, m₃, hmap, hwrite, hdone⟩ := loadSections_cons hrest
  obtain ⟨-, rfl⟩ := EStateM.Result.ok.inj hdone
  obtain rfl : m₂ = m₃ := (EStateM.Result.ok.inj hwrite).2
  have hlimit : start + stackSize ≤ 2 ^ 32 := hmappable.le_limit
  obtain ⟨m', hadd, hadded⟩ := addPolicyMap_ok hpaged.addressSize hpaged.pageShift
    (a := start / 0x1000) (b := (start + stackSize + 0xFFF) / 0x1000) (by omega) (by omega)
    ⟨true, true, false⟩ "[stack]"
  have hsection : mapSection (stackAt start) memMap m₁ = .ok (some m₁.numObjs) m' := by
    rw [mapSection, if_pos (show (stackAt start).isStack = true from rfl), pageStart, pageEnd,
      alignDown_eq, alignDown_eq]
    exact run_bind_ok hadd
  rw [hmap] at hsection
  obtain ⟨-, rfl⟩ := EStateM.Result.ok.inj hsection
  have hlt : start / 0x1000 * 0x1000 < (start + stackSize + 0xFFF) / 0x1000 * 0x1000 := by omega
  refine ⟨m₁.numObjs, .init _ _ hlt ⟨true, true, false⟩ .default "[stack]",
    fun q hq => ?_, ?_, rfl, ?_, ?_, fun x px hx hname => ?_⟩
  · exact (hadded.table q).trans (if_pos (mem_pages.mp hq))
  · rw [hadded.objs, Function.update_self]
  · simp only [PolicyMemoryMap.init, stackAt]
    omega
  · simp only [PolicyMemoryMap.init, stackAt]
    omega
  · obtain ⟨-, rfl⟩ | hold := hadded.policyMap hx
    · rfl
    · exact absurd hname (hpaged.map x px hold).1

/-! ## the image in a process -/

/-- The pages of the image still belong to the maps they belonged to. -/
def KeepsImage (image : List Section) (m m' : GodefroidMemory) : Prop :=
  ∀ s ∈ image, ∀ q ∈ s.pages, m'.memoryMaps.get? q = m.memoryMaps.get? q

/-- A memory of sections with other names has no input space. -/
theorem not_hasInputSpace {P : Nat → Prop} {N : String → Prop} {m : GodefroidMemory}
    (h : Paged P N m) (hN : ¬ N "[input_space]") : ¬ HasInputSpace m := by
  obtain ⟨found, hfound, hmem⟩ := mem_collectByName (m := m) "[input_space]"
    (m.memoryMaps.entries.map Prod.snd) (fun _ _ => rfl) ∅
  refine fun hhas => hhas (hfound.trans (congrArg Except.ok (Finset.eq_empty_of_forall_notMem ?_)))
  intro r hr
  obtain hnone | ⟨-, hname⟩ := (hmem r).mp hr
  · exact absurd hnone (Finset.notMem_empty r)
  · cases hobj : m.objs r with
    | memoryMap =>
        rw [hobj] at hname
        exact absurd (Option.some.inj hname) (by decide)
    | policy pm =>
        rw [hobj] at hname
        have hpm := (h.map r pm hobj).1
        rw [show pm.name = "[input_space]" from Option.some.inj hname] at hpm
        exact hN hpm

namespace ImageLoaded

variable {m : GodefroidMemory} (h : ImageLoaded image minAddr maxAddr stack m)

include h

theorem mappable : ∀ s ∈ image ++ [stack], s.Mappable := by
  intro s hs
  obtain hs | hs := List.mem_append.mp hs
  · exact h.loads.mappable s hs
  · rw [List.mem_singleton.mp hs]
    exact makeStackSection_mappable h.made

theorem laidOut : LaidOut m := createMemoryFromSections_laidOut h.mappable h.run

theorem paged : Paged (fun q => ∃ s ∈ image ++ [stack], q ∈ s.pages)
    (fun n => ∃ s ∈ image ++ [stack], s.name = n) m :=
  createMemoryFromSections_paged h.mappable h.run

/-- There is no input space yet. -/
theorem noInputs : ¬ ∃ s ∈ image ++ [stack], s.name = "[input_space]" := by
  rintro ⟨s, hs, hname⟩
  obtain hs | hs := List.mem_append.mp hs
  · exact (h.names s hs).2 hname
  · rw [List.mem_singleton.mp hs] at hname
    obtain ⟨-, rfl⟩ | ⟨-, -, rfl⟩ := makeStackSection_eq h.made
    · exact absurd hname (by decide)
    · exact absurd hname (show ¬ "[stack]" = "[input_space]" by decide)

theorem not_hasInputSpace_copy : ¬ HasInputSpace (copyMemory m) := by
  rw [HasInputSpace, findMapsByName_copyMemory]
  exact not_hasInputSpace h.paged h.noInputs

/-- The pages of the sections are in use. -/
theorem mem_keys {s : Section} (hs : s ∈ image ++ [stack]) {q : Nat} (hq : q ∈ s.pages) :
    q ∈ (copyMemory m).memoryMaps.keys := by
  obtain ⟨r, hr⟩ := createMemoryFromSections_mapped h.mappable h.run hs hq
  refine (PyDict.mem_keys_iff _ q).mpr ?_
  rw [show (copyMemory m).memoryMaps.get? q = some r from hr]
  rfl

/-- Only pages of the sections are in use. -/
theorem exists_section {q : Nat} (hq : q ∈ (copyMemory m).memoryMaps.keys) :
    ∃ s ∈ image ++ [stack], q ∈ s.pages := by
  obtain ⟨r, hr⟩ := Option.isSome_iff_exists.mp ((PyDict.mem_keys_iff _ q).mp hq)
  exact h.paged.page q r hr

theorem keys_ne : (copyMemory m).memoryMaps.keys ≠ [] :=
  List.ne_nil_of_mem (h.mem_keys (List.mem_append_right _ (List.mem_singleton_self stack))
    (page_mem (i := 0) (makeStackSection_mappable h.made).size_pos))

/-- The last page in use, and where the sections end. -/
theorem last_lt_iff {last : Nat} (hmem : last ∈ (copyMemory m).memoryMaps.keys)
    (hmax : ∀ q ∈ (copyMemory m).memoryMaps.keys, q ≤ last) :
    last < 0xFEF70 ↔ ∀ s ∈ image ++ [stack], s.start + s.size ≤ 0xFEF70000 := by
  constructor
  · intro hlast s hs
    have hpos := (h.mappable s hs).size_pos
    have hle := hmax _ (h.mem_keys hs (page_mem (i := s.size - 1) (by omega)))
    omega
  · intro hends
    obtain ⟨s, hs, hq⟩ := h.exists_section hmem
    have hend := hends s hs
    rw [mem_pages] at hq
    omega

/-- The stack and the input space, after the input space was mapped. -/
theorem theMaps {m₁ : GodefroidMemory} {last : Nat} (htakes : TakesLast (copyMemory m) m₁ last) :
    (∃ r pm, IsTheMap m₁ "[stack]" r pm ∧ pm.base = stack.start ∧
      pm.limit = stack.start + stackSize) ∧ ∃ r pm, IsTheMap m₁ "[input_space]" r pm := by
  obtain ⟨r, pm, hr⟩ := h.stackMap
  have hnew {x : Nat} {px : PolicyMemoryMap} (hx : m₁.objs x = .policy px) :
      (px.name = "[input_space]" ∧ x = (copyMemory m).numObjs) ∨
        ∃ old, m.objs x = .policy old ∧ px = old.deepcopy := by
    obtain ⟨rfl, rfl⟩ | hold := htakes.added.policyMap hx
    · exact .inl ⟨rfl, rfl⟩
    · exact .inr (deepcopy_eq_policy hold)
  refine ⟨⟨r, pm.deepcopy, ⟨?_, ?_, hr.name, ?_⟩, hr.base, hr.limit⟩, (copyMemory m).numObjs,
    .init _ _ (inputSpace_lt last) ⟨true, true, false⟩ .default "[input_space]",
    ⟨last, ?_⟩, ?_, rfl, ?_⟩
  · -- the stack has a page before the last one
    have hsize : stack.size = 0x800000 := by
      obtain ⟨-, rfl⟩ | ⟨-, -, rfl⟩ := makeStackSection_eq h.made <;> rfl
    have hstack := List.mem_append_right image (List.mem_singleton_self stack)
    have hfirst := page_mem (s := stack) (i := 0) (by omega)
    have hlast := htakes.max _ (h.mem_keys hstack (page_mem (i := 0x1000) (by omega)))
    refine ⟨_, (htakes.added.table _).trans ((if_neg ?_).trans (hr.mapped _ hfirst))⟩
    omega
  · have hlt : r < m.numObjs := by
      have hfirst := page_mem (s := stack) (i := 0) (makeStackSection_mappable h.made).size_pos
      exact h.laidOut.table_lt _ _ (hr.mapped _ hfirst)
    rw [htakes.added.objs]
    refine (Function.update_of_ne (Nat.ne_of_lt hlt) ..).trans ?_
    exact congrArg GodefroidMap.deepcopy hr.map
  · intro q x px hq hx hname
    obtain ⟨hinputs, -⟩ | ⟨old, hold, rfl⟩ := hnew hx
    · exact absurd (hname.symm.trans hinputs) (by decide)
    · exact hr.only x old hold hname
  · rw [htakes.added.table, if_pos ⟨Nat.le_refl _, by omega⟩]
  · rw [htakes.added.objs, Function.update_self]
  · intro q x px hq hx hname
    obtain ⟨-, rfl⟩ | ⟨old, hold, rfl⟩ := hnew hx
    · rfl
    · obtain ⟨s, hs, hsname⟩ := (h.paged.map x old hold).1
      exact absurd ⟨s, hs, hsname.trans hname⟩ h.noInputs

end ImageLoaded

/-- The middle of a stack is in it. -/
theorem middle_mem {base : Nat} (hbase : base % 0x100 = 0) :
    base ≤ middle base (base + stackSize) ∧
      middle base (base + stackSize) + 4 < base + stackSize := by
  have hsize : stackSize = 0x800000 := rfl
  rw [middle, Nat.shiftRight_eq_div_pow, Nat.shiftLeft_eq]
  omega

variable {runner : GodefroidRunner} {entropy : Nat → Byte}

/-- If there is room behind the sections, a process is made. -/
theorem ImageLoaded.exists_process (h : ImageLoaded image minAddr maxAddr stack runner.memory)
    (hsp : runner.initialSp = none) (hmagic : ∀ v, runner.magicReturn = some v → v < 2 ^ 32)
    (hroom : ∀ s ∈ image ++ [stack], s.start + s.size ≤ 0xFEF70000) :
    ∃ sp m, runner.makeNewProcess entropy (copyMemory runner.memory) = .ok sp m := by
  have hlaid := h.laidOut.copyMemory
  obtain ⟨last, hmem, hmax, hspace⟩ :=
    mapInputSpace_run hlaid h.not_hasInputSpace_copy h.keys_ne
  rw [if_pos ((h.last_lt_iff hmem hmax).mpr hroom)] at hspace
  obtain ⟨m₁, hrun, htakes⟩ := hspace
  obtain ⟨⟨r, pmS, hstack, hbase, hlimit⟩, r', pmI, hinputs⟩ := h.theMaps htakes
  have hlaid₁ := mapInputSpace_laidOut hlaid hrun
  have hmiddle : pmS.base ≤ middle pmS.base pmS.limit ∧
      middle pmS.base pmS.limit + 4 < pmS.limit := by
    rw [hlimit, hbase]
    refine middle_mem ?_
    obtain ⟨-, rfl⟩ | ⟨-, -, rfl⟩ := makeStackSection_eq h.made
    · decide
    · simp only [stackAt]
      omega
  have hmade := initProcess_run entropy runner.initialSp hrun hlaid₁.addressSize hstack hinputs rfl
  rw [hsp, Option.getD_none, if_pos ⟨by omega, hmiddle.2⟩] at hmade
  obtain ⟨policy, hinit, hmade⟩ := hmade
  obtain ⟨m', hrun'⟩ := makeNewProcess_run hinit hlaid₁.addressSize
    ⟨hlaid₁.wellFormed r pmS hstack.map, hmiddle.1, Nat.le_of_lt hmiddle.2⟩ hmagic
    (hsp.symm ▸ hmade)
  exact ⟨_, m', hrun'⟩

/-- The page belongs to the input space. -/
def InInputSpace (m : GodefroidMemory) (q : Nat) : Prop :=
  ∃ r pm, m.memoryMaps.get? q = some r ∧ m.objs r = .policy pm ∧ pm.name = "[input_space]"

/-- A process has its input space at the last page of the sections. -/
theorem ImageLoaded.takesLast {sp : Nat} {m : GodefroidMemory}
    (h : ImageLoaded image minAddr maxAddr stack runner.memory)
    (hrun : runner.makeNewProcess entropy (copyMemory runner.memory) = .ok sp m) :
    ∃ m₁ last, TakesLast (copyMemory runner.memory) m₁ last ∧ m.memoryMaps = m₁.memoryMaps ∧
      InInputSpace m last := by
  obtain ⟨m₁, stack', inputs, pmS, pmI, policy, hmakes, rfl⟩ :=
    makeNewProcess_ok h.laidOut.copyMemory hrun
  obtain ⟨-, hhas⟩ | ⟨-, last, htakes⟩ := mapInputSpace_ok h.laidOut.copyMemory hmakes.space
  · exact absurd hhas h.not_hasInputSpace_copy
  · refine ⟨m₁, last, htakes, rfl, inputs, pmI.attachPolicy, ?_, Function.update_self ..,
      hmakes.inputs.name⟩
    rw [← (hmakes.inputs_eq htakes).1]
    exact (htakes.added.table last).trans (if_pos ⟨Nat.le_refl _, by omega⟩)

/-- The text of a program, at a page of its own. -/
def textAt (start : Nat) : List Section :=
  [⟨".text", start, 2, ⟨true, false, true⟩, some [0x90, 0xc3]⟩]

/-- Above the stack, the text can be loaded at any page. -/
theorem textAt_loaded {start : Nat} (halign : start % 0x1000 = 0)
    (hstack : 0x40000 + stackSize < start) (hlimit : start + 2 ≤ 2 ^ 32) :
    ∃ m, ImageLoaded (textAt start) start (start + 1) (stackAt 0x40000) m := by
  have hsize : stackSize = 0x800000 := rfl
  have htext : ∀ s ∈ textAt start,
      s = ⟨".text", start, 2, ⟨true, false, true⟩, some [0x90, 0xc3]⟩ :=
    fun s => List.mem_singleton.mp
  have hmappable : ∀ s ∈ textAt start, s.Mappable := by
    intro s hs
    obtain rfl := htext s hs
    exact ⟨Nat.two_pos, hlimit, rfl⟩
  have hmade : makeStackSection start (start + 1) = some (stackAt 0x40000) := if_pos (by omega)
  have hvalid : ∀ s ∈ textAt start ++ [stackAt 0x40000], s.Valid := by
    intro s hs
    obtain hs | hs := List.mem_append.mp hs
    · refine ⟨hmappable s hs, ?_⟩
      obtain rfl := htext s hs
      rintro c ⟨⟩
      rfl
    · rw [List.mem_singleton.mp hs]
      exact ⟨makeStackSection_mappable hmade, by rintro c ⟨⟩⟩
  have hapart : (textAt start ++ [stackAt 0x40000]).Pairwise Apart :=
    List.pairwise_pair.mpr (.inr (Nat.le_of_lt hstack))
  have hwell : WellPlaced (textAt start ++ [stackAt 0x40000]) := by
    refine wellPlaced_pair (fun q hq => ?_) (fun _ q hq hq' => ?_) fun hcontent => absurd rfl hcontent
    · have hpages : pages ⟨".text", start, 2, ⟨true, false, true⟩, some [0x90, 0xc3]⟩ =
          [start / 0x1000] := by
        rw [pages, show (start + 2 + 0xFFF) / 0x1000 - start / 0x1000 = 1 by omega]
        rfl
      rw [hpages] at hq
      rw [lastPages, if_neg (by simp [isStack]), lastFresh, hpages]
      exact hq
    · simp only [mem_pages, stackAt] at hq hq'
      omega
  obtain ⟨m, hrun, -⟩ := loadsFaithfully_of_wellPlaced hvalid hapart hwell
  refine ⟨m, ⟨hmappable, List.cons_ne_nil _ _, fun s hs => ?_, fun s hs => ?_⟩, fun s hs => ?_,
    hmade, hrun⟩ <;> obtain rfl := htext s hs
  · exact Nat.le_refl _
  · exact Nat.le_refl _
  · exact ⟨by simp, by simp⟩

/-- The text of a program at a usual address. -/
theorem textOnly_loaded : ∃ m, ImageLoaded (textAt 0x8048000) 0x8048000 0x8048001
    (stackAt 0x40000) m :=
  textAt_loaded (by decide) (by decide) (by decide)

theorem infinite_ok : Icount.infinite = .infinite ∨ 0 < 0 := .inl rfl

/-- A runner for it, as `run_on_binary` makes one. -/
def textRunner (m : GodefroidMemory) : GodefroidRunner :=
  ⟨m, 0x8048000, none, 0, .infinite, some 0xFEEDF00D, infinite_ok⟩

theorem textRunner_magic (m : GodefroidMemory) :
    ∀ v, (textRunner m).magicReturn = some v → v < 2 ^ 32 := by
  rintro v ⟨⟩
  decide

theorem textRunner_room :
    ∀ s ∈ textAt 0x8048000 ++ [stackAt 0x40000], s.start + s.size ≤ 0xFEF70000 := by
  intro s hs
  simp only [textAt, List.cons_append, List.nil_append, List.mem_cons, List.not_mem_nil,
    or_false] at hs
  obtain rfl | rfl := hs <;> decide

/-- Whether a process can be made of an image is decided by where the sections end. -/
theorem ImageLoaded.exists_process_iff
    (h : ImageLoaded image minAddr maxAddr stack runner.memory) (hsp : runner.initialSp = none)
    (hmagic : ∀ v, runner.magicReturn = some v → v < 2 ^ 32) :
    (∃ sp m, runner.makeNewProcess entropy (copyMemory runner.memory) = .ok sp m) ↔
      ∀ s ∈ image ++ [stack], s.start + s.size ≤ 0xFEF70000 := by
  refine ⟨?_, h.exists_process hsp hmagic⟩
  rintro ⟨sp, m, hrun⟩
  obtain ⟨m₁, last, htakes, -⟩ := h.takesLast hrun
  exact (h.last_lt_iff htakes.mem htakes.max).mp htakes.room

/-- **A process can be made** of an image exactly when all sections end early enough for the input
space behind them, which `make_stack_section` alone does not see to: it makes a stack for an image
of which no process can be made. -/
theorem makeNewProcess_succeeds_iff :
    (∀ (image : List Section) (minAddr maxAddr : Nat) (stack : Section) (runner : GodefroidRunner)
      (entropy : Nat → Byte), ImageLoaded image minAddr maxAddr stack runner.memory →
      runner.initialSp = none → (∀ v, runner.magicReturn = some v → v < 2 ^ 32) →
      ((∃ sp m, runner.makeNewProcess entropy (copyMemory runner.memory) = .ok sp m) ↔
        ∀ s ∈ image ++ [stack], s.start + s.size ≤ 0xFEF70000)) ∧
    ∃ image minAddr maxAddr stack m, ImageLoaded image minAddr maxAddr stack m ∧
      ∀ (runner : GodefroidRunner) (entropy : Nat → Byte), runner.memory = m →
        runner.initialSp = none → (∀ v, runner.magicReturn = some v → v < 2 ^ 32) →
        ¬ ∃ sp m', runner.makeNewProcess entropy (copyMemory runner.memory) = .ok sp m' := by
  refine ⟨fun _ _ _ _ _ _ h hsp hmagic => h.exists_process_iff hsp hmagic, ?_⟩
  obtain ⟨m, h⟩ := textAt_loaded (show 0xFF000000 % 0x1000 = 0 by decide) (by decide) (by decide)
  refine ⟨_, _, _, _, m, h, fun runner entropy hm hsp hmagic hmake => ?_⟩
  subst hm
  have hends := (h.exists_process_iff hsp hmagic).mp hmake _
    (List.mem_append_left _ (List.mem_singleton_self _))
  exact absurd hends (by decide)

/-- A process can be made of the text. -/
theorem makeNewProcess_textOnly : ∃ m sp m', createMemoryFromSections
    (textAt 0x8048000 ++ [stackAt 0x40000]) = .ok () m ∧
      (textRunner m).makeNewProcess (fun _ => 0) (copyMemory m) = .ok sp m' := by
  obtain ⟨m, h⟩ := textOnly_loaded
  have hmade := makeNewProcess_succeeds_iff.1 _ _ _ _ (textRunner m) (fun _ => 0) h rfl
    (textRunner_magic m)
  obtain ⟨sp, m', hmake⟩ := hmade.mpr textRunner_room
  exact ⟨m, sp, m', h.run, hmake⟩

/-- **The image is kept** in a process exactly when the stack is above it; otherwise the input space
takes over its last page. -/
theorem image_kept_iff {sp : Nat} {m : GodefroidMemory}
    (h : ImageLoaded image minAddr maxAddr stack runner.memory)
    (hmake : runner.makeNewProcess entropy (copyMemory runner.memory) = .ok sp m) :
    (KeepsImage image runner.memory m ↔ minAddr ≤ 0x40000 + stackSize) ∧
      (0x40000 + stackSize < minAddr →
        ∃ q, IsGreatest {q | ∃ s ∈ image, q ∈ s.pages} q ∧ InInputSpace m q) := by
  obtain ⟨m₁, last, htakes, htable, hinputs⟩ := h.takesLast hmake
  have hmax {s : Section} (hs : s ∈ image ++ [stack]) {q : Nat} (hq : q ∈ s.pages) : q ≤ last :=
    htakes.max q (h.mem_keys hs hq)
  -- a page of the image is taken over if it is the last one
  have hkeep {s : Section} (hs : s ∈ image) {q : Nat} (hq : q ∈ s.pages) :
      m.memoryMaps.get? q = runner.memory.memoryMaps.get? q ↔ q ≠ last := by
    have hle := hmax (List.mem_append_left _ hs) hq
    rw [htable, htakes.added.table]
    by_cases heq : q = last
    · obtain ⟨r, hr⟩ := Option.isSome_iff_exists.mp
        ((PyDict.mem_keys_iff _ q).mp (h.mem_keys (List.mem_append_left _ hs) hq))
      have hlt : r < (copyMemory runner.memory).numObjs := h.laidOut.table_lt q r hr
      rw [if_pos (by omega), show runner.memory.memoryMaps.get? q = some r from hr]
      refine iff_of_false (fun hsame => ?_) (not_not.mpr heq)
      exact Nat.ne_of_gt hlt (Option.some.inj hsame)
    · rw [if_neg (by omega)]
      exact iff_of_true rfl heq
  -- the last page is one of the image if the stack is below
  have hlast (hbelow : 0x40000 + stackSize < minAddr) : ∃ s ∈ image, last ∈ s.pages := by
    obtain ⟨s, hs, hlast⟩ := h.exists_section htakes.mem
    obtain hs | hs := List.mem_append.mp hs
    · exact ⟨s, hs, hlast⟩
    · rw [List.mem_singleton.mp hs] at hlast
      obtain ⟨s₀, hs₀⟩ := List.exists_mem_of_ne_nil _ h.loads.nonempty
      have hq₀ := page_mem (s := s₀) (i := 0) (h.loads.mappable s₀ hs₀).size_pos
      have hle := hmax (List.mem_append_left _ hs₀) hq₀
      obtain ⟨-, hlt⟩ | ⟨habove, -⟩ := makeStackSection_apart h.made h.loads hs₀ hq₀ hlast
      · omega
      · omega
  refine ⟨⟨fun hkeeps => ?_, fun habove s hs q hq => ?_⟩, fun hbelow => ?_⟩
  · by_contra hbelow
    obtain ⟨s, hs, hq⟩ := hlast (Nat.not_le.mp hbelow)
    exact (hkeep hs hq).mp (hkeeps s hs last hq) rfl
  · refine (hkeep hs hq).mpr ?_
    rintro rfl
    have hq₁ := page_mem (s := stack) (i := 0) (makeStackSection_mappable h.made).size_pos
    have hle := hmax (List.mem_append_right _ (List.mem_singleton_self stack)) hq₁
    obtain ⟨hbelow, -⟩ | ⟨-, hlt⟩ := makeStackSection_apart h.made h.loads hs hq hq₁
    · omega
    · omega
  · refine ⟨last, ⟨hlast hbelow, ?_⟩, hinputs⟩
    rintro q ⟨s, hs, hq⟩
    exact hmax (List.mem_append_left _ hs) hq

/-- The text does not stay in its page, which belongs to the input space. -/
theorem image_kept_textOnly : ∃ m sp m', createMemoryFromSections
    (textAt 0x8048000 ++ [stackAt 0x40000]) = .ok () m ∧
      (textRunner m).makeNewProcess (fun _ => 0) (copyMemory m) = .ok sp m' ∧
        ¬ KeepsImage (textAt 0x8048000) m m' ∧ InInputSpace m' 0x8048 := by
  obtain ⟨m, h⟩ := textOnly_loaded
  have h' : ImageLoaded (textAt 0x8048000) 0x8048000 0x8048001 (stackAt 0x40000)
      (textRunner m).memory := h
  obtain ⟨sp, m', hmake⟩ : ∃ sp m', (textRunner m).makeNewProcess (fun _ => 0) (copyMemory m) =
      .ok sp m' :=
    h'.exists_process rfl (textRunner_magic m) textRunner_room
  obtain ⟨hiff, hlast⟩ := image_kept_iff h' hmake
  obtain ⟨q, ⟨⟨s, hs, hq⟩, -⟩, hinputs⟩ := hlast (by decide)
  obtain rfl := List.mem_singleton.mp hs
  obtain rfl : q = 0x8048 := by
    have hrange : 0x8048000 / 0x1000 ≤ q ∧ q < (0x8048000 + 2 + 0xFFF) / 0x1000 := mem_pages.mp hq
    omega
  exact ⟨m, sp, m', h.run, hmake, fun hkeeps => absurd (hiff.mp hkeeps) (by decide), hinputs⟩

end Microx
