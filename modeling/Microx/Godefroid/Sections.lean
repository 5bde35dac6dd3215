import Microx.Godefroid.PolicyMap

/-!
# Microx.Godefroid.Sections

`GodefroidProcess.create_memory_from_sections`: from a list of sections, each
with a range, access flags and possibly content, a memory of policy maps.

A section named `[stack]` gets one map over all its pages.  Any other section
gets one map for each of its pages that nothing readable is mapped at yet.  The
content goes to the map that was created last, by this section or an earlier
one.
-/

namespace Microx

/-- A section: the dictionary `create_memory_from_sections` reads. -/
structure Section where
  name : String
  start : Nat
  size : Nat
  flags : MemoryFlags
  content : Option (List Byte)
  deriving DecidableEq

namespace Section

/-- The memory of a Godefroid process. -/
abbrev GodefroidMemory := Memory GodefroidMap (Option InputMemoryPolicy)

open Memory

/-- `a & ~0xFFF`. -/
def alignDown (a : Nat) : Nat := (a >>> 12) <<< 12

/-- `page_start`. -/
def pageStart (s : Section) : Nat := alignDown s.start

/-- `page_end`. -/
def pageEnd (s : Section) : Nat := alignDown (s.start + s.size + 0xFFF)

/-- `"[stack]" == name`. -/
def isStack (s : Section) : Bool := s.name == "[stack]"

/-- Create a policy map with the default policy, and add it. -/
def addPolicyMap (base limit : Nat) (flags : MemoryFlags) (name : String) :
    EStateM PyExc GodefroidMemory Nat := do
  if h : base < limit then
    let r ← alloc (.policy (PolicyMemoryMap.init base limit h flags .default name))
    addMap r
    return r
  else
    throw .assertionError

/-- The loop over the pages of a section; `memMap` is the map created last. -/
def mapPages (flags : MemoryFlags) (name : String) :
    List Nat → Option Nat → EStateM PyExc GodefroidMemory (Option Nat)
  | [], memMap => pure memMap
  | page :: pages, memMap => do
      if ← canRead page then
        mapPages flags name pages memMap
      else
        let r ← addPolicyMap page (page + 0x1000) flags name
        mapPages flags name pages (some r)

/-- The maps of a section. -/
def mapSection (s : Section) (memMap : Option Nat) : EStateM PyExc GodefroidMemory (Option Nat) :=
  if s.isStack then do
    let r ← addPolicyMap s.pageStart s.pageEnd s.flags s.name
    return some r
  else
    mapPages s.flags s.name (pageStarts 0x1000 s.pageStart s.pageEnd) memMap

/-- The content of a section, stored without a policy. -/
def writeContent (s : Section) (memMap : Option Nat) : EStateM PyExc GodefroidMemory Unit :=
  match s.content with
  | none | some [] => pure ()
  | some content => match memMap with
      | none => throw .assertionError
      | some r => invoke r (GodefroidMap.onPolicy .attributeError
          (PolicyMemoryMap.storeBytesRaw s.start content))

/-- The loop over the sections. -/
def loadSections : List Section → Option Nat → EStateM PyExc GodefroidMemory Unit
  | [], _ => pure ()
  | s :: sections, memMap => do
      let memMap ← mapSection s memMap
      writeContent s memMap
      loadSections sections memMap

/-- `Memory(ops, 32)`. -/
def newMemory : GodefroidMemory where
  addressSize := .x32
  pageShift := 12
  pageShift_pos := by decide
  pageShift_lt := by decide
  memoryMaps := PyDict.empty
  objs _ := .memoryMap
  numObjs := 0
  shared := none

theorem shift_pos (m : GodefroidMemory) : 0 < m.pageShift := m.pageShift_pos

theorem shift_lt (m : GodefroidMemory) : m.pageShift < 32 := m.pageShift_lt

/-- A memory with other objects and another policy in their places. -/
def holding (m : GodefroidMemory) (objs : Nat → GodefroidMap) (shared : Option InputMemoryPolicy) :
    GodefroidMemory :=
  { m with
    pageShift_pos := shift_pos m
    pageShift_lt := shift_lt m
    objs := objs
    shared := shared }

/-- `create_memory_from_sections`. -/
def createMemoryFromSections (sections : List Section) : EStateM.Result PyExc GodefroidMemory Unit :=
  loadSections sections none newMemory

/-! ## layouts -/

/-- The pages a section touches. -/
def pages (s : Section) : List Nat :=
  List.range' (s.start / 0x1000) ((s.start + s.size + 0xFFF) / 0x1000 - s.start / 0x1000)

theorem mem_pages {s : Section} {q : Nat} :
    q ∈ s.pages ↔ s.start / 0x1000 ≤ q ∧ q < (s.start + s.size + 0xFFF) / 0x1000 := by
  simp only [pages, List.mem_range'_1]
  omega

/-- The page of a byte of the section. -/
theorem page_mem {s : Section} {i : Nat} (h : i < s.size) : (s.start + i) / 0x1000 ∈ s.pages := by
  rw [mem_pages]
  omega

/-- Some section touches the page. -/
def mapped (before : List Section) (q : Nat) : Bool := before.any fun s => decide (q ∈ s.pages)

/-- The pages of the map created last, when pages `qs` are mapped one by one where nothing is
mapped yet, and `last` is what was created before. -/
def lastFresh (isMapped : Nat → Bool) (qs last : List Nat) : List Nat :=
  match (qs.filter fun q => !isMapped q).getLast? with
  | some q => [q]
  | none => last

/-- The pages of the map created last, over the sections so far, the most recent first. -/
def lastPages : List Section → List Nat
  | [] => []
  | s :: before =>
      if s.isStack then s.pages else lastFresh (mapped before) s.pages (lastPages before)

/-- A section without the values of its content. -/
def layout (s : Section) : Section := { s with content := s.content.map fun _ => [] }

theorem mapped_layout (before : List Section) (q : Nat) :
    mapped (before.map layout) q = mapped before q := by
  rw [mapped, mapped, List.any_map]
  rfl

/-- Which map is created last depends on the layout alone. -/
theorem lastPages_layout (before : List Section) :
    lastPages (before.map layout) = lastPages before := by
  induction before with
  | nil => rfl
  | cons s before ih =>
      have hmapped : mapped (before.map layout) = mapped before :=
        funext fun q => mapped_layout before q
      rw [List.map_cons, lastPages, lastPages, ih, hmapped]
      rfl

/-- The pages of a section start where `range(page_start, page_end, 0x1000)` says. -/
theorem pageStarts_eq (s : Section) :
    pageStarts 0x1000 s.pageStart s.pageEnd = s.pages.map (· * 0x1000) := by
  have h : ∀ a, alignDown a = a / 0x1000 * 0x1000 := fun a => by
    rw [alignDown, Nat.shiftRight_eq_div_pow, Nat.shiftLeft_eq]
  rw [pageStarts, pageStart, pageEnd, h, h, pages, List.range'_eq_map_range, List.map_map]
  have hcount : ((s.start + s.size + 0xFFF) / 0x1000 * 0x1000 - s.start / 0x1000 * 0x1000 +
      (0x1000 - 1)) / 0x1000 = (s.start + s.size + 0xFFF) / 0x1000 - s.start / 0x1000 := by
    omega
  rw [hcount]
  refine List.map_congr_left fun i _ => ?_
  simp only [Function.comp_apply]
  omega

end Section

end Microx
