import Microx.Memory.Access

/-!
# Microx.Memory.Flat

A `Memory` built from fresh array maps behaves as one flat byte array.

`Contents` is the abstract memory, a function from addresses to bytes; a store
overrides it, a load reads it.  `Refines` ties a page table over array objects
to such a function: wherever an address is backed, the object its page resolves
to holds the function's byte.  One access keeps the relation
(`refines_load`, `refines_store`), so a whole run does (`perform_flat`).
-/

namespace Microx

/-! ## the abstract memory -/

/-- A flat memory: a byte for every address. -/
abbrev Contents := Nat → Byte

namespace Contents

/-- The memory nothing was stored to. -/
def zero : Contents := fun _ => 0

def load (f : Contents) (addr numBytes : Nat) : List Byte :=
  (List.range numBytes).map fun i => f (addr + i)

def store (f : Contents) (addr : Nat) (data : List Byte) : Contents := fun a =>
  if addr ≤ a ∧ a < addr + data.length then data.getD (a - addr) 0 else f a

end Contents

/-- An access of a program to its memory. -/
inductive Access where
  | load (addr numBytes : Nat)
  | store (addr : Nat) (data : List Byte)
  deriving DecidableEq, Repr

namespace Access

/-- The addresses an access touches. -/
def Touches : Access → Nat → Prop
  | load addr n, a => addr ≤ a ∧ a < addr + n
  | store addr data, a => addr ≤ a ∧ a < addr + data.length

/-- The addresses an access stores to. -/
def Stores : Access → Nat → Prop
  | load _ _, _ => False
  | store addr data, a => addr ≤ a ∧ a < addr + data.length

end Access

/-- A run over the abstract memory: what its loads return, and the memory it leaves. -/
def Contents.perform : List Access → Contents → List (List Byte) × Contents
  | [], f => ([], f)
  | .load addr n :: accs, f =>
      let r := Contents.perform accs f
      (f.load addr n :: r.1, r.2)
  | .store addr data :: accs, f => Contents.perform accs (f.store addr data)

namespace Memory

open Hoare

/-! ## runs -/

/-- A run over the page table: what its loads return. -/
def perform : List Access → EStateM PyExc Core (List (List Byte))
  | [] => pure []
  | .load addr n :: accs => do
      let bytes ← load addr n
      let rest ← perform accs
      pure (bytes :: rest)
  | .store addr data :: accs => do
      store addr data
      perform accs

/-- `Memory(ops, address_size, page_shift)`. -/
def init (addressSize : AddressSize) (pageShift : Nat) (h : 0 < pageShift) (h' : pageShift < 32) :
    Core where
  addressSize := addressSize
  pageShift := pageShift
  pageShift_pos := h
  pageShift_lt := h'
  memoryMaps := PyDict.empty
  objs _ := .memoryMap
  numObjs := 0
  shared := ()

/-- A memory without maps, with pages of two bytes. -/
def twoBytePages : Core := init .x32 1 (by decide) (by decide)

/-- `add_map` of a fresh `ArrayMemoryMap`. -/
def addFresh (p : PermissionedMemoryMap) : EStateM PyExc Core Unit := do
  let r ← alloc (.array (ArrayMemoryMap.init p))
  addMap r

/-- `add_map` of one fresh array map after the other. -/
def addAll (maps : List PermissionedMemoryMap) : EStateM PyExc Core Unit := maps.forM addFresh

/-! ## fresh memories hold zeros -/

/-- No object holds a byte other than zero. -/
def Zeroed (m : Core) : Prop := ∀ r a, (m.objs r).byteAt a = 0

/-- Adding a fresh array map with an aligned base succeeds and leaves all bytes zero. -/
theorem addFresh_zeroed {p : PermissionedMemoryMap} {k : Nat} (hp : 2 ^ k ∣ p.base) :
    Triple (fun m => m.pageShift = k ∧ Zeroed m) (addFresh p)
      (fun _ m => m.pageShift = k ∧ Zeroed m) fun _ _ => False := by
  rintro m ⟨hk, hm⟩
  have hz : ∀ q a, (Function.update m.objs m.numObjs
      (.array (ArrayMemoryMap.init p)) q).byteAt a = 0 := by
    intro q a
    by_cases hq : q = m.numObjs
    · subst hq; simp
    · rw [Function.update_of_ne hq]; exact hm q a
  obtain ⟨t, ht, -⟩ := addMap_ok (r := m.numObjs) (m := { m with
      objs := Function.update m.objs m.numObjs (.array (ArrayMemoryMap.init p))
      numObjs := m.numObjs + 1 }) (by
    simp only [Function.update_self, hk]
    exact hp)
  rw [addFresh, run_bind_ok (show alloc _ m = .ok _ _ from rfl), ht]
  exact ⟨hk, hz⟩

/-- **A memory of fresh array maps with aligned bases can be built, and holds zeros.** -/
theorem addAll_zeroed {maps : List PermissionedMemoryMap} (addressSize : AddressSize)
    {pageShift : Nat} (h : 0 < pageShift) (h' : pageShift < 32)
    (hmaps : ∀ p ∈ maps, 2 ^ pageShift ∣ p.base) :
    ∃ m, addAll maps (init addressSize pageShift h h') = .ok () m ∧ Zeroed m := by
  have ht : Triple (fun m => m.pageShift = pageShift ∧ Zeroed m) (addAll maps)
      (fun _ m => m.pageShift = pageShift ∧ Zeroed m) fun _ _ => False :=
    Triple.forM fun p hp => addFresh_zeroed (hmaps p hp)
  have := ht (init addressSize pageShift h h') ⟨rfl, fun _ _ => rfl⟩
  cases hrun : addAll maps (init addressSize pageShift h h') with
  | ok _ m => rw [hrun] at this; exact ⟨m, rfl, this.2⟩
  | error e m => rw [hrun] at this; exact this.elim

/-! ## the refinement -/

/-- `m` has the layout of `m₀`, and its backed bytes are those of the abstract memory. -/
structure Refines (m₀ m : Core) (f : Contents) : Prop where
  layout : SameLayout m₀ m
  byteAt : ∀ a r arr, m.Backed a r arr → arr.byteAt a = f a

theorem refines_zero {m : Core} (h : Zeroed m) : Refines m m Contents.zero where
  layout := SameLayout.refl m
  byteAt a r arr hb := by
    have := h r a
    rwa [hb.isArray] at this

/-- Every address an access touches is backed in the layout of `m₀`. -/
def Covers (m₀ : Core) (acc : Access) : Prop :=
  ∀ a, acc.Touches a → ∃ r arr, m₀.Backed a r arr

/-- A load refines the abstract load. -/
theorem refines_load {m₀ m : Core} {f : Contents} {addr n : Nat} (h : Refines m₀ m f)
    (hc : Covers m₀ (.load addr n)) : load addr n m = .ok (f.load addr n) m := by
  have hb : ∀ j < n, ∃ r arr, m.Backed (addr + j) r arr := by
    intro j hj
    obtain ⟨r, arr, h0⟩ := hc (addr + j) ⟨by omega, by omega⟩
    obtain ⟨arr', h'⟩ := h0.of_sameLayout h.layout
    exact ⟨r, arr', h'⟩
  have hbytes : ((List.range n).map fun j => m.byteAt (addr + j)) = f.load addr n := by
    refine List.map_congr_left fun j hj => ?_
    obtain ⟨r, arr, hj'⟩ := hb j (List.mem_range.mp hj)
    rw [hj'.byteAt_eq, h.byteAt _ r arr hj']
  rw [load_ok hb, hbytes]

/-- A store refines the abstract store, and changes no byte it does not address. -/
theorem refines_store {m₀ m : Core} {f : Contents} {addr : Nat} {data : List Byte}
    (h : Refines m₀ m f) (hc : Covers m₀ (.store addr data)) :
    ∃ m', store addr data m = .ok () m' ∧ Stored m m' addr data ∧
      Refines m₀ m' (f.store addr data) := by
  have hb : ∀ j < data.length, ∃ r arr, m.Backed (addr + j) r arr := by
    intro j hj
    obtain ⟨r, arr, h0⟩ := hc (addr + j) ⟨by omega, by omega⟩
    obtain ⟨arr', h'⟩ := h0.of_sameLayout h.layout
    exact ⟨r, arr', h'⟩
  obtain ⟨m', hrun, hst⟩ := store_ok hb
  refine ⟨m', hrun, hst, h.layout.trans hst.layout, fun a r arr ha => ?_⟩
  -- the address was backed by the same object before the store
  obtain ⟨arr₀, ha₀⟩ := ha.of_sameLayout hst.layout.symm
  have hbyte := hst.byteAt r _ ha₀.inRange.range a ha₀.base_le
  rw [ha.isArray, CoreMap.byteAt_array] at hbyte
  rw [hbyte, Contents.store]
  by_cases hin : addr ≤ a ∧ a < addr + data.length
  · rw [if_pos ⟨hin.1, hin.2, ha₀.resolves⟩, if_pos hin]
  · rw [if_neg fun hc => hin ⟨hc.1, hc.2.1⟩, if_neg hin, ha₀.isArray, CoreMap.byteAt_array,
      h.byteAt a r arr₀ ha₀]

/-! ## runs -/

/-- From `m` to `m'` a byte of an object changed only where an access of the run stored through
the page table of `m`. -/
def OnlyStored (accs : List Access) (m m' : Core) : Prop :=
  ∀ r p, (m.objs r).range? = some p → ∀ a, p.base ≤ a →
    (m'.objs r).byteAt a ≠ (m.objs r).byteAt a →
      (∃ acc ∈ accs, acc.Stores a) ∧ m.resolve a = some r

theorem OnlyStored.refl (accs : List Access) (m : Core) : OnlyStored accs m m :=
  fun _ _ _ _ _ hne => absurd rfl hne

theorem OnlyStored.cons_load {accs : List Access} {m m' : Core} {addr n : Nat}
    (h : OnlyStored accs m m') : OnlyStored (.load addr n :: accs) m m' := by
  intro r p hp a ha hne
  obtain ⟨⟨acc, hacc, hst⟩, hres⟩ := h r p hp a ha hne
  exact ⟨⟨acc, List.mem_cons_of_mem _ hacc, hst⟩, hres⟩

theorem OnlyStored.cons_store {accs : List Access} {m m₁ m' : Core} {addr : Nat}
    {data : List Byte} (hst : Stored m m₁ addr data) (h : OnlyStored accs m₁ m') :
    OnlyStored (.store addr data :: accs) m m' := by
  intro r p hp a ha hne
  by_cases h1 : (m'.objs r).byteAt a = (m₁.objs r).byteAt a
  · -- the byte changed in the first store
    have hbyte := hst.byteAt r p hp a ha
    by_cases hin : addr ≤ a ∧ a < addr + data.length ∧ m.resolve a = some r
    · exact ⟨⟨_, List.mem_cons_self, hin.1, hin.2.1⟩, hin.2.2⟩
    · rw [if_neg hin] at hbyte
      exact absurd (h1.trans hbyte) hne
  · obtain ⟨⟨acc, hacc, hs⟩, hres⟩ := h r p (by rw [hst.layout.range, hp]) a ha h1
    exact ⟨⟨acc, List.mem_cons_of_mem _ hacc, hs⟩, by rw [← hst.layout.resolve, hres]⟩

/-- A run refines the abstract run. -/
theorem perform_refines {m₀ : Core} (accs : List Access) :
    ∀ m f, Refines m₀ m f → (∀ acc ∈ accs, Covers m₀ acc) →
      ∃ m', perform accs m = .ok (Contents.perform accs f).1 m' ∧
        Refines m₀ m' (Contents.perform accs f).2 ∧ OnlyStored accs m m' := by
  induction accs with
  | nil => exact fun m f h _ => ⟨m, rfl, h, OnlyStored.refl _ m⟩
  | cons acc accs ih =>
      intro m f h hc
      have hrest : ∀ acc ∈ accs, Covers m₀ acc := fun acc' h' => hc acc' (List.mem_cons_of_mem _ h')
      cases acc with
      | load addr n =>
          obtain ⟨m', hrun, href, honly⟩ := ih m f h hrest
          refine ⟨m', ?_, href, honly.cons_load⟩
          rw [perform, run_bind_ok (refines_load h (hc _ List.mem_cons_self)), run_bind_ok hrun]
          rfl
      | store addr data =>
          obtain ⟨m₁, hstore, hst, h₁⟩ := refines_store h (hc _ List.mem_cons_self)
          obtain ⟨m', hrun, href, honly⟩ := ih m₁ _ h₁ hrest
          refine ⟨m', ?_, href, honly.cons_store hst⟩
          rw [perform, run_bind_ok hstore, hrun]
          rfl

/-- **A page table over fresh array maps is one flat byte array.**  Whatever the layout, a run
whose accesses are covered by it returns what the flat memory returns, leaves the backed bytes
the flat memory leaves, and changes no byte it did not store to. -/
theorem perform_flat {maps : List PermissionedMemoryMap} (addressSize : AddressSize)
    {pageShift : Nat} (h : 0 < pageShift) (h' : pageShift < 32)
    (hmaps : ∀ p ∈ maps, p.limit ≤ 2 ^ addressSize.bits ∧ 2 ^ pageShift ∣ p.base) :
    ∃ m₀, addAll maps (init addressSize pageShift h h') = .ok () m₀ ∧
      ∀ accs, (∀ acc ∈ accs, Covers m₀ acc) →
        ∃ m', perform accs m₀ = .ok (Contents.perform accs Contents.zero).1 m' ∧
          (∀ a r arr, m'.Backed a r arr →
            arr.byteAt a = (Contents.perform accs Contents.zero).2 a) ∧
          OnlyStored accs m₀ m' := by
  obtain ⟨m₀, hbuild, hz⟩ := addAll_zeroed addressSize h h' fun p hp => (hmaps p hp).2
  refine ⟨m₀, hbuild, fun accs hc => ?_⟩
  obtain ⟨m', hrun, href, honly⟩ := perform_refines accs m₀ Contents.zero (refines_zero hz) hc
  exact ⟨m', hrun, href.byteAt, honly⟩

/-- A map of four bytes with two-byte pages. -/
def fourBytes : PermissionedMemoryMap := ⟨2, 6, true, true, false, by decide⟩

/-- A store across the pages of one map and a load of part of it. -/
theorem perform_flat_fourBytes :
    ∃ m₀, addAll [fourBytes] (init .x32 1 (by decide) (by decide)) = .ok () m₀ ∧
      ∃ m', perform [.store 3 [7, 8], .load 4 2] m₀ = .ok [[8, 0]] m' := by
  have hmaps : ∀ p ∈ [fourBytes], p.limit ≤ 2 ^ AddressSize.x32.bits ∧ 2 ^ 1 ∣ p.base := by
    decide
  obtain ⟨m₀, hbuild, hrun⟩ := perform_flat .x32 (by decide) (by decide) hmaps
  have hm : Backed m₀ 3 0 (ArrayMemoryMap.init fourBytes) ∧
      Backed m₀ 4 0 (ArrayMemoryMap.init fourBytes) ∧
      Backed m₀ 5 0 (ArrayMemoryMap.init fourBytes) := by
    obtain ⟨-, rfl⟩ := EStateM.Result.ok.inj hbuild
    exact ⟨⟨rfl, rfl, by decide, by decide⟩, ⟨rfl, rfl, by decide, by decide⟩,
      ⟨rfl, rfl, by decide, by decide⟩⟩
  obtain ⟨h3, h4, h5⟩ := hm
  obtain ⟨m', hok, -⟩ := hrun [.store 3 [7, 8], .load 4 2] fun acc hacc a ha => by
    have h345 : a = 3 ∨ a = 4 ∨ a = 5 := by
      simp only [List.mem_cons, List.not_mem_nil, or_false] at hacc
      rcases hacc with rfl | rfl <;> simp only [Access.Touches, List.length_cons,
        List.length_nil] at ha <;> omega
    rcases h345 with rfl | rfl | rfl
    · exact ⟨_, _, h3⟩
    · exact ⟨_, _, h4⟩
    · exact ⟨_, _, h5⟩
  exact ⟨m₀, hbuild, m', hok⟩

end Memory

end Microx
