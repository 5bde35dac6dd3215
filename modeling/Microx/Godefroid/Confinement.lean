import Microx.Executor.Guard
import Microx.Godefroid.Evolution
import Microx.Godefroid.PolicyAccess
import Microx.Godefroid.Process
import Microx.Godefroid.Sections
import Microx.WriteSafety

/-!
# Microx.Godefroid.Confinement

What a run of a Godefroid process may change in its memory.

A load changes bytes where the policy watches its address, a store those of its
range, and the executor stores only where a map grants writing.  So in every
run a byte changes only where the policy may have invented a value, or where a
`WriteMem` covered it and its map grants writing, and the policy records no
other access than those of `ReadMem` and `WriteMem` (`godefroidRun_remains`).
-/

namespace Microx

open Hoare InputMemoryPolicy

/-! ## methods of a map -/

namespace PolicyMemoryMap

variable {α : Type} {W : Nat → Prop} {A : Accesses} {addr n : Nat}

/-- The map is the same up to its bytes and flags, and a byte differs only where `W` holds. -/
structure Alters (W : Nat → Prop) (m m' : PolicyMemoryMap) : Prop extends SameMap m m' where
  accessFlags : m'.accessFlags = m.accessFlags
  name : m'.name = m.name
  byteAt : ∀ a, m.base ≤ a → m'.byteAt a ≠ m.byteAt a → W a

theorem Alters.refl (m : PolicyMemoryMap) : Alters W m m :=
  ⟨SameMap.refl m, rfl, rfl, fun _ _ h => absurd rfl h⟩

theorem Alters.trans {m₁ m₂ m₃ : PolicyMemoryMap} (h : Alters W m₁ m₂) (h' : Alters W m₂ m₃) :
    Alters W m₁ m₃ where
  toSameMap := h.toSameMap.trans h'.toSameMap
  accessFlags := h'.accessFlags.trans h.accessFlags
  name := h'.name.trans h.name
  byteAt a ha hne := by
    by_cases h2 : m₂.byteAt a = m₁.byteAt a
    · exact h'.byteAt a (by rw [h.base]; exact ha) (by rw [h2]; exact hne)
    · exact h.byteAt a ha h2

theorem Alters.mono {m m' : PolicyMemoryMap} {W' : Nat → Prop} (h : Alters W m m')
    (hW : ∀ a, W a → W' a) : Alters W' m m' :=
  ⟨h.toSameMap, h.accessFlags, h.name, fun a ha hne => hW a (h.byteAt a ha hne)⟩

/-- What a method does to the map and to the policy that maps share. -/
structure Effect (W : Nat → Prop) (A : Accesses) (s s' : PolicyMemoryMap × Option InputMemoryPolicy) :
    Prop where
  map : Alters W s.1 s'.1
  policy : Option.Rel (Evolves A) s.2 s'.2

theorem rel_refl (o : Option InputMemoryPolicy) : Option.Rel (Evolves A) o o := by
  cases o with
  | none => exact .none
  | some p => exact .some .refl

/-- Both ways out of a method have the effect. -/
abbrev Affects (W : Nat → Prop) (A : Accesses) (s : PolicyMemoryMap × Option InputMemoryPolicy)
    (f : PolicyMethod α) : Prop :=
  Triple (Effect W A s) f (fun _ => Effect W A s) fun _ => Effect W A s

/-- The map has the input policy, which watches the address. -/
def Watched (s : PolicyMemoryMap × Option InputMemoryPolicy) (addr : Nat) : Prop :=
  s.1.policy = .input ∧ ∃ p, s.2 = some p ∧ p.watches addr = true

variable {s₀ : PolicyMemoryMap × Option InputMemoryPolicy}

/-- A call of the policy leaves the map alone. -/
theorem callInput_effect {f : PolicyM α} {Q : α → Prop} (h : EvolvesThrough A f)
    (hq : Triple (fun _ => True) f (fun a _ => Q a) fun _ _ => True)
    (s : PolicyMemoryMap × Option InputMemoryPolicy) :
    Meets (fun a s' => s'.1 = s.1 ∧ Option.Rel (Evolves A) s.2 s'.2 ∧ Q a)
      (fun _ s' => s'.1 = s.1 ∧ Option.Rel (Evolves A) s.2 s'.2) (callInput f s) := by
  unfold callInput
  cases hs : s.2 with
  | none => exact ⟨rfl, by rw [hs]; exact .none⟩
  | some p =>
      have hrun := h p p .refl
      have hpost := hq p trivial
      dsimp only
      cases hr : f p with
      | ok a p' =>
          rw [hr] at hrun hpost
          exact ⟨rfl, .some hrun, hpost⟩
      | error e p' =>
          rw [hr] at hrun
          exact ⟨rfl, .some hrun⟩

theorem rel_trans {o o' o'' : Option InputMemoryPolicy} (h : Option.Rel (Evolves A) o o')
    (h' : Option.Rel (Evolves A) o' o'') : Option.Rel (Evolves A) o o'' := by
  cases h with
  | none => exact h'
  | some hp =>
      cases h' with
      | some hp' => exact .some (hp.trans hp')

theorem Effect.of_policy {s s' : PolicyMemoryMap × Option InputMemoryPolicy} (h : Effect W A s₀ s)
    (hmap : s'.1 = s.1) (hpolicy : Option.Rel (Evolves A) s.2 s'.2) : Effect W A s₀ s' :=
  ⟨hmap ▸ h.map, rel_trans h.policy hpolicy⟩

theorem callInput_affects {f : PolicyM α} (h : EvolvesThrough A f) :
    Affects W A s₀ (callInput f) := by
  intro s hs
  have hrun := callInput_effect h (Q := fun _ => True) (fun p _ => by cases f p <;> trivial) s
  cases hr : callInput f s with
  | ok a s' => rw [hr] at hrun; exact hs.of_policy hrun.1 hrun.2.1
  | error e s' => rw [hr] at hrun; exact hs.of_policy hrun.1 hrun.2

/-! ### callbacks -/

/-- A callback for a range returns as many bytes as it is given, and leaves the map alone. -/
def ReturnsAsMany (A : Accesses) (callback : List Byte → PolicyMethod (List Byte)) : Prop :=
  ∀ data s, Meets
    (fun new s' => s'.1 = s.1 ∧ Option.Rel (Evolves A) s.2 s'.2 ∧ new.length = data.length)
    (fun _ s' => s'.1 = s.1 ∧ Option.Rel (Evolves A) s.2 s'.2) (callback data s)

theorem readBeforeWrite_returns {addr size : Nat} (hinput : A.inputs addr)
    (hread : A.reads addr size) :
    ReturnsAsMany A (readBeforeWrite addr size) := by
  intro data s
  have hlength : Triple (fun _ => True) (InputMemoryPolicy.readBeforeWrite addr size data)
      (fun new _ => new.length = data.length) fun _ _ => True := by
    refine Triple.bind (Q := fun _ _ => True) ?_ fun new => ?_
    · intro p _
      cases inventData addr size p <;> trivial
    · refine Triple.bind (Q := fun _ _ => True) (Triple.modify fun _ _ => trivial) fun _ => ?_
      intro p _
      by_cases hlen : data.length = new.length
      · simp [pyAssert, hlen]
      · simp [pyAssert, hlen]
  unfold readBeforeWrite
  rw [run_get_bind]
  cases s.1.policy with
  | default => exact ⟨rfl, rel_refl _, rfl⟩
  | input => exact callInput_effect (readBeforeWrite_evolves hinput hread data) hlength s

theorem writeBeforeRead_returns {addr size : Nat} (hstored : Within A.stores addr size) :
    ReturnsAsMany A (writeBeforeRead addr size) := by
  intro data s
  have hlength : Triple (fun _ => True) (InputMemoryPolicy.writeBeforeRead addr size data)
      (fun new _ => new.length = data.length) fun _ _ => True :=
    Triple.bind (Q := fun _ _ => True) (Triple.modify fun _ _ => trivial) fun _ =>
      Triple.pure fun _ _ => rfl
  unfold writeBeforeRead
  rw [run_get_bind]
  cases s.1.policy with
  | default => exact ⟨rfl, rel_refl _, rfl⟩
  | input => exact callInput_effect (writeBeforeRead_evolves hstored data) hlength s

/-- A slice that is not cut off lies in the list. -/
theorem fits_of_length_slice {l : List Byte} {i n : Nat} (hn : 0 < n)
    (h : (PyList.slice l i ((i : Int) + n)).length = n) : i + n ≤ l.length := by
  rw [show (i : Int) + n = ((i + n : Nat) : Int) by omega, PyList.slice, PyList.clamp_ofNat,
    PyList.clamp_ofNat, List.length_drop, List.length_take] at h
  omega

/-- Replacing bytes by as many others, or raising. -/
theorem replaceData_affects {callback : Nat → Nat → List Byte → PolicyMethod (List Byte)}
    (hcallback : ReturnsAsMany A (callback addr n)) (hwf : s₀.1.WellFormed) (hbase : s₀.1.base ≤ addr)
    (hn : 0 < n) (hW : Within W addr n) :
    Affects W A s₀ (replaceData callback addr n) := by
  refine Triple.get fun s hs => ?_
  refine Triple.bind (Q := fun new s' => Effect W A s₀ s' ∧ s'.1 = s.1 ∧ new.length =
    (PyList.slice s.1.data ((addr : Int) - s.1.base) ((addr : Int) - s.1.base + n)).length)
    ?_ fun new => ?_
  · rintro t rfl
    have h := hcallback
      (PyList.slice t.1.data ((addr : Int) - t.1.base) ((addr : Int) - t.1.base + n)) t
    cases hr : callback addr n
        (PyList.slice t.1.data ((addr : Int) - t.1.base) ((addr : Int) - t.1.base + n)) t with
    | ok new s' => rw [hr] at h; exact ⟨hs.of_policy h.1 h.2.1, h.1, h.2.2⟩
    | error e s' => rw [hr] at h; exact hs.of_policy h.1 h.2
  · intro s' hs'
    obtain ⟨heffect, hmap, hlength⟩ := hs'
    by_cases hnew : new.length = n
    · -- the assertion holds: the slice was not cut off, so the range lies in the map
      have hsame := hs.map.toSameMap
      have hbase' : s.1.base ≤ addr := by rw [hsame.base]; exact hbase
      have hoffset : (addr : Int) - s.1.base = ((addr - s.1.base : Nat) : Int) := by omega
      have hfits : addr - s.1.base + n ≤ s.1.data.length := by
        rw [hoffset] at hlength
        exact fits_of_length_slice hn (hlength.symm.trans hnew)
      have hdata : s.1.data.length = s.1.limit - s.1.base := by
        rw [hsame.length, hsame.limit, hsame.base]
        exact hwf
      have hc : s'.1.Contains addr n := by
        rw [hmap]
        exact ⟨hdata, hbase', by have := s.1.base_lt_limit; omega⟩
      rw [run_bind_ok (show pyAssert (new.length == n) s' = .ok () s' by simp [pyAssert, hnew]),
        run_modify, meets_ok, ← hmap]
      refine ⟨heffect.map.trans ⟨⟨rfl, rfl, rfl, ?_⟩, rfl, rfl, fun a ha hne => ?_⟩, heffect.policy⟩
      · have := PyList.length_setSlice hc.fits hnew
        rw [← hc.offset_eq] at this
        exact this
      · by_contra hW'
        refine hne ?_
        rw [byteAt_setSlice hc hnew ha, if_neg fun hin => hW' (hW a hin.1 hin.2)]
    · rw [run_bind_error (show pyAssert (new.length == n) s' = .error .assertionError s' by
        simp [pyAssert, hnew]), meets_error]
      exact heffect

theorem setFlags_affects (addr : Nat) (flags : List PolicyFlags) :
    Affects W A s₀ (setFlags addr flags) :=
  Triple.update fun _ h => ⟨⟨⟨h.map.base, h.map.limit, h.map.policy, h.map.length⟩,
    h.map.accessFlags, h.map.name, h.map.byteAt⟩, h.policy⟩

/-! ### loads and stores -/

theorem Effect.watched {s : PolicyMemoryMap × Option InputMemoryPolicy} (h : Effect W A s₀ s)
    (hw : Watched s addr) : Watched s₀ addr := by
  obtain ⟨hinput, p, hp, hwatch⟩ := hw
  refine ⟨h.map.policy.symm.trans hinput, ?_⟩
  have hrel := h.policy
  rw [hp] at hrel
  generalize s₀.2 = o at hrel ⊢
  cases hrel with
  | some hevolves => exact ⟨_, rfl, by rw [← hevolves.watches]; exact hwatch⟩

/-- Whether the policy handles a load. -/
theorem handleLoad_affects (addr : Nat) :
    Triple (Effect W A s₀) (handleLoad addr)
      (fun handled s => Effect W A s₀ s ∧ (handled = true → Watched s₀ addr))
      fun _ => Effect W A s₀ := by
  intro s hs
  unfold handleLoad
  rw [run_get_bind]
  cases hpolicy : s.1.policy with
  | default => exact ⟨hs, fun h => by contradiction⟩
  | input =>
      dsimp only
      unfold callInput
      cases hp : s.2 with
      | none => exact hs
      | some p =>
          have heq : (s.1, some p) = s := by rw [← hp]
          refine ⟨by rw [heq]; exact hs, fun hw => hs.watched ⟨hpolicy, p, hp, hw⟩⟩

/-- **`_load_policy`** changes bytes only if the policy watches the address. -/
theorem loadPolicy_affects (hwf : s₀.1.WellFormed) (hbase : s₀.1.base ≤ addr) (hn : 0 < n)
    (hW : Watched s₀ addr → Within W addr n) (hinput : A.inputs addr) (hread : A.reads addr n) :
    Affects W A s₀ (loadPolicy addr n) := by
  refine Triple.bind (handleLoad_affects addr) fun handled => ?_
  refine Triple.ite (fun hhandled => ?_) fun _ => Triple.pure fun _ hs => hs.1
  intro s hs
  refine Triple.read (P := Effect W A s₀) (fun t => ?_) s hs.1
  dsimp only
  refine Triple.bind (Q := fun _ => Effect W A s₀) ?_ fun _ => setFlags_affects addr _
  refine Triple.ite (fun _ => ?_) fun _ => Triple.pure fun _ h => h
  exact replaceData_affects (readBeforeWrite_returns hinput hread) hwf hbase hn (hW (hs.2 hhandled))

theorem loadUnit_affects (hwf : s₀.1.WellFormed) (hbase : s₀.1.base ≤ addr) (hn : 0 < n)
    (hW : Watched s₀ addr → Within W addr n) (hinput : A.inputs addr) (hread : A.reads addr n) :
    Affects W A s₀ (loadUnit addr n) :=
  Triple.bind (loadPolicy_affects hwf hbase hn hW hinput hread) fun _ =>
    Triple.read fun _ => Triple.pure fun _ h => h

theorem handleStore_affects (addr : Nat) : Affects W A s₀ (handleStore addr) := by
  refine Triple.read fun s => ?_
  cases s.1.policy with
  | default => exact Triple.pure fun _ h => h
  | input => exact callInput_affects fun _ => Triple.read fun _ => Triple.pure fun _ h => h

/-- **`_store_policy`** changes no byte outside the range. -/
theorem storePolicy_affects (hwf : s₀.1.WellFormed) (hbase : s₀.1.base ≤ addr) (hn : 0 < n)
    (hW : Within W addr n) (hO : Within A.stores addr n) : Affects W A s₀ (storePolicy addr n) := by
  refine Triple.bind (handleStore_affects addr) fun handled => ?_
  refine Triple.ite (fun _ => ?_) fun _ => Triple.pure fun _ h => h
  refine Triple.read fun t => ?_
  dsimp only
  refine Triple.bind (Q := fun _ => Effect W A s₀) ?_ fun _ => setFlags_affects addr _
  refine Triple.ite (fun _ => ?_) fun _ => ?_
  · exact replaceData_affects (writeBeforeRead_returns hO) hwf hbase hn hW
  · refine Triple.read fun s => ?_
    cases s.1.policy with
    | default => exact Triple.throw fun _ h => h
    | input => exact callInput_affects (addOutput_evolves hO)

theorem storeBytesRaw_affects {data : List Byte} (hc : s₀.1.Contains addr data.length)
    (hW : Within W addr data.length) :
    Affects W A s₀ (storeBytesRaw addr data) := by
  rintro ⟨m, p⟩ hs
  have hcontains := hc.of_sameMap hs.map.toSameMap
  rw [storeBytesRaw_ok p hcontains, meets_ok]
  refine ⟨hs.map.trans ⟨⟨rfl, rfl, rfl, PyList.length_writeFrom _ _ _⟩, rfl, rfl,
    fun a ha hne => ?_⟩, hs.policy⟩
  by_contra hW'
  refine hne ?_
  rw [byteAt_putBytes hcontains ha, if_neg fun hin => hW' (hW a hin.1 hin.2)]

theorem storeUnit_affects {data : List Byte} (hc : s₀.1.Contains addr data.length)
    (hn : 0 < data.length) (hW : Within W addr data.length) (hO : Within A.stores addr data.length) :
    Affects W A s₀ (storeUnit addr data.length data) := by
  refine Triple.bind (storePolicy_affects hc.wellFormed hc.base_le hn hW hO) fun _ => ?_
  rw [List.take_length]
  exact storeBytesRaw_affects hc hW

theorem storeBytes_affects {data : List Byte} (hc : s₀.1.Contains addr data.length)
    (hn : 0 < data.length) (hW : Within W addr data.length) (hO : Within A.stores addr data.length) :
    Affects W A s₀ (storeBytes addr data) :=
  Triple.bind (storePolicy_affects hc.wellFormed hc.base_le hn hW hO) fun _ =>
    storeBytesRaw_affects hc hW

end PolicyMemoryMap

/-! ## methods of the memory -/

namespace GodefroidMemory

open Section Memory PolicyMemoryMap

/-- The bytes of each object that may change, the ranges that are read, and the bytes that are
stored. -/
structure Footprint where
  changes : Nat → Nat → Prop
  reads : Nat → Nat → Prop
  stores : Nat → Prop

/-- What the policy sees of a footprint; any address may be an input. -/
def Footprint.accesses (F : Footprint) : Accesses := ⟨fun _ => True, F.reads, F.stores⟩

/-- One footprint is part of another. -/
structure Footprint.Le (F F' : Footprint) : Prop where
  changes : ∀ r a, F.changes r a → F'.changes r a
  reads : ∀ addr size, F.reads addr size → F'.reads addr size
  stores : ∀ a, F.stores a → F'.stores a

/-- All parts of a range may be read. -/
def Footprint.ReadsWithin (F : Footprint) (addr size : Nat) : Prop :=
  ∀ part n, addr ≤ part → part + n ≤ addr + size → F.reads part n

variable {α : Type} {F F' : Footprint} {m₀ : GodefroidMemory}

/-- What `add_map` sees to: the page table refers to objects that exist, and a map holds its range
and stands at pages from its base on. -/
structure Sound (m : GodefroidMemory) : Prop where
  closed : ∀ q r, m.memoryMaps.get? q = some r → r < m.numObjs
  wellFormed : ∀ r pm, m.objs r = .policy pm → pm.WellFormed
  anchored : ∀ a r pm, m.resolve a = some r → m.objs r = .policy pm → pm.base ≤ a

/-- What is left of `m₀`: its pages and the ranges and permissions of its maps, of which a byte
differs only where it may change; the policy may have evolved. -/
structure Kept (F : Footprint) (m₀ m : GodefroidMemory) : Prop where
  addressSize : m.addressSize = m₀.addressSize
  pageShift : m.pageShift = m₀.pageShift
  numObjs_le : m₀.numObjs ≤ m.numObjs
  mapped : ∀ q r, m₀.memoryMaps.get? q = some r → m.memoryMaps.get? q = some r
  entered : ∀ q r, m.memoryMaps.get? q = some r →
    m₀.memoryMaps.get? q = some r ∨ m₀.numObjs ≤ r ∧ r < m.numObjs ∧ m.objs r = .memoryMap
  objs : ∀ r < m₀.numObjs,
    Option.Rel (Alters (F.changes r)) (m₀.objs r).policyMap? (m.objs r).policyMap?
  policy : Option.Rel (Evolves F.accesses) m₀.shared m.shared

theorem Kept.refl (m : GodefroidMemory) : Kept F m m where
  addressSize := rfl
  pageShift := rfl
  numObjs_le := Nat.le_refl _
  mapped _ _ h := h
  entered _ _ h := .inl h
  objs r _ := by
    cases (m.objs r).policyMap? with
    | none => exact .none
    | some pm => exact .some (.refl pm)
  policy := rel_refl _

theorem Kept.mono {m : GodefroidMemory} (h : Kept F m₀ m) (hF : F.Le F') :
    Kept F' m₀ m where
  addressSize := h.addressSize
  pageShift := h.pageShift
  numObjs_le := h.numObjs_le
  mapped := h.mapped
  entered := h.entered
  objs r hr := by
    have hrel := h.objs r hr
    generalize (m₀.objs r).policyMap? = o₀ at hrel ⊢
    generalize (m.objs r).policyMap? = o at hrel ⊢
    cases hrel with
    | none => exact .none
    | some halters => exact .some (halters.mono (hF.changes r))
  policy := by
    have hrel := h.policy
    generalize m₀.shared = p₀ at hrel ⊢
    generalize m.shared = p at hrel ⊢
    cases hrel with
    | none => exact .none
    | some hevolves => exact .some (hevolves.mono ⟨fun _ _ => trivial, hF.reads, hF.stores⟩)

theorem Kept.page {m : GodefroidMemory} (h : Kept F m₀ m) (a : Nat) : m.page a = m₀.page a := by
  simp only [Memory.page, addressMask, h.addressSize, h.pageShift]

/-- An object that a page resolves to is an old one, at an old page, or it is no policy map. -/
theorem Kept.resolve {m : GodefroidMemory} (h : Kept F m₀ m) {a r : Nat} {pm : PolicyMemoryMap}
    (hr : m.resolve a = some r) (hpm : m.objs r = .policy pm) : m₀.resolve a = some r := by
  rw [Memory.resolve, h.page] at hr
  cases h.entered _ _ hr with
  | inl hold => exact hold
  | inr hnew => rw [hnew.2.2] at hpm; cases hpm

/-- An old page resolves as it did. -/
theorem Kept.resolve_old {m : GodefroidMemory} (h : Kept F m₀ m) {a r : Nat}
    (hr : m₀.resolve a = some r) : m.resolve a = some r := by
  rw [Memory.resolve, h.page]
  exact h.mapped _ _ hr

/-- The map that an old object was. -/
theorem Kept.old {m : GodefroidMemory} (h : Kept F m₀ m) {r : Nat} {pm : PolicyMemoryMap}
    (hr : r < m₀.numObjs) (hpm : m.objs r = .policy pm) :
    ∃ pm₀, m₀.objs r = .policy pm₀ ∧ Alters (F.changes r) pm₀ pm := by
  have hrel := h.objs r hr
  rw [hpm] at hrel
  cases hobj : m₀.objs r with
  | memoryMap => rw [hobj] at hrel; cases hrel
  | policy pm₀ =>
      rw [hobj] at hrel
      cases hrel with
      | some halters => exact ⟨pm₀, rfl, halters⟩

/-- The map that an old object is now. -/
theorem Kept.now {m : GodefroidMemory} (h : Kept F m₀ m) {r : Nat} {pm₀ : PolicyMemoryMap}
    (hr : r < m₀.numObjs) (hpm : m₀.objs r = .policy pm₀) :
    ∃ pm, m.objs r = .policy pm ∧ Alters (F.changes r) pm₀ pm := by
  have hrel := h.objs r hr
  rw [hpm] at hrel
  cases hobj : m.objs r with
  | memoryMap => rw [hobj] at hrel; cases hrel
  | policy pm =>
      rw [hobj] at hrel
      cases hrel with
      | some halters => exact ⟨pm, rfl, halters⟩

/-- The policy is still there. -/
theorem Kept.evolves {m : GodefroidMemory} {p₀ : InputMemoryPolicy} (h : Kept F m₀ m)
    (h₀ : m₀.shared = some p₀) : ∃ p, m.shared = some p ∧ Evolves F.accesses p₀ p := by
  have hrel := h.policy
  rw [h₀] at hrel
  generalize m.shared = o at hrel
  cases hrel with
  | some hevolves => exact ⟨_, rfl, hevolves⟩

/-- Both ways out of a method leave of `m₀` what is left. -/
abbrev Keeps (F : Footprint) (m₀ : GodefroidMemory) (f : EStateM PyExc GodefroidMemory α) :
    Prop :=
  Triple (Kept F m₀) f (fun _ => Kept F m₀) fun _ => Kept F m₀

/-- Looking up a page may enter a map of the base class. -/
theorem findMap_kept (a : Nat) : Triple (Kept F m₀) (findMap a)
    (fun r m => Kept F m₀ m ∧ m.resolve a = some r) fun _ => Kept F m₀ := by
  intro m hm
  cases h : m.resolve a with
  | some r => rw [findMap_of_resolve h]; exact ⟨hm, h⟩
  | none =>
      rw [findMap_absent h]
      have hother {r : Nat} (hr : r < m.numObjs) :
          Function.update m.objs m.numObjs (MemoryMap.new (μ := GodefroidMap)) r = m.objs r :=
        Function.update_of_ne (Nat.ne_of_lt hr) _ _
      refine ⟨⟨hm.addressSize, hm.pageShift, Nat.le_succ_of_le hm.numObjs_le, fun q r hr => ?_,
        fun q r hr => ?_, fun r hr => ?_, hm.policy⟩, by simp [Memory.resolve, Memory.page,
          addressMask]⟩
      · have hne : q ≠ m.page a := by
          rintro rfl
          cases (hm.mapped _ _ hr).symm.trans h
        simpa [hne] using hm.mapped q r hr
      · simp only [PyDict.get?_set] at hr
        split at hr
        · cases hr
          exact .inr ⟨hm.numObjs_le, Nat.lt_succ_self _, Function.update_self ..⟩
        · refine (hm.entered q r hr).imp_right fun hnew => ?_
          exact ⟨hnew.1, Nat.lt_succ_of_lt hnew.2.1, (hother hnew.2.1).trans hnew.2.2⟩
      · simp only [hother (Nat.lt_of_lt_of_le hr hm.numObjs_le)]
        exact hm.objs r hr

theorem findMap_keeps (a : Nat) : Keeps F m₀ (findMap a) :=
  (findMap_kept a).post fun _ _ h => h.1

/-- Run a method of the object that a page resolves to. -/
theorem invoke_kept {f : PolicyMethod α} {exc : PyExc} {a r : Nat}
    (hf : ∀ pm, m₀.resolve a = some r → m₀.objs r = .policy pm →
      Affects (F.changes r) F.accesses (pm, m₀.shared) f)
    (hclosed : ∀ q r, m₀.memoryMaps.get? q = some r → r < m₀.numObjs) :
    Triple (fun m => Kept F m₀ m ∧ m.resolve a = some r) (invoke r (GodefroidMap.onPolicy exc f))
      (fun _ => Kept F m₀) fun _ => Kept F m₀ := by
  rintro m ⟨hm, hres⟩
  have hsame : { m with objs := Function.update m.objs r (m.objs r), shared := m.shared } = m := by
    rw [Function.update_eq_self]
  cases hobj : m.objs r with
  | memoryMap =>
      rw [hobj] at hsame
      simpa only [invoke, GodefroidMap.onPolicy, hobj, hsame, meets_error] using hm
  | policy pm =>
      have hold := hm.resolve hres hobj
      have hlt := hclosed _ _ hold
      obtain ⟨pm₀, hpm₀, halters⟩ := hm.old hlt hobj
      have hrun := hf pm₀ hold hpm₀ (pm, m.shared) ⟨halters, hm.policy⟩
      -- only this object and the policy have changed
      have hafter (s : PolicyMemoryMap × Option InputMemoryPolicy)
          (hs : Effect (F.changes r) F.accesses (pm₀, m₀.shared) s) :
          Kept F m₀ { m with objs := Function.update m.objs r (.policy s.1), shared := s.2 } := by
        refine ⟨hm.addressSize, hm.pageShift, hm.numObjs_le, hm.mapped, fun q r' hr' => ?_,
          fun r' hr' => ?_, hs.policy⟩
        · refine (hm.entered q r' hr').imp_right fun hnew => ?_
          have hne : r' ≠ r := fun heq => absurd hnew.1 (by omega)
          exact ⟨hnew.1, hnew.2.1, (Function.update_of_ne hne ..).trans hnew.2.2⟩
        · dsimp only
          by_cases heq : r' = r
          · subst heq
            rw [hpm₀, Function.update_self]
            exact .some hs.map
          · rw [Function.update_of_ne heq]
            exact hm.objs r' hr'
      simp only [invoke, GodefroidMap.onPolicy, hobj]
      cases hr : f (pm, m.shared) with
      | ok b s => rw [hr] at hrun; exact hafter s hrun
      | error e s => rw [hr] at hrun; exact hafter s hrun

theorem crossesFrom_kept (mmap addr k : Nat) :
    ∀ i, Keeps F m₀ (crossesFrom mmap addr i k) := by
  induction k with
  | zero => exact fun _ => Triple.pure fun _ h => h
  | succ k ih =>
      intro i
      refine Triple.bind (findMap_keeps (addr + i)) fun r => ?_
      exact Triple.ite (fun _ => Triple.pure fun _ h => h) fun _ => ih (i + 1)

theorem isUnit_kept (addr n : Nat) : Triple (Kept F m₀) (isUnit addr n)
    (fun unit m => Kept F m₀ m ∧ (unit = true → n ∈ [1, 2, 4, 8])) fun _ => Kept F m₀ := by
  refine Triple.ite (fun hn => ?_) fun _ => Triple.pure fun _ h => ⟨h, fun hb => by contradiction⟩
  refine Triple.bind (Q := fun _ => Kept F m₀) ?_ fun _ => Triple.pure fun _ h => ⟨h, fun _ => hn⟩
  exact Triple.bind (findMap_keeps addr) fun r => crossesFrom_kept r addr _ 1

/-! ### loads -/

/-- Bytes that the policy of `m₀` may invent, by a load that it watches. -/
def Invented (m₀ : GodefroidMemory) (r a : Nat) : Prop :=
  ∃ pm addr, m₀.objs r = .policy pm ∧ m₀.resolve addr = some r ∧ Watched (pm, m₀.shared) addr ∧
    addr ≤ a ∧ a < addr + 8

section

variable (hsound : Sound m₀) (hW : ∀ r a, Invented m₀ r a → F.changes r a)

include hsound hW

/-- A method that loads at most eight bytes. -/
theorem invoke_load_kept (exc : PyExc) (addr r : Nat) {n : Nat} (hn : 0 < n) (hle : n ≤ 8)
    (hR : F.ReadsWithin addr n) :
    Triple (fun m => Kept F m₀ m ∧ m.resolve addr = some r)
      (invoke r (GodefroidMap.onPolicy exc (loadUnit addr n))) (fun _ => Kept F m₀)
      fun _ => Kept F m₀ := by
  refine invoke_kept (fun pm hres hpm => ?_) hsound.closed
  refine loadUnit_affects (hsound.wellFormed r pm hpm) (hsound.anchored addr r pm hres hpm) hn
    (fun hwatched a h1 h2 => ?_) trivial (hR addr n (Nat.le_refl _) (Nat.le_refl _))
  exact hW r a ⟨pm, addr, hpm, hres, hwatched, h1, by omega⟩

theorem loadEach_kept (addr k : Nat) :
    ∀ i, F.ReadsWithin (addr + i) k → Keeps F m₀ (loadEach addr i k) := by
  induction k with
  | zero => exact fun _ _ => Triple.pure fun _ h => h
  | succ k ih =>
      intro i hR
      have hfirst : F.ReadsWithin (addr + i) 1 := fun a n h1 h2 => hR a n h1 (by omega)
      have hrest : F.ReadsWithin (addr + (i + 1)) k :=
        fun a n h1 h2 => hR a n (by omega) (by omega)
      refine Triple.bind (findMap_kept (addr + i)) fun r => ?_
      refine Triple.bind (invoke_load_kept hsound hW _ _ r Nat.one_pos (by omega) hfirst)
        fun bs => ?_
      cases bs with
      | nil => exact Triple.throw fun _ h => h
      | cons b _ => exact Triple.bind (ih (i + 1) hrest) fun _ => Triple.pure fun _ h => h

/-- **A load** changes only bytes that the policy may invent. -/
theorem load_kept {addr n : Nat} (hR : F.ReadsWithin addr n) : Keeps F m₀ (load addr n) := by
  refine Triple.bind (isUnit_kept addr n) fun unit => Triple.ite (fun hone => ?_) fun _ => ?_
  · rintro m ⟨hm, hunit⟩
    have hn := hunit hone
    simp only [List.mem_cons, List.not_mem_nil, or_false] at hn
    have hload := invoke_load_kept hsound hW
    refine Triple.bind (findMap_kept addr) (fun r => ?_) m hm
    refine Triple.ite (fun h => hload _ addr r (by omega) (by omega) (h ▸ hR)) fun h1 => ?_
    refine Triple.ite (fun h => hload _ addr r (by omega) (by omega) (h ▸ hR)) fun h2 => ?_
    refine Triple.ite (fun h => hload _ addr r (by omega) (by omega) (h ▸ hR)) fun h4 => ?_
    have h8 : n = 8 := by omega
    exact hload _ addr r (by omega) (by omega) (h8 ▸ hR)
  · exact (loadEach_kept hsound hW addr n 0 hR).pre fun _ h => h.1

end

/-! ### stores -/

/-- The byte lies at a page of the map, and the map grants writing it. -/
def Granted (m₀ : GodefroidMemory) (r a : Nat) : Prop :=
  m₀.resolve a = some r ∧ ∃ pm, m₀.objs r = .policy pm ∧ pm.canWrite a = true

theorem contains_of_canWrite {pm : PolicyMemoryMap} {a : Nat} (h : pm.canWrite a = true) :
    pm.base ≤ a ∧ a < pm.limit := by
  simp only [PolicyMemoryMap.canWrite, canDoOp, Bool.and_eq_true, decide_eq_true_eq] at h
  exact h.2

/-- What is granted now was granted before. -/
theorem canWrite_kept (hclosed : ∀ q r, m₀.memoryMaps.get? q = some r → r < m₀.numObjs) (a : Nat) :
    Triple (Kept F m₀) (canWrite a)
      (fun ok m => Kept F m₀ m ∧ (ok = true → ∃ r, Granted m₀ r a)) fun _ => Kept F m₀ := by
  refine Triple.bind (findMap_kept a) fun r => ?_
  rintro m ⟨hm, hres⟩
  refine ⟨hm, fun hok => ?_⟩
  change ((m.objs r).policyMap?.map (·.canWrite a)).getD false = true at hok
  cases hobj : m.objs r with
  | memoryMap => rw [hobj] at hok; cases hok
  | policy pm =>
      rw [hobj] at hok
      have hold := hm.resolve hres hobj
      obtain ⟨pm₀, hpm₀, halters⟩ := hm.old (hclosed _ _ hold) hobj
      refine ⟨r, hold, pm₀, hpm₀, ?_⟩
      change pm.canWrite a = true at hok
      rwa [PolicyMemoryMap.canWrite, canDoOp, halters.accessFlags, halters.base, halters.limit]
        at hok

theorem probe_kept {β : Type} (a : Nat) (f : Nat → GodefroidMemory → β) :
    Keeps F m₀ (do
      let r ← findMap a
      return f r (← get)) :=
  Triple.bind (findMap_keeps a) fun _ => Triple.read fun _ => Triple.pure fun _ h => h

section

variable (hsound : Sound m₀)

include hsound

/-- A method that stores bytes of one map. -/
theorem invoke_store_kept (exc : PyExc) (addr r : Nat) (data : List Byte) (hn : 0 < data.length)
    (hgrant : ∀ i < data.length, Granted m₀ r (addr + i))
    (hW : ∀ i < data.length, F.changes r (addr + i)) (hO : Within F.stores addr data.length) :
    Triple (fun m => Kept F m₀ m ∧ m.resolve addr = some r)
        (invoke r (GodefroidMap.onPolicy exc (storeUnit addr data.length data)))
        (fun _ => Kept F m₀) (fun _ => Kept F m₀) ∧
      Triple (fun m => Kept F m₀ m ∧ m.resolve addr = some r)
        (invoke r (GodefroidMap.onPolicy exc (storeBytes addr data)))
        (fun _ => Kept F m₀) fun _ => Kept F m₀ := by
  have hcontains (pm : PolicyMemoryMap) (hpm : m₀.objs r = .policy pm) :
      pm.Contains addr data.length := by
    have hbounds (i : Nat) (hi : i < data.length) : pm.base ≤ addr + i ∧ addr + i < pm.limit := by
      obtain ⟨-, pm', hpm', hwrite⟩ := hgrant i hi
      obtain rfl : pm = pm' := GodefroidMap.policy.inj (hpm.symm.trans hpm')
      exact contains_of_canWrite hwrite
    have hfirst := hbounds 0 hn
    have hlast := hbounds (data.length - 1) (by omega)
    exact ⟨hsound.wellFormed r pm hpm, by omega, by omega⟩
  have hrange : Within (F.changes r) addr data.length := by
    intro a h1 h2
    have := hW (a - addr) (by omega)
    rwa [show addr + (a - addr) = a by omega] at this
  exact ⟨invoke_kept (fun pm _ hpm => storeUnit_affects (hcontains pm hpm) hn hrange hO) hsound.closed,
    invoke_kept (fun pm _ hpm => storeBytes_affects (hcontains pm hpm) hn hrange hO) hsound.closed⟩

theorem storeEach_kept (addr : Nat) (data : List Byte) :
    ∀ i, (∀ j < data.length, ∃ r, Granted m₀ r (addr + (i + j))) →
      (∀ j < data.length, ∀ r, Granted m₀ r (addr + (i + j)) → F.changes r (addr + (i + j))) →
      Within F.stores (addr + i) data.length → Keeps F m₀ (storeEach addr i data) := by
  induction data with
  | nil => exact fun _ _ _ _ => Triple.pure fun _ h => h
  | cons b data ih =>
      intro i hgrant hW hO m hm
      rw [List.length_cons] at hO
      obtain ⟨r, hr⟩ := hgrant 0 (by simp)
      rw [Nat.add_zero] at hr
      have hres : m.resolve (addr + i) = some r := by
        rw [Memory.resolve, hm.page]
        exact hm.mapped _ _ hr.1
      have hbyte := (invoke_store_kept (F := F) hsound (.memoryAccess (.storeBytes 1 (addr + i)))
        (addr + i) r [b] Nat.one_pos
        (fun j hj => by rw [show addr + i + j = addr + i by simp at hj; omega]; exact hr)
        (fun j hj => by
          rw [show addr + i + j = addr + i by simp at hj; omega]
          exact hW 0 (by simp) r hr)
        fun a h1 h2 => hO a h1 (by simp only [List.length_singleton] at h2; omega)).2
      refine Triple.bind (P := fun m' => m' = m) (Q := fun r' m' => r' = r ∧ Kept F m₀ m' ∧
        m'.resolve (addr + i) = some r) (fun m' hm' => ?_) (fun r' => ?_) m rfl
      · rw [show m' = m from hm', findMap_of_resolve hres]
        exact ⟨rfl, hm, hres⟩
      · rintro m' ⟨rfl, hm', hres'⟩
        have hrest : Within F.stores (addr + (i + 1)) data.length :=
          fun a h1 h2 => hO a (by omega) (by omega)
        refine Triple.bind hbyte (fun _ => ih (i + 1) (fun j hj => ?_) (fun j hj => ?_) hrest) m'
          ⟨hm', hres'⟩
        · have := hgrant (j + 1) (by simp only [List.length_cons]; omega)
          rwa [show i + (j + 1) = i + 1 + j by omega] at this
        · have := hW (j + 1) (by simp only [List.length_cons]; omega)
          rwa [show i + (j + 1) = i + 1 + j by omega] at this

/-- **A store** to bytes that are granted changes no others. -/
theorem store_kept {addr : Nat} {data : List Byte}
    (hgrant : ∀ i < data.length, ∃ r, Granted m₀ r (addr + i))
    (hW : ∀ i < data.length, ∀ r, Granted m₀ r (addr + i) → F.changes r (addr + i))
    (hO : Within F.stores addr data.length) : Keeps F m₀ (store addr data) := by
  intro m hm
  have hresolve : ∀ j < data.length, m.resolve (addr + j) =
      some ((m₀.resolve (addr + j)).getD 0) := by
    intro j hj
    obtain ⟨r, hr⟩ := hgrant j hj
    rw [hr.1, Option.getD_some, Memory.resolve, hm.page]
    exact hm.mapped _ _ hr.1
  obtain ⟨unit, hunit, hone⟩ := isUnit_of_resolve hresolve
  rw [store, run_bind_ok hunit]
  cases unit with
  | false =>
      exact storeEach_kept hsound addr data 0 (by simpa using hgrant) (by simpa using hW) hO m hm
  | true =>
      obtain ⟨hn, hsame⟩ := hone rfl
      simp only [List.mem_cons, List.not_mem_nil, or_false] at hn
      have hpos : 0 < data.length := by omega
      obtain ⟨r, hr⟩ := hgrant 0 hpos
      rw [Nat.add_zero] at hr
      have hall (i : Nat) (hi : i < data.length) : Granted m₀ r (addr + i) := by
        obtain ⟨r', hr'⟩ := hgrant i hi
        have hR := hsame i hi
        rw [hr'.1, Nat.add_zero, hr.1, Option.getD_some, Option.getD_some] at hR
        exact hR ▸ hr'
      have hres : m.resolve addr = some r := by
        rw [Memory.resolve, hm.page]
        exact hm.mapped _ _ hr.1
      have hstore (exc : PyExc) := (invoke_store_kept (F := F) hsound exc addr r data hpos hall
        (fun i hi => hW i hi r (hall i hi)) hO).1 m ⟨hm, hres⟩
      simp only [if_true, run_bind_ok (findMap_of_resolve hres)]
      rcases hn with h | h | h | h <;> rw [h] at hstore ⊢ <;> exact hstore _

end

end GodefroidMemory

/-! ## methods of the process -/

namespace GodefroidProc

open Memory GodefroidMemory Section Proc

variable {τ α : Type} {F : Footprint} {m₀ : GodefroidMemory}

/-- The memory of the process is what is left of `m₀`. -/
def Retains (F : Footprint) (m₀ : GodefroidMemory) (p : GodefroidProc τ) : Prop :=
  Kept F m₀ p.memory

theorem threadFree_retains : Proc.ThreadFree (Retains F m₀ : GodefroidProc τ → Prop) :=
  fun _ _ h => h

theorem callPolicy_retains {m : PolicyM α} (h : EvolvesThrough F.accesses m) :
    Binding.Survives (Retains F m₀) (callPolicy m : EStateM PyExc (GodefroidProc τ) α) := by
  intro p hp
  unfold callPolicy
  cases hs : p.memory.shared with
  | none => exact hp
  | some policy =>
      have hrun := h policy policy .refl
      have hafter (policy' : InputMemoryPolicy) (hevolves : Evolves F.accesses policy policy') :
          Kept F m₀ { p.memory with shared := some policy' } :=
        ⟨hp.addressSize, hp.pageShift, hp.numObjs_le, hp.mapped, hp.entered, hp.objs,
          PolicyMemoryMap.rel_trans (hs ▸ hp.policy) (.some hevolves)⟩
      dsimp only
      cases hr : m policy with
      | ok a policy' => rw [hr] at hrun; exact hafter policy' hrun
      | error e policy' => rw [hr] at hrun; exact hafter policy' hrun

theorem computeAddress_retains (thread : Thread τ) (seg : RegName)
    (base index scale disp size : Nat) (hint : MemRequestHint) :
    Binding.Survives (Retains F m₀) (computeAddress thread seg base index scale disp size hint) := by
  refine Triple.bind (Proc.computeAddress_survives thread threadFree_retains _ _ _ _ _ _ _)
    fun result => ?_
  refine Triple.bind (callPolicy_retains (handleCompute_evolves trivial _ _ _ _ _)) fun addr => ?_
  exact Triple.pure fun _ h => h

section

variable (hsound : Sound m₀)

include hsound

/-- A checked byte that is to be written is granted. -/
theorem checkByte_grants (hint : MemRequestHint) (a : Nat) :
    Triple (Kept F m₀) (checkByte hint a)
      (fun _ m => Kept F m₀ m ∧ (isWriteHint hint = true → ∃ r, Granted m₀ r a))
      fun _ => Kept F m₀ := by
  have hrequire {P : Prop} (check : Bool) {perm : EStateM PyExc GodefroidMemory Bool}
      (h : GodefroidMemory.Keeps F m₀ perm) (fault : AccessFault) :
      Triple (fun m => Kept F m₀ m ∧ P) (require check perm fault)
        (fun _ m => Kept F m₀ m ∧ P) fun _ => Kept F m₀ := by
    refine Triple.ite (fun _ => ?_) fun _ => Triple.pure fun _ h => h
    refine Triple.bind (Q := fun _ m => Kept F m₀ m ∧ P) ?_ fun ok => ?_
    · rintro m ⟨hm, hP⟩
      have hrun := h m hm
      cases hr : perm m with
      | ok b m' => rw [hr] at hrun; exact ⟨hrun, hP⟩
      | error e m' => rw [hr] at hrun; exact hrun
    · exact Triple.ite (fun _ => Triple.pure fun _ h => h) fun _ => Triple.throw fun _ h => h.1
  refine Triple.bind ((hrequire (P := True) _ (probe_kept a _) _).pre fun _ h => ⟨h, trivial⟩)
    fun _ => ?_
  refine Triple.bind (Q := fun _ m => Kept F m₀ m ∧ (isWriteHint hint = true → ∃ r, Granted m₀ r a))
    ?_ fun _ => hrequire _ (probe_kept a _) _
  refine Triple.ite (fun _ => ?_) fun hno => Triple.pure fun _ h => ⟨h.1, fun hw => absurd hw hno⟩
  refine Triple.bind ((canWrite_kept hsound.closed a).pre fun _ h => h.1) fun ok => ?_
  exact Triple.ite (fun hok => Triple.pure fun _ h => ⟨h.1, fun _ => h.2 hok⟩)
    fun _ => Triple.throw fun _ h => h.1

/-- So are all bytes of a checked range. -/
theorem checkBytes_grants (hint : MemRequestHint) (addr : Nat) (l : List Nat) :
    Triple (Kept F m₀) (l.forM fun i => checkByte hint (addr + i))
      (fun _ m => Kept F m₀ m ∧
        (isWriteHint hint = true → ∀ i ∈ l, ∃ r, Granted m₀ r (addr + i)))
      fun _ => Kept F m₀ := by
  induction l with
  | nil => exact Triple.pure fun _ h => ⟨h, by simp⟩
  | cons i l ih =>
      refine Triple.bind (checkByte_grants hsound hint (addr + i)) fun _ => ?_
      rintro m ⟨hm, hfirst⟩
      refine ih.conseq (fun _ h => h) (fun _ m' h => ⟨h.1, fun hw j hj => ?_⟩) (fun _ _ h => h) m hm
      cases List.mem_cons.mp hj with
      | inl heq => rw [heq]; exact hfirst hw
      | inr hmem => exact h.2 hw j hmem

/-- **`read_memory`** for a hint to write grants its bytes. -/
theorem readMemory_grants (hW : ∀ r a, Invented m₀ r a → F.changes r a) {addr n : Nat}
    (hR : F.ReadsWithin addr n) (hint : MemRequestHint) :
    Triple (Retains F m₀) (readMemory addr n hint : EStateM PyExc (GodefroidProc τ) PyValue)
      (fun _ p => Retains F m₀ p ∧ (isWriteHint hint = true → ∀ i < n, ∃ r, Granted m₀ r (addr + i)))
      fun _ => Retains F m₀ := by
  refine Triple.bind (onMemory_triple (checkBytes_grants hsound hint addr (List.range n))) fun _ => ?_
  rintro p ⟨hp, hgrant⟩
  refine Triple.bind (onMemory_triple (load_kept hsound hW hR)) (fun bs => ?_) p hp
  exact Triple.pure fun _ h => ⟨h, fun hw i hi => hgrant hw i (List.mem_range.mpr hi)⟩

theorem writeMemory_retains {addr : Nat} {data : List Byte}
    (hgrant : ∀ i < data.length, ∃ r, Granted m₀ r (addr + i))
    (hW : ∀ i < data.length, ∀ r, Granted m₀ r (addr + i) → F.changes r (addr + i))
    (hO : Within F.stores addr data.length) :
    Binding.Survives (Retains F m₀)
      (writeMemory addr data : EStateM PyExc (GodefroidProc τ) Unit) :=
  onMemory_triple (store_kept hsound hgrant hW hO)

end

end GodefroidProc

/-! ## runs -/

/-- The callback stored to the byte, or tried to. -/
def Event.Stores (a : Nat) : Event → Prop
  | .writeMem addr size _ _ => addr.toNat ≤ a ∧ a < addr.toNat + size / 8
  | _ => False

instance (a : Nat) (e : Event) : Decidable (e.Stores a) :=
  match e with
  | .writeMem .. => inferInstanceAs (Decidable (_ ∧ _))
  | .computeAddress .. | .readReg .. | .writeReg .. | .readMem .. | .readFPU .. | .writeFPU .. =>
      inferInstanceAs (Decidable False)

/-- The callback read the byte, or tried to. -/
def Event.Reads (a : Nat) : Event → Prop
  | .readMem addr size _ _ => addr.toNat ≤ a ∧ a < addr.toNat + size / 8
  | _ => False

namespace Process

open GodefroidMemory GodefroidProc Section Binding

variable {τ α : Type} {m₀ : GodefroidMemory} {t₀ : List Event}

/-- The bytes that a run with these callbacks may have changed. -/
def MayChange (m₀ : GodefroidMemory) (events : List Event) (r a : Nat) : Prop :=
  Invented m₀ r a ∨ Granted m₀ r a ∧ ∃ e ∈ events, e.Stores a

/-- The footprint of these callbacks. -/
def footprint (m₀ : GodefroidMemory) (events : List Event) : Footprint where
  changes := MayChange m₀ events
  reads addr size := ∃ e ∈ events, Within e.Reads addr size
  stores a := ∃ e ∈ events, e.Stores a

/-- The memory is what the callbacks since `t₀` have left of `m₀`. -/
def Remains (m₀ : GodefroidMemory) (t₀ : List Event) : Observation (Binding (GodefroidProc τ)) :=
  fun b t => ∃ events, t = t₀ ++ events ∧ Retains (footprint m₀ events) m₀ b.self

/-- All bytes of a write are granted. -/
def AllGranted (m₀ : GodefroidMemory) (addr : Word) (size : Nat) :
    Observation (Binding (GodefroidProc τ)) :=
  fun _ _ => ∀ i < size / 8, ∃ r, Granted m₀ r (addr.toNat + i)

/-- The footprint has what the callback does. -/
structure Has (m₀ : GodefroidMemory) (F : Footprint) (e : Event) : Prop where
  invented : ∀ r a, Invented m₀ r a → F.changes r a
  granted : ∀ r a, Granted m₀ r a → e.Stores a → F.changes r a
  reads : ∀ addr size, Within e.Reads addr size → F.reads addr size
  stores : ∀ a, e.Stores a → F.stores a

/-- A read has read all parts of its range. -/
theorem Has.readsWithin {F : Footprint} {addr : Word} {size : Nat} {hint : MemRequestHint} {ok : Bool}
    (h : Has m₀ F (.readMem addr size hint ok)) : F.ReadsWithin addr.toNat (size / 8) :=
  fun part n h1 h2 => h.reads part n fun _ ha hb => ⟨Nat.le_trans h1 ha, Nat.lt_of_lt_of_le hb h2⟩

/-- One more callback. -/
theorem footprint_snoc (m₀ : GodefroidMemory) (events : List Event) (e : Event) :
    (footprint m₀ events).Le (footprint m₀ (events ++ [e])) ∧
      Has m₀ (footprint m₀ (events ++ [e])) e := by
  have hold {P : Event → Prop} : (∃ x ∈ events, P x) → ∃ x ∈ events ++ [e], P x :=
    fun ⟨x, hx, hP⟩ => ⟨x, List.mem_append_left _ hx, hP⟩
  have hnew {P : Event → Prop} (hP : P e) : ∃ x ∈ events ++ [e], P x := ⟨e, by simp, hP⟩
  exact ⟨⟨fun r a h => h.imp_right fun h' => ⟨h'.1, hold h'.2⟩, fun _ _ => hold, fun a => hold⟩,
    ⟨fun r a => .inl, fun r a hgrant hstores => .inr ⟨hgrant, hnew hstores⟩,
      fun _ _ h => hnew h, fun a h => hnew h⟩⟩

/-- A callback that does no more than its footprint says. -/
theorem Remains.snoc {b b' : Binding (GodefroidProc τ)} {t : List Event} {e : Event}
    (h : Remains m₀ t₀ b t)
    (hb : ∀ F, Has m₀ F e → Retains F m₀ b.self → Retains F m₀ b'.self) :
    Remains m₀ t₀ b' (t ++ [e]) := by
  obtain ⟨events, rfl, hkept⟩ := h
  obtain ⟨hle, hhas⟩ := footprint_snoc m₀ events e
  exact ⟨events ++ [e], by simp, hb _ hhas (hkept.mono hle)⟩

/-- **The executor of a Godefroid process** stores only what is granted. -/
theorem guarded_remains (process : Process) (thread : Thread τ) (hsound : Sound m₀)
    (t₀ : List Event) :
    Guarded (process.godefroidExecutor thread) (Remains m₀ t₀) (AllGranted m₀) where
  reads :=
    { computeAddress := fun seg base index scale disp size hint h => h.snoc fun F _ hb =>
        computeAddress_survives _ (Triple.bind (computeAddress_retains thread _ _ _ _ _ _ _)
          fun _ => Triple.pure fun _ h => h) hb
      readReg := fun name size hint data h => h.snoc fun F _ hb => by
        have hread : Survives (Retains F m₀)
            ((GodefroidProc.methods thread).readRegister name hint) :=
          Triple.bind (Proc.readRegister_survives thread threadFree_retains _ _) fun _ =>
            Triple.pure fun _ h => h
        exact readReg_survives hread hb size data
      readMem := fun addr size hint data h => h.snoc fun F hF hb =>
        readMem_survives ((readMemory_grants hsound hF.invented
          hF.readsWithin _).post fun _ _ h => h.1) hb data
      readFPU := fun fpu h => h.snoc fun F _ hb =>
        readFPU_survives (Proc.readFPU_survives thread threadFree_retains) hb fpu
      clearError := fun h => h }
  ok_computeAddress _ _ _ _ _ _ _ hok _ := hok
  ok_readMem _ _ _ _ hok _ := hok
  grant := by
    intro b t addr len hint data hs hlen hhint hread
    obtain ⟨events, -, hkept⟩ := hs
    obtain ⟨hle, hhas⟩ := footprint_snoc m₀ events (.readMem addr (8 * len) hint true)
    have hwrite : Proc.isWriteHint hint = true := by
      cases hint <;> first | rfl | contradiction
    change (readMem (GodefroidProc.methods thread) addr (8 * len) hint data b).1 = true at hread
    unfold readMem at hread
    split at hread
    · contradiction
    · have hgrants := readMemory_grants (τ := τ) hsound hhas.invented
        hhas.readsWithin hint
      obtain ⟨a, b', hc, hgood⟩ | ⟨e, b', hc, -⟩ := call_cases hgrants (hkept.mono hle)
      · exact hgood.2 hwrite
      · simp only [GodefroidProc.methods, Proc.methods, hc] at hread
        contradiction
  writeMem := by
    intro b t addr size data hs hok
    refine hs.snoc fun F hF hb => writeMem_survives ?_ hb
    refine writeMemory_retains hsound (by rw [Bits.length_toBytes]; exact hok) (fun i hi r hr => ?_)
      fun a h1 h2 => ?_
    · rw [Bits.length_toBytes] at hi
      exact hF.granted r _ hr ⟨by omega, by omega⟩
    · rw [Bits.length_toBytes] at h2
      exact hF.stores a ⟨h1, h2⟩
  ok_writeMem _ _ _ hok _ _ := hok
  writeReg name size data hs := hs.snoc fun F _ hb =>
    writeReg_survives (Proc.writeRegister_survives thread threadFree_retains _ _) hb
  writeFPU fpu hs := hs.snoc fun F _ hb =>
    writeFPU_survives (Proc.onThread_survives threadFree_retains _) hb

/-- A call of `execute` leaves what it may, however it ends. -/
theorem godefroidExecute_remains {process : Process} (hplain : process.PlainMemory)
    (hsound : Sound m₀) (thread : Thread τ) (k : Nat) :
    Triple (Sat (Remains m₀ t₀)) (process.godefroidExecute thread k)
      (fun _ => Sat (Remains m₀ t₀)) fun _ => Sat (Remains m₀ t₀) := by
  let G : GodefroidProc τ → List Event → Prop := fun p t =>
    ∃ events, t = t₀ ++ events ∧ Retains (footprint m₀ events) m₀ p
  refine Triple.ite (fun _ => ?_) fun _ => Triple.throw fun _ h => h
  refine Triple.bind (execute_keeps (G := G)
    ((guarded_remains process thread hsound t₀).execute hplain k)) fun _ => ?_
  refine callSelf_keeps (G := G) fun t p hp => ?_
  obtain ⟨events, htrace, hkept⟩ := hp
  have hadd := addToTSC_survives thread threadFree_retains k p hkept
  cases hr : addToTSC thread k p with
  | ok a p' => rw [hr] at hadd; exact ⟨events, htrace, hadd⟩
  | error e p' => rw [hr] at hadd; exact ⟨events, htrace, hadd⟩

/-- **Every run** of a Godefroid process changes only bytes that the policy may invent, or that a
`WriteMem` covers at a page whose map grants writing. -/
theorem godefroidRun_remains {process : Process} (hplain : process.PlainMemory)
    (hsound : Sound m₀) (calls : List (Thread τ × Nat)) :
    ∀ w : GodefroidState τ, Sat (Remains m₀ t₀) w →
      Sat (Remains m₀ t₀) (process.godefroidRun calls w) := by
  induction calls with
  | nil => exact fun _ hw => hw
  | cons call calls ih =>
      intro w hw
      have hcall := godefroidExecute_remains hplain hsound call.1 call.2 w hw
      unfold godefroidRun
      cases hrun : process.godefroidExecute call.1 call.2 w with
      | ok u w' => rw [hrun] at hcall; exact ih w' hcall
      | error e w' => rw [hrun] at hcall; exact ih w' hcall

end Process

end Microx
