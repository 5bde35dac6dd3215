import Microx.Memory.Holes

/-!
# Microx.Memory.Looking

What `can_read`, `can_write`, `can_execute` and `load` leave of the address
space, as `find_hole` and `find_maps_by_name` show it.

The page table is a `defaultdict`, so to look up a page that is not in it enters
a map of the base class.  A sequence of calls leaves the address space alone
exactly when none of them looks up an address on such a page
(`looking_unseen`).
-/

namespace Microx

open Hoare

/-- Maps with a name, `None` for an object whose class does not give it one. -/
class NamedMap (μ : Type) {π : outParam Type} [MemoryMap μ π] where
  name : μ → Option String
  name_new : name MemoryMap.new = some "map_00000000-00000000"
  loadByte_name : ∀ addr (s : μ × π), Meets (fun _ s' => name s'.1 = name s.1)
    (fun _ s' => name s'.1 = name s.1) (MemoryMap.loadByte addr s)
  loadWord_name : ∀ addr (s : μ × π), Meets (fun _ s' => name s'.1 = name s.1)
    (fun _ s' => name s'.1 = name s.1) (MemoryMap.loadWord addr s)
  loadDword_name : ∀ addr (s : μ × π), Meets (fun _ s' => name s'.1 = name s.1)
    (fun _ s' => name s'.1 = name s.1) (MemoryMap.loadDword addr s)
  loadQword_name : ∀ addr (s : μ × π), Meets (fun _ s' => name s'.1 = name s.1)
    (fun _ s' => name s'.1 = name s.1) (MemoryMap.loadQword addr s)
  loadBytes_name : ∀ addr n (s : μ × π), Meets (fun _ s' => name s'.1 = name s.1)
    (fun _ s' => name s'.1 = name s.1) (MemoryMap.loadBytes addr n s)

/-- The name of `MemoryMap()`. -/
def defaultName : String := "map_00000000-00000000"

namespace CoreMap

/-- `"{:08x}".format(n)`. -/
def hex8 (n : Nat) : String :=
  String.ofList (List.replicate (8 - (Nat.toDigits 16 n).length) '0' ++ Nat.toDigits 16 n)

/-- The name that `MemoryMap.__init__` gives an object without a `mapname`. -/
def name (m : CoreMap) : String := "map_" ++ hex8 m.base ++ "-" ++ hex8 m.limit

theorem load_name (fault : AccessFault) (f : ArrayMemoryMap → List Byte) (s : CoreMap × Unit) :
    Meets (fun _ s' => some s'.1.name = some s.1.name) (fun _ s' => some s'.1.name = some s.1.name)
      (load fault f s) := by
  unfold load
  split <;> rfl

instance : NamedMap CoreMap where
  name m := some m.name
  name_new := rfl
  loadByte_name _ := load_name _ _
  loadWord_name _ := load_name _ _
  loadDword_name _ := load_name _ _
  loadQword_name _ := load_name _ _
  loadBytes_name _ _ := load_name _ _

end CoreMap

namespace Memory

variable {μ π α : Type} [MemoryMap μ π] [NamedMap μ]

/-! ## the calls -/

/-- The loop of `find_maps_by_name`. -/
def collectByName (m : Memory μ π) (mapName : String) :
    List Nat → Finset Nat → Except PyExc (Finset Nat)
  | [], foundMaps => .ok foundMaps
  | r :: rs, foundMaps =>
      match NamedMap.name (m.objs r) with
      | none => .error .attributeError
      | some name => collectByName m mapName rs
          (if mapName = name then insert r foundMaps else foundMaps)

/-- `find_maps_by_name`. -/
def findMapsByName (m : Memory μ π) (mapName : String) : Except PyExc (Finset Nat) :=
  m.collectByName mapName (m.memoryMaps.entries.map Prod.snd) ∅

/-- A call that only looks. -/
inductive Look where
  | canRead (byteAddr : Nat)
  | canWrite (byteAddr : Nat)
  | canExecute (byteAddr : Nat)
  | load (addr numBytes : Nat)
  deriving DecidableEq, Repr

/-- Make a call, and drop what it returns. -/
def Look.perform : Look → EStateM PyExc (Memory μ π) Unit
  | canRead a => do
      let _ ← Memory.canRead a
      pure ()
  | canWrite a => do
      let _ ← Memory.canWrite a
      pure ()
  | canExecute a => do
      let _ ← Memory.canExecute a
      pure ()
  | load a n => do
      let _ ← Memory.load a n
      pure ()

/-- The memory after a call, whether it raised or not. -/
def Look.after (look : Look) (m : Memory μ π) : Memory μ π :=
  match look.perform m with
  | .ok _ m' => m'
  | .error _ m' => m'

/-- The memory after a sequence of calls. -/
def afterLooks (m : Memory μ π) (looks : List Look) : Memory μ π :=
  looks.foldl (fun m look => look.after m) m

/-! ## growing tables -/

/-- The table has a page more. -/
def HasFresh (m m' : Memory μ π) : Prop :=
  ∃ q, m.memoryMaps.get? q = none ∧ (m'.memoryMaps.get? q).isSome

/-- The memory has not lost a page or a name; what it has more of is maps of the base class. -/
structure Grown (m m' : Memory μ π) : Prop where
  page : ∀ a, m'.page a = m.page a
  pageShift : m'.pageShift = m.pageShift
  table : m'.memoryMaps = m.memoryMaps ∨ HasFresh m m'
  kept : ∀ q r, m.memoryMaps.get? q = some r → m'.memoryMaps.get? q = some r
  entered : ∀ q r, m'.memoryMaps.get? q = some r → m.memoryMaps.get? q = some r ∨
    m.numObjs ≤ r ∧ r < m'.numObjs ∧ NamedMap.name (m'.objs r) = some defaultName
  names : ∀ r < m.numObjs, NamedMap.name (m'.objs r) = NamedMap.name (m.objs r)
  numObjs_le : m.numObjs ≤ m'.numObjs

variable {m m₁ m₂ : Memory μ π}

theorem Grown.refl (m : Memory μ π) : Grown m m where
  page _ := rfl
  pageShift := rfl
  table := .inl rfl
  kept _ _ h := h
  entered _ _ h := .inl h
  names _ _ := rfl
  numObjs_le := Nat.le_refl _

/-- A page that was entered stays. -/
theorem HasFresh.mono (h : HasFresh m m₁) (h' : Grown m₁ m₂) : HasFresh m m₂ := by
  obtain ⟨q, hnone, hsome⟩ := h
  obtain ⟨r, hr⟩ := Option.isSome_iff_exists.mp hsome
  exact ⟨q, hnone, by rw [h'.kept q r hr]; rfl⟩

theorem Grown.trans (h : Grown m m₁) (h' : Grown m₁ m₂) : Grown m m₂ where
  page a := (h'.page a).trans (h.page a)
  pageShift := h'.pageShift.trans h.pageShift
  table := by
    cases h.table with
    | inr hfresh => exact .inr (HasFresh.mono hfresh h')
    | inl heq =>
        rw [← heq]
        refine h'.table.imp_right fun ⟨q, hnone, hsome⟩ => ⟨q, ?_, hsome⟩
        rwa [← heq]
  kept q r hr := h'.kept q r (h.kept q r hr)
  entered q r hr := by
    cases h'.entered q r hr with
    | inr hnew => exact .inr ⟨h.numObjs_le.trans hnew.1, hnew.2⟩
    | inl hold =>
        refine (h.entered q r hold).imp_right fun ⟨hle, hlt, hname⟩ => ?_
        exact ⟨hle, hlt.trans_le h'.numObjs_le, by rw [h'.names r hlt, hname]⟩
  names r hr := by rw [h'.names r (hr.trans_le h.numObjs_le), h.names r hr]
  numObjs_le := h.numObjs_le.trans h'.numObjs_le

omit [MemoryMap μ π] [NamedMap μ] in
theorem HasFresh.ne (h : HasFresh m m₁) : m₁.memoryMaps ≠ m.memoryMaps := by
  obtain ⟨q, hnone, hsome⟩ := h
  intro heq
  rw [heq, hnone] at hsome
  cases hsome

/-- Both ways out of a call only grow the memory. -/
abbrev Grows (f : EStateM PyExc (Memory μ π) α) : Prop :=
  ∀ m₀, Triple (Grown m₀) f (fun _ => Grown m₀) fun _ => Grown m₀

theorem findMap_grows (a : Nat) : Grows (findMap a : EStateM PyExc (Memory μ π) Nat) := by
  intro m₀ m hm
  cases h : m.resolve a with
  | some r =>
      rw [findMap_of_resolve h]
      exact hm
  | none =>
      rw [findMap_absent h]
      refine hm.trans ⟨fun _ => rfl, rfl, .inr ⟨m.page a, h, ?_⟩, ?_, ?_, ?_, Nat.le_succ _⟩
      · simp
      · intro q r hr
        have hne : q ≠ m.page a := by
          rintro rfl
          cases hr.symm.trans h
        simp only [PyDict.get?_set, if_neg hne, hr]
      · intro q r hr
        simp only [PyDict.get?_set] at hr
        by_cases hq : q = m.page a
        · rw [if_pos hq] at hr
          cases hr
          exact .inr ⟨Nat.le_refl _, Nat.lt_succ_self _, by simp [NamedMap.name_new, defaultName]⟩
        · rw [if_neg hq] at hr
          exact .inl hr
      · intro r hr
        simp [Function.update_of_ne (Nat.ne_of_lt hr)]

omit [NamedMap μ] in
/-- The lookup of a page that is absent enters it. -/
theorem findMap_hasFresh {a : Nat} (h : m.resolve a = none) :
    ∃ r m', findMap a m = .ok r m' ∧ HasFresh m m' :=
  ⟨_, _, findMap_absent h, m.page a, h, by simp⟩

theorem invoke_grows {f : Method μ π α} (hf : ∀ s, Meets
    (fun _ s' => NamedMap.name s'.1 = NamedMap.name s.1)
    (fun _ s' => NamedMap.name s'.1 = NamedMap.name s.1) (f s)) (r : Nat) :
    Grows (invoke r f : EStateM PyExc (Memory μ π) α) := by
  intro m₀ m hm
  have hname := hf (m.objs r, m.shared)
  have hgrown (s : μ × π) (hs : NamedMap.name s.1 = NamedMap.name (m.objs r)) :
      Grown m { m with objs := Function.update m.objs r s.1, shared := s.2 } := by
    refine ⟨fun _ => rfl, rfl, .inl rfl, fun _ _ h => h, fun _ _ h => .inl h, fun r' _ => ?_,
      Nat.le_refl _⟩
    by_cases hr : r' = r
    · subst hr
      simpa using hs
    · simp [Function.update_of_ne hr]
  unfold invoke
  cases hrun : f (m.objs r, m.shared) with
  | ok a s =>
      rw [hrun] at hname
      exact hm.trans (hgrown s hname)
  | error e s =>
      rw [hrun] at hname
      exact hm.trans (hgrown s hname)

theorem crossesFrom_grows (mmap addr k : Nat) :
    ∀ i, Grows (crossesFrom mmap addr i k : EStateM PyExc (Memory μ π) Bool) := by
  induction k with
  | zero => exact fun _ m₀ => Triple.pure fun _ h => h
  | succ k ih =>
      intro i m₀
      refine (findMap_grows (addr + i) m₀).bind fun r => ?_
      exact Triple.ite (fun _ => Triple.pure fun _ h => h) fun _ => ih (i + 1) m₀

theorem crossesPages_grows (addr n : Nat) :
    Grows (crossesPages addr n : EStateM PyExc (Memory μ π) Bool) :=
  fun m₀ => (findMap_grows addr m₀).bind fun r => crossesFrom_grows r addr (n - 1) 1 m₀

theorem loadEach_grows (addr k : Nat) :
    ∀ i, Grows (loadEach addr i k : EStateM PyExc (Memory μ π) (List Byte)) := by
  induction k with
  | zero => exact fun _ m₀ => Triple.pure fun _ h => h
  | succ k ih =>
      intro i m₀
      refine (findMap_grows (addr + i) m₀).bind fun r => ?_
      refine (invoke_grows (NamedMap.loadBytes_name _ _) r m₀).bind fun bs => ?_
      split
      · exact Triple.throw fun _ h => h
      · exact (ih (i + 1) m₀).bind fun _ => Triple.pure fun _ h => h

/-- A load, once it is known whether it is one of a unit. -/
theorem loadRest_grows (addr n : Nat) (unit : Bool) : Grows (if unit then (do
      let r ← findMap addr
      if 1 = n then invoke r (MemoryMap.loadByte addr)
      else if 2 = n then invoke r (MemoryMap.loadWord addr)
      else if 4 = n then invoke r (MemoryMap.loadDword addr)
      else invoke r (MemoryMap.loadQword addr)) else loadEach addr 0 n :
    EStateM PyExc (Memory μ π) (List Byte)) := by
  intro m₀
  refine Triple.ite (fun _ => (findMap_grows addr m₀).bind fun r => ?_)
    fun _ => loadEach_grows addr n 0 m₀
  refine Triple.ite (fun _ => invoke_grows (NamedMap.loadByte_name addr) r m₀) fun _ => ?_
  refine Triple.ite (fun _ => invoke_grows (NamedMap.loadWord_name addr) r m₀) fun _ => ?_
  refine Triple.ite (fun _ => invoke_grows (NamedMap.loadDword_name addr) r m₀) fun _ => ?_
  exact invoke_grows (NamedMap.loadQword_name addr) r m₀

theorem load_grows (addr n : Nat) : Grows (load addr n : EStateM PyExc (Memory μ π) (List Byte)) := by
  intro m₀
  have hunit : Triple (Grown m₀) (isUnit addr n) (fun _ => Grown m₀) fun _ => Grown m₀ :=
    Triple.ite (fun _ => (crossesPages_grows addr n m₀).bind fun _ => Triple.pure fun _ h => h)
      fun _ => Triple.pure fun _ h => h
  exact hunit.bind fun unit => loadRest_grows addr n unit m₀

/-- **A call** that looks only grows the memory. -/
theorem Look.perform_grows (look : Look) :
    Grows (look.perform : EStateM PyExc (Memory μ π) Unit) := by
  intro m₀
  cases look with
  | canRead a | canWrite a | canExecute a =>
      refine Triple.bind (Q := fun _ => Grown m₀) ?_ fun _ => Triple.pure fun _ h => h
      exact (findMap_grows a m₀).bind fun _ => Triple.read fun _ => Triple.pure fun _ h => h
  | load a n => exact (load_grows a n m₀).bind fun _ => Triple.pure fun _ h => h

theorem Look.after_grown (look : Look) (m : Memory μ π) : Grown m (look.after m) := by
  have h := look.perform_grows m m (Grown.refl m)
  unfold Look.after
  cases hrun : look.perform m with
  | ok _ m' | error _ m' =>
      rw [hrun] at h
      exact h

/-! ## calls that enter a page -/

/-- Both ways out of the call, the table has a page more. -/
abbrev Enters (f : EStateM PyExc (Memory μ π) α) (m : Memory μ π) : Prop :=
  Meets (fun _ => HasFresh m) (fun _ => HasFresh m) (f m)

/-- Both ways out of the call, the table is as it was. -/
abbrev KeepsTable (f : EStateM PyExc (Memory μ π) α) (m : Memory μ π) : Prop :=
  Meets (fun _ m' => m'.memoryMaps = m.memoryMaps) (fun _ m' => m'.memoryMaps = m.memoryMaps) (f m)

variable {β : Type}

/-- What follows a call that entered a page does not take it away. -/
theorem Enters.bind {x : EStateM PyExc (Memory μ π) α} {f : α → EStateM PyExc (Memory μ π) β}
    (h : Enters x m) (hf : ∀ a, Grows (f a)) : Enters (x >>= f) m := by
  refine Triple.bind (P := (· = m)) (Q := fun _ => HasFresh m) (fun m' hm' => ?_)
    (fun a m₁ hm₁ => ?_) m rfl
  · rw [show m' = m from hm']
    exact h
  · have hrest := hf a m₁ m₁ (Grown.refl m₁)
    cases hrun : f a m₁ with
    | ok _ m₂ | error _ m₂ =>
        rw [hrun] at hrest
        exact hm₁.mono hrest

omit [MemoryMap μ π] [NamedMap μ] in
theorem Enters.of_same_table {f : EStateM PyExc (Memory μ π) α} (h : Enters f m₁)
    (heq : m₁.memoryMaps = m.memoryMaps) :
    Meets (fun _ => HasFresh m) (fun _ => HasFresh m) (f m₁) := by
  cases hrun : f m₁ with
  | ok _ m₂ | error _ m₂ =>
      have h' := h
      rw [Enters, hrun] at h'
      simpa only [Meets, HasFresh, heq] using h'

omit [NamedMap μ] in
theorem findMap_enters {a : Nat} (h : m.resolve a = none) : Enters (findMap a) m := by
  obtain ⟨r, m', hrun, hfresh⟩ := findMap_hasFresh h
  rw [Enters, hrun]
  exact hfresh

theorem Grown.resolve (h : Grown m m₁) (heq : m₁.memoryMaps = m.memoryMaps) (a : Nat) :
    m₁.resolve a = m.resolve a := by
  rw [Memory.resolve, Memory.resolve, heq, h.page]

/-! ## `_crosses_pages` -/

omit [NamedMap μ] in
/-- The loop of `_crosses_pages` over pages that are present up to where it ends. -/
theorem crossesFrom_known {addr mmap : Nat} (k : Nat) :
    ∀ i, (∀ j < i, m.resolve (addr + j) = some mmap) →
      (∀ j < i + k, (∀ l < j, m.resolve (addr + l) = some mmap) → (m.resolve (addr + j)).isSome) →
      ∃ b, crossesFrom mmap addr i k m = .ok b m ∧
        (b = false → ∀ j < i + k, m.resolve (addr + j) = some mmap) := by
  induction k with
  | zero => exact fun i hsame _ => ⟨false, rfl, fun _ => hsame⟩
  | succ k ih =>
      intro i hsame hknown
      obtain ⟨r, hr⟩ := Option.isSome_iff_exists.mp (hknown i (by omega) hsame)
      by_cases hne : r = mmap
      · subst hne
        have hsame' : ∀ j < i + 1, m.resolve (addr + j) = some r := by
          intro j hj
          by_cases hji : j = i
          · rw [hji, hr]
          · exact hsame j (by omega)
        obtain ⟨b, hb, hall⟩ := ih (i + 1) hsame' fun j hj => hknown j (by omega)
        refine ⟨b, ?_, fun hf j hj => hall hf j (by omega)⟩
        rw [crossesFrom, run_bind_ok (findMap_of_resolve hr), if_neg (by simp), hb]
      · refine ⟨true, ?_, fun hf => by cases hf⟩
        rw [crossesFrom, run_bind_ok (findMap_of_resolve hr), if_pos (by simpa using hne)]
        rfl

/-- The loop of `_crosses_pages` enters the first absent page it comes to. -/
theorem crossesFrom_enters {addr mmap j : Nat} (hsame : ∀ l < j, m.resolve (addr + l) = some mmap)
    (hnone : m.resolve (addr + j) = none) (k : Nat) :
    ∀ i, i ≤ j → j < i + k → Enters (crossesFrom mmap addr i k) m := by
  induction k with
  | zero =>
      intro i hij hj
      omega
  | succ k ih =>
      intro i hij hj
      by_cases heq : i = j
      · subst heq
        refine (findMap_enters hnone).bind fun r m₀ => ?_
        exact Triple.ite (fun _ => Triple.pure fun _ h => h)
          fun _ => crossesFrom_grows mmap addr k (i + 1) m₀
      · have hi := hsame i (by omega)
        rw [Enters, crossesFrom, run_bind_ok (findMap_of_resolve hi), if_neg (by simp)]
        exact ih (i + 1) (by omega) (by omega)

/-- `_crosses_pages` looks up present pages only. -/
def KnownUnit (m : Memory μ π) (addr n : Nat) : Prop :=
  ∀ j < n, (∀ i < j, m.resolve (addr + i) = m.resolve addr) → (m.resolve (addr + j)).isSome

omit [NamedMap μ] in
theorem crossesPages_known {addr n : Nat} (hn : 0 < n) (h : KnownUnit m addr n) :
    ∃ b, crossesPages addr n m = .ok b m ∧
      (b = false → ∀ j < n, (m.resolve (addr + j)).isSome) := by
  obtain ⟨r, hr⟩ := Option.isSome_iff_exists.mp (h 0 hn nofun)
  rw [Nat.add_zero] at hr
  have hfirst : ∀ j < 1, m.resolve (addr + j) = some r := by
    intro j hj
    rw [show j = 0 by omega, Nat.add_zero, hr]
  have hknown : ∀ j < 1 + (n - 1), (∀ l < j, m.resolve (addr + l) = some r) →
      (m.resolve (addr + j)).isSome := by
    intro j hj hsame
    exact h j (by omega) fun i hi => by rw [hsame i hi, hr]
  obtain ⟨b, hb, hall⟩ := crossesFrom_known (n - 1) 1 hfirst hknown
  refine ⟨b, by rw [crossesPages, run_bind_ok (findMap_of_resolve hr), hb], fun hf j hj => ?_⟩
  rw [hall hf j (by omega)]
  rfl

theorem crossesPages_enters {addr n : Nat} (h : ¬KnownUnit m addr n) :
    Enters (crossesPages addr n) m := by
  simp only [KnownUnit, not_forall, Option.not_isSome_iff_eq_none] at h
  obtain ⟨j, hj, hsame, hnone⟩ := h
  cases hr : m.resolve addr with
  | none => exact (findMap_enters hr).bind fun r => crossesFrom_grows r addr (n - 1) 1
  | some r =>
      rw [hr] at hsame
      have hpos : j ≠ 0 := by
        rintro rfl
        rw [Nat.add_zero, hr] at hnone
        cases hnone
      rw [Enters, crossesPages, run_bind_ok (findMap_of_resolve hr)]
      exact crossesFrom_enters hsame hnone (n - 1) 1 (by omega) (by omega)

/-! ## the loop of `load` -/

omit [NamedMap μ] in
/-- The loop, cut in two. -/
theorem loadEach_add (addr j k : Nat) : ∀ i,
    (loadEach addr i (j + k) : EStateM PyExc (Memory μ π) (List Byte)) =
      loadEach addr i j >>= fun reads =>
        loadEach addr (i + j) k >>= fun rest => pure (reads ++ rest) := by
  induction j with
  | zero => simp [loadEach]
  | succ j ih =>
      intro i
      rw [show j + 1 + k = (j + k) + 1 by omega, loadEach, loadEach, ih (i + 1)]
      simp only [bind_assoc, show i + 1 + j = i + (j + 1) by omega]
      refine bind_congr fun r => bind_congr fun bs => ?_
      cases bs with
      | nil => rfl
      | cons b bs => simp

/-- The byte-by-byte loop looks up present pages only. -/
def KnownLoop (m : Memory μ π) (addr n : Nat) : Prop :=
  ∀ j < n, (∃ reads m', loadEach addr 0 j m = .ok reads m') → (m.resolve (addr + j)).isSome

omit [MemoryMap μ π] [NamedMap μ] in
/-- A call of a map's method keeps the table. -/
theorem invoke_keepsTable (f : Method μ π α) (r : Nat) (m : Memory μ π) :
    KeepsTable (invoke r f) m := by
  unfold KeepsTable invoke
  cases f (m.objs r, m.shared) with
  | ok a s => exact rfl
  | error e s => exact rfl

/-- The rest of the loop, after `j` bytes. -/
theorem loadEach_known {addr n : Nat} (h : KnownLoop m addr n) (k : Nat) :
    ∀ j m₁ reads, j + k = n → loadEach addr 0 j m = .ok reads m₁ →
      m₁.memoryMaps = m.memoryMaps → Meets (fun _ m' => m'.memoryMaps = m.memoryMaps)
        (fun _ m' => m'.memoryMaps = m.memoryMaps) (loadEach addr j k m₁) := by
  induction k with
  | zero => exact fun j m₁ reads _ _ heq => heq
  | succ k ih =>
      intro j m₁ reads hj hrun heq
      have hgrown : Grown m m₁ := by
        have hg := loadEach_grows addr j 0 m m (Grown.refl m)
        rwa [hrun] at hg
      obtain ⟨r, hr⟩ := Option.isSome_iff_exists.mp (h j (by omega) ⟨reads, m₁, hrun⟩)
      have hr₁ : m₁.resolve (addr + j) = some r := by rw [hgrown.resolve heq, hr]
      have htable := invoke_keepsTable (MemoryMap.loadBytes (addr + j) 1) r m₁
      rw [loadEach, run_bind_ok (findMap_of_resolve hr₁)]
      cases hload : invoke r (MemoryMap.loadBytes (addr + j) 1) m₁ with
      | error e m₂ =>
          rw [KeepsTable, hload] at htable
          rw [run_bind_error hload]
          exact htable.trans heq
      | ok bs m₂ =>
          rw [KeepsTable, hload] at htable
          rw [run_bind_ok hload]
          cases bs with
          | nil => exact htable.trans heq
          | cons b bs =>
              have hnext : loadEach addr 0 (j + 1) m = .ok (reads ++ [b]) m₂ := by
                rw [loadEach_add, run_bind_ok hrun, Nat.zero_add, loadEach]
                rw [bind_assoc, run_bind_ok (findMap_of_resolve hr₁), bind_assoc, run_bind_ok hload]
                rfl
              have hrest := ih (j + 1) m₂ _ (by omega) hnext (htable.trans heq)
              cases hlast : loadEach addr (j + 1) k m₂ with
              | ok rest m₃ =>
                  rw [hlast] at hrest
                  dsimp only
                  rw [run_bind_ok hlast]
                  exact hrest
              | error e m₃ =>
                  rw [hlast] at hrest
                  dsimp only
                  rw [run_bind_error hlast]
                  exact hrest

theorem loadEach_enters {addr n : Nat} (h : ¬KnownLoop m addr n) : Enters (loadEach addr 0 n) m := by
  simp only [KnownLoop, not_forall, Option.not_isSome_iff_eq_none] at h
  obtain ⟨j, hj, ⟨reads, m₁, hrun⟩, hnone⟩ := h
  have hgrown := loadEach_grows addr j 0 m m (Grown.refl m)
  rw [hrun] at hgrown
  have hrest : Grows (loadEach addr (0 + j) (n - j) >>= fun rest => pure (reads ++ rest) :
      EStateM PyExc (Memory μ π) (List Byte)) := fun m₀ =>
    (loadEach_grows addr (n - j) (0 + j) m₀).bind fun _ => Triple.pure fun _ h => h
  rw [Enters, show n = j + (n - j) by omega, loadEach_add, run_bind_ok hrun]
  cases hgrown.table with
  | inr hfresh =>
      have hgrows := hrest m₁ m₁ (Grown.refl m₁)
      cases hlast : (loadEach addr (0 + j) (n - j) >>= fun rest => pure (reads ++ rest)) m₁ with
      | ok _ m₂ | error _ m₂ =>
          rw [hlast] at hgrows
          exact hfresh.mono hgrows
  | inl heq =>
      have hnone₁ : m₁.resolve (addr + j) = none := by rw [hgrown.resolve heq, hnone]
      refine Enters.of_same_table (Enters.bind ?_ fun _ m₀ => Triple.pure fun _ h => h) heq
      rw [show n - j = (n - j - 1) + 1 by omega, Nat.zero_add, loadEach]
      refine (findMap_enters hnone₁).bind fun r m₀ => ?_
      refine (invoke_grows (NamedMap.loadBytes_name _ _) r m₀).bind fun bs => ?_
      split
      · exact Triple.throw fun _ h => h
      · exact (loadEach_grows _ _ _ m₀).bind fun _ => Triple.pure fun _ h => h

/-! ## one call -/

/-- The call looks up present pages only. -/
def Look.Known (m : Memory μ π) : Look → Prop
  | canRead a | canWrite a | canExecute a => (m.resolve a).isSome
  | load addr n => (n ∈ [1, 2, 4, 8] → KnownUnit m addr n) ∧ KnownLoop m addr n

theorem load_known {addr n : Nat} (h : (Look.load addr n).Known m) :
    KeepsTable (load addr n) m := by
  have hloop : KeepsTable (loadEach addr 0 n) m := loadEach_known h.2 n 0 m [] (by omega) rfl rfl
  by_cases hn : n ∈ [1, 2, 4, 8]
  · have hpos : 0 < n := by
      simp only [List.mem_cons, List.not_mem_nil, or_false] at hn
      omega
    obtain ⟨b, hb, hall⟩ := crossesPages_known hpos (h.1 hn)
    have hunit : isUnit addr n m = .ok (!b) m := by
      rw [isUnit, if_pos hn, run_bind_ok hb]
      rfl
    rw [KeepsTable, load, run_bind_ok hunit]
    cases b with
    | true => exact hloop
    | false =>
        obtain ⟨r, hr⟩ := Option.isSome_iff_exists.mp (hall rfl 0 hpos)
        rw [Nat.add_zero] at hr
        rw [Bool.not_false, if_pos rfl, run_bind_ok (findMap_of_resolve hr)]
        split_ifs <;> exact invoke_keepsTable _ r m
  · have hunit : isUnit addr n m = .ok false m := by
      rw [isUnit, if_neg hn]
      rfl
    rw [KeepsTable, load, run_bind_ok hunit]
    exact hloop

theorem load_enters {addr n : Nat} (h : ¬(Look.load addr n).Known m) : Enters (load addr n) m := by
  by_cases hn : n ∈ [1, 2, 4, 8]
  · by_cases hunit : KnownUnit m addr n
    · have hloop : ¬KnownLoop m addr n := fun hloop => h ⟨fun _ => hunit, hloop⟩
      have hpos : 0 < n := by
        simp only [List.mem_cons, List.not_mem_nil, or_false] at hn
        omega
      obtain ⟨b, hb, hall⟩ := crossesPages_known hpos hunit
      -- all bytes would be known
      have hcross : b = true := by
        cases b with
        | true => rfl
        | false => exact absurd (fun j hj _ => hall rfl j hj) hloop
      have hrun : isUnit addr n m = .ok false m := by
        rw [isUnit, if_pos hn, run_bind_ok hb, hcross]
        rfl
      rw [Enters, load, run_bind_ok hrun]
      exact loadEach_enters hloop
    · refine Enters.bind ?_ (loadRest_grows addr n)
      rw [isUnit, if_pos hn]
      exact (crossesPages_enters hunit).bind fun _ m₀ => Triple.pure fun _ h => h
  · have hloop : ¬KnownLoop m addr n := fun hloop => h ⟨fun hmem => absurd hmem hn, hloop⟩
    have hrun : isUnit addr n m = .ok false m := by
      rw [isUnit, if_neg hn]
      rfl
    rw [Enters, load, run_bind_ok hrun]
    exact loadEach_enters hloop

theorem Look.perform_known {look : Look} (h : look.Known m) : KeepsTable look.perform m := by
  cases look with
  | canRead a | canWrite a | canExecute a =>
      obtain ⟨r, hr⟩ := Option.isSome_iff_exists.mp h
      simp only [KeepsTable, Look.perform, Memory.canRead, Memory.canWrite, Memory.canExecute,
        bind_assoc, run_bind_ok (findMap_of_resolve hr)]
      exact rfl
  | load addr n =>
      have hload := load_known h
      rw [KeepsTable, Look.perform]
      cases hrun : Memory.load addr n m with
      | ok reads m' =>
          rw [KeepsTable, hrun] at hload
          rw [run_bind_ok hrun]
          exact hload
      | error e m' =>
          rw [KeepsTable, hrun] at hload
          rw [run_bind_error hrun]
          exact hload

theorem Look.perform_enters {look : Look} (h : ¬look.Known m) : Enters look.perform m := by
  cases look with
  | canRead a | canWrite a | canExecute a =>
      have hnone : m.resolve a = none := by simpa [Look.Known] using h
      refine Enters.bind ?_ fun _ _ => Triple.pure fun _ h => h
      exact (findMap_enters hnone).bind fun _ _ => Triple.read fun _ => Triple.pure fun _ h => h
  | load addr n => exact (load_enters h).bind fun _ _ => Triple.pure fun _ h => h

omit [NamedMap μ] in
theorem Look.after_of_meets {P : Memory μ π → Prop} {look : Look}
    (h : Meets (fun _ => P) (fun _ => P) (look.perform m)) : P (look.after m) := by
  unfold Look.after
  cases hrun : look.perform m with
  | ok _ m' | error _ m' =>
      rw [hrun] at h
      exact h

/-! ## sequences of calls -/

/-- None of the calls looks up an address on a page that is absent. -/
def AllKnown : Memory μ π → List Look → Prop
  | _, [] => True
  | m, look :: looks => look.Known m ∧ AllKnown (look.after m) looks

theorem afterLooks_grown (looks : List Look) : ∀ m : Memory μ π, Grown m (m.afterLooks looks) := by
  induction looks with
  | nil => exact fun m => Grown.refl m
  | cons look looks ih => exact fun m => (look.after_grown m).trans (ih (look.after m))

/-- The calls keep the table if and only if they look up present pages only. -/
theorem afterLooks_memoryMaps_iff (looks : List Look) :
    ∀ m : Memory μ π, (m.afterLooks looks).memoryMaps = m.memoryMaps ↔ AllKnown m looks := by
  induction looks with
  | nil => exact fun m => ⟨fun _ => trivial, fun _ => rfl⟩
  | cons look looks ih =>
      intro m
      have hrest := ih (look.after m)
      by_cases h : look.Known m
      · have heq : (look.after m).memoryMaps = m.memoryMaps :=
          Look.after_of_meets (Look.perform_known h)
        rw [heq] at hrest
        exact hrest.trans ⟨fun hall => ⟨h, hall⟩, fun hall => hall.2⟩
      · have hfresh : HasFresh m (look.after m) := Look.after_of_meets (Look.perform_enters h)
        have hne := (hfresh.mono (afterLooks_grown looks (look.after m))).ne
        exact ⟨fun heq => absurd heq hne, fun hall => absurd hall.1 h⟩

/-! ## what shows -/

/-- Two memories that `find_hole` and `find_maps_by_name` do not tell apart. -/
structure SameSpace (m m' : Memory μ π) : Prop where
  findHole : ∀ holeSize, m'.findHole holeSize = m.findHole holeSize
  findMapsByName : ∀ mapName, m'.findMapsByName mapName = m.findMapsByName mapName

/-- The table refers to objects. -/
def Allocated (m : Memory μ π) : Prop := ∀ q r, m.memoryMaps.get? q = some r → r < m.numObjs

/-- Every mapped object has a name. -/
def AllNamed (m : Memory μ π) : Prop :=
  ∀ q r, m.memoryMaps.get? q = some r → (NamedMap.name (m.objs r)).isSome

/-- The names of the mapped objects decide what is found by name. -/
theorem collectByName_congr {m' : Memory μ π} (mapName : String) (rs : List Nat)
    (h : ∀ r ∈ rs, NamedMap.name (m'.objs r) = NamedMap.name (m.objs r)) :
    ∀ foundMaps, m'.collectByName mapName rs foundMaps = m.collectByName mapName rs foundMaps := by
  induction rs with
  | nil => exact fun _ => rfl
  | cons r rs ih =>
      intro foundMaps
      have ih := ih fun r' h' => h r' (List.mem_cons_of_mem _ h')
      rw [collectByName, collectByName, h r List.mem_cons_self]
      cases NamedMap.name (m.objs r) with
      | none => rfl
      | some name => exact ih _

/-- Objects that all have names. -/
theorem mem_collectByName (mapName : String) (rs : List Nat)
    (h : ∀ r ∈ rs, (NamedMap.name (m.objs r)).isSome) : ∀ foundMaps : Finset Nat, ∃ found,
      m.collectByName mapName rs foundMaps = .ok found ∧ ∀ r, r ∈ found ↔
        r ∈ foundMaps ∨ r ∈ rs ∧ NamedMap.name (m.objs r) = some mapName := by
  induction rs with
  | nil => exact fun foundMaps => ⟨foundMaps, rfl, by simp⟩
  | cons r rs ih =>
      intro foundMaps
      obtain ⟨name, hname⟩ := Option.isSome_iff_exists.mp (h r List.mem_cons_self)
      obtain ⟨found, hrun, hmem⟩ := ih (fun r' h' => h r' (List.mem_cons_of_mem _ h'))
        (if mapName = name then insert r foundMaps else foundMaps)
      refine ⟨found, by rw [collectByName, hname]; exact hrun, fun r' => ?_⟩
      rw [hmem, List.mem_cons]
      by_cases hr : r' = r
      · subst hr
        by_cases heq : mapName = name
        · simp [heq, hname]
        · simp [heq, hname, Ne.symm heq]
      · by_cases heq : mapName = name
        · simp [heq, hr]
        · simp [heq, hr]

/-- A table that was kept shows the same. -/
theorem Grown.sameSpace {m' : Memory μ π} (h : Grown m m') (hm : m.Allocated)
    (heq : m'.memoryMaps = m.memoryMaps) : SameSpace m m' where
  findHole holeSize := by
    simp only [Memory.findHole, pagedHole, minPage, maxPage, heq, h.pageShift]
    rfl
  findMapsByName mapName := by
    unfold Memory.findMapsByName
    rw [heq]
    refine collectByName_congr mapName _ (fun r hr => ?_) ∅
    obtain ⟨e, he, rfl⟩ := List.mem_map.mp hr
    exact h.names _ (hm e.1 e.2 ((PyDict.get?_eq_some_iff _).mpr he))

/-- A page that was entered shows among the maps of the default name. -/
theorem Grown.not_sameSpace {m' : Memory μ π} (h : Grown m m') (hm : m.Allocated)
    (hnamed : m.AllNamed) (hfresh : HasFresh m m') : ¬SameSpace m m' := by
  intro hsame
  have hnamed' : m'.AllNamed := by
    intro q r hr
    cases h.entered q r hr with
    | inl hold =>
        rw [h.names r (hm q r hold)]
        exact hnamed q r hold
    | inr hnew =>
        rw [hnew.2.2]
        rfl
  have hrefs {m : Memory μ π} (hnamed : m.AllNamed) :
      ∀ r ∈ m.memoryMaps.entries.map Prod.snd, (NamedMap.name (m.objs r)).isSome := by
    intro r hr
    obtain ⟨e, he, rfl⟩ := List.mem_map.mp hr
    exact hnamed e.1 e.2 ((PyDict.get?_eq_some_iff _).mpr he)
  obtain ⟨found, hfound, hmem⟩ := mem_collectByName defaultName _ (hrefs hnamed) ∅
  obtain ⟨found', hfound', hmem'⟩ := mem_collectByName defaultName _ (hrefs hnamed') ∅
  have heq : found' = found := by
    have := hsame.findMapsByName defaultName
    rw [findMapsByName, findMapsByName, hfound, hfound'] at this
    exact Except.ok.inj this
  obtain ⟨q, hnone, hsome⟩ := hfresh
  obtain ⟨r, hr⟩ := Option.isSome_iff_exists.mp hsome
  obtain ⟨hle, -, hname⟩ := (h.entered q r hr).resolve_left fun hold =>
    absurd (hold.symm.trans hnone) nofun
  have hin : r ∈ found' := (hmem' r).mpr (.inr
    ⟨List.mem_map.mpr ⟨(q, r), (PyDict.get?_eq_some_iff _).mp hr, rfl⟩, hname⟩)
  rw [heq, hmem] at hin
  obtain ⟨hin, -⟩ := hin.resolve_left (Finset.notMem_empty r)
  obtain ⟨e, he, rfl⟩ := List.mem_map.mp hin
  have := hm e.1 e.2 ((PyDict.get?_eq_some_iff _).mpr he)
  omega

/-- **Looking does not show** in the address space when no call looks up an address on an absent
page; and where every map has a name, it shows as soon as one does. -/
theorem looking_unseen (m : Memory μ π) (hm : m.Allocated) (looks : List Look) :
    (AllKnown m looks → SameSpace m (m.afterLooks looks)) ∧
      (m.AllNamed → SameSpace m (m.afterLooks looks) → AllKnown m looks) := by
  have hgrown := afterLooks_grown looks m
  rw [← afterLooks_memoryMaps_iff]
  refine ⟨hgrown.sameSpace hm, fun hnamed hsame => ?_⟩
  exact hgrown.table.resolve_right fun hfresh =>
    hgrown.not_sameSpace hm hnamed hfresh hsame

end Memory

end Microx
