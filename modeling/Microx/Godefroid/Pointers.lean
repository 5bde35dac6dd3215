import Microx.Godefroid.Policies

/-!
# Microx.Godefroid.Pointers

The pointers an input policy invents.

The watermark only grows, by whole increments, and every pointer it hands out
is the watermark before such a step that stays inside the pointer range
(`generatePointer_triple`).  A failed assertion may leave the watermark beyond
the range, after which no pointer is generated any more.  So over any calls,
failed ones included, the areas of the pointers are disjoint
(`pointers_never_collide`).
-/

namespace Microx

namespace InputMemoryPolicy

open Hoare

/-! ## calls -/

/-- A call of a method that looks at pointers or may invent one. -/
inductive PolicyCall where
  | generatePointer
  | readBeforeWrite (addr size : Nat) (data : List Byte)
  | writeBeforeRead (addr size : Nat) (data : List Byte)
  | inInputRange (addr : Nat)
  | handleCompute (result base scale index disp size : Nat)

/-- The pointer that `generate_pointer` returns, if it returns. -/
def generated? (p : InputMemoryPolicy) : Option Nat :=
  match InputMemoryPolicy.generatePointer p with
  | .ok ptr _ => some ptr
  | .error _ _ => none

namespace PolicyCall

/-- Make the call. -/
def run : PolicyCall → PolicyM Unit
  | generatePointer => do
      let _ ← InputMemoryPolicy.generatePointer
      return ()
  | readBeforeWrite addr size data => do
      let _ ← InputMemoryPolicy.readBeforeWrite addr size data
      return ()
  | writeBeforeRead addr size data => do
      let _ ← InputMemoryPolicy.writeBeforeRead addr size data
      return ()
  | inInputRange addr => do
      let _ ← InputMemoryPolicy.inInputRange addr
      return ()
  | handleCompute result base scale index disp size => do
      let _ ← InputMemoryPolicy.handleCompute result base scale index disp size
      return ()

/-- Whether the call calls `generate_pointer`. -/
def generates (p : InputMemoryPolicy) : PolicyCall → Bool
  | generatePointer => true
  | readBeforeWrite _ size _ => p.addressBytes == size
  | _ => false

/-- The pointer that `generate_pointer` returns within the call, if it is called and returns. -/
def pointer? (p : InputMemoryPolicy) (call : PolicyCall) : Option Nat :=
  if call.generates p then p.generated? else none

/-- The policy after the call, whether it returned or raised. -/
def after (p : InputMemoryPolicy) (call : PolicyCall) : InputMemoryPolicy :=
  match call.run p with
  | .ok _ p' => p'
  | .error _ p' => p'

end PolicyCall

/-- The pointers that calls return, in order. -/
def pointers : InputMemoryPolicy → List PolicyCall → List Nat
  | _, [] => []
  | p, call :: calls => (call.pointer? p).toList ++ pointers (call.after p) calls

/-- The policy after calls. -/
def afterAll (p : InputMemoryPolicy) (calls : List PolicyCall) : InputMemoryPolicy :=
  calls.foldl PolicyCall.after p

/-! ## what a call does to the watermark -/

/-- The watermark stands a number of increments after the start of the pointer range, and no
pointer of the map is handed out again. -/
structure PointersBehind (p : InputMemoryPolicy) : Prop where
  start_le : p.pointersStart ≤ p.pointerWatermark
  aligned : pointerIncrement ∣ p.pointerWatermark - p.pointersStart
  behind : ∀ a ptr, p.pointerMap.get? a = some ptr → ptr + pointerIncrement ≤ p.pointerWatermark
  injective : ∀ a b ptr, p.pointerMap.get? a = some ptr → p.pointerMap.get? b = some ptr → a = b

/-- From `p` the policy may come to `q`: the ranges are the same, and the watermark is not behind
where it was. -/
structure Advances (p q : InputMemoryPolicy) : Prop where
  sound : q.PointersBehind
  pointersStart : q.pointersStart = p.pointersStart
  pointersEnd : q.pointersEnd = p.pointersEnd
  watermark_le : p.pointerWatermark ≤ q.pointerWatermark

theorem PointersBehind.advances {p : InputMemoryPolicy} (h : p.PointersBehind) : Advances p p :=
  ⟨h, rfl, rfl, Nat.le_refl _⟩

theorem Advances.trans {p q r : InputMemoryPolicy} (h : Advances p q) (h' : Advances q r) :
    Advances p r where
  sound := h'.sound
  pointersStart := h'.pointersStart.trans h.pointersStart
  pointersEnd := h'.pointersEnd.trans h.pointersEnd
  watermark_le := Nat.le_trans h.watermark_le h'.watermark_le

/-- The watermark, one increment on. -/
def advance (p : InputMemoryPolicy) : InputMemoryPolicy :=
  { p with pointerWatermark := p.pointerWatermark + pointerIncrement }

theorem Advances.advance {p q : InputMemoryPolicy} (h : Advances p q) : Advances p q.advance where
  sound :=
    { start_le := Nat.le_trans h.sound.start_le (Nat.le_add_right _ _)
      aligned := by
        have hle := h.sound.start_le
        have : q.pointerWatermark + pointerIncrement - q.pointersStart =
            (q.pointerWatermark - q.pointersStart) + pointerIncrement := by omega
        change pointerIncrement ∣ q.pointerWatermark + pointerIncrement - q.pointersStart
        rw [this]
        exact Nat.dvd_add h.sound.aligned (Nat.dvd_refl _)
      behind := fun a ptr hptr => Nat.le_trans (h.sound.behind a ptr hptr) (Nat.le_add_right _ _)
      injective := h.sound.injective }
  pointersStart := h.pointersStart
  pointersEnd := h.pointersEnd
  watermark_le := Nat.le_trans h.watermark_le (Nat.le_add_right _ _)

/-- Mapping an address to the pointer that the last increment passed. -/
theorem Advances.setPointer {p q : InputMemoryPolicy} (h : Advances p q) (addr : Nat) {ptr : Nat}
    (hnew : ptr + pointerIncrement = q.pointerWatermark)
    (hold : ∀ a v, q.pointerMap.get? a = some v → v + pointerIncrement ≤ ptr) :
    Advances p { q with pointerMap := q.pointerMap.set addr ptr } where
  sound :=
    { start_le := h.sound.start_le
      aligned := h.sound.aligned
      behind := by
        intro a v hv
        rw [PyDict.get?_set] at hv
        split at hv
        · rw [← Option.some.inj hv]
          exact Nat.le_of_eq hnew
        · exact h.sound.behind a v hv
      injective := by
        have hpos : 0 < pointerIncrement := by decide
        intro a b v ha hb
        rw [PyDict.get?_set] at ha hb
        split at ha
        · split at hb
          · simp_all
          · have := hold b v hb
            have := Option.some.inj ha
            omega
        · split at hb
          · have := hold a v ha
            have := Option.some.inj hb
            omega
          · exact h.sound.injective a b v ha hb }
  pointersStart := h.pointersStart
  pointersEnd := h.pointersEnd
  watermark_le := h.watermark_le

/-- `generate_pointer`, by its two assertions: the second one fails after the watermark has
moved. -/
theorem generatePointer_run (p : InputMemoryPolicy) :
    InputMemoryPolicy.generatePointer p =
      if p.pointerWatermark + p.addressBytes < p.pointersEnd then
        if p.pointerWatermark + pointerIncrement < p.pointersEnd then
          .ok p.pointerWatermark p.advance
        else .error .assertionError p.advance
      else .error .assertionError p := by
  unfold InputMemoryPolicy.generatePointer
  simp only [run_get_bind]
  by_cases h₁ : p.pointerWatermark + p.addressBytes < p.pointersEnd
  · by_cases h₂ : p.pointerWatermark + pointerIncrement < p.pointersEnd
    · simp [pyAssert, h₁, h₂, advance]
    · simp [pyAssert, h₁, h₂, advance]
  · simp [pyAssert, h₁]

/-- A generated pointer is the watermark, and the area behind it lies in the pointer range. -/
theorem generated?_eq_some {p : InputMemoryPolicy} {ptr : Nat} (h : p.generated? = some ptr) :
    ptr = p.pointerWatermark ∧ ptr + pointerIncrement < p.pointersEnd := by
  unfold generated? at h
  rw [generatePointer_run] at h
  by_cases h₁ : p.pointerWatermark + p.addressBytes < p.pointersEnd
  · by_cases h₂ : p.pointerWatermark + pointerIncrement < p.pointersEnd
    · simp only [h₁, h₂, if_true, Option.some.injEq] at h
      rw [← h]
      exact ⟨rfl, h₂⟩
    · simp [h₁, h₂] at h
  · simp [h₁] at h

/-- From `p` to `q`, with the watermark past the pointer generated meanwhile. -/
structure Passes (p : InputMemoryPolicy) (ptr? : Option Nat) (q : InputMemoryPolicy) : Prop where
  advances : Advances p q
  passed : ∀ ptr, ptr? = some ptr → ptr + pointerIncrement ≤ q.pointerWatermark

theorem Advances.passes {p q : InputMemoryPolicy} (h : Advances p q) : Passes p none q :=
  ⟨h, by simp⟩

/-- **`generate_pointer`** passes the pointer it returns, which is the watermark before. -/
theorem generatePointer_triple {p : InputMemoryPolicy} (h : p.PointersBehind) :
    Triple (fun q => q = p) InputMemoryPolicy.generatePointer
      (fun ptr q => ptr = p.pointerWatermark ∧ q = p.advance ∧ Passes p p.generated? q)
      fun _ q => Passes p p.generated? q := by
  intro q hq
  rw [hq]
  unfold generated?
  rw [generatePointer_run]
  have hadv := h.advances.advance
  by_cases h₁ : p.pointerWatermark + p.addressBytes < p.pointersEnd
  · by_cases h₂ : p.pointerWatermark + pointerIncrement < p.pointersEnd
    · simp only [h₁, h₂, if_true, meets_ok, true_and]
      refine ⟨hadv, fun ptr hptr => ?_⟩
      rw [← Option.some.inj hptr]
      exact Nat.le_refl _
    · simp only [h₁, h₂, if_true, if_false, meets_error]
      exact hadv.passes
  · simp only [h₁, if_false, meets_error]
    exact h.advances.passes

/-! ## what the other methods do to it -/

/-- An assertion about the policy that its recorded inputs do not matter for. -/
theorem passes_setInput {p : InputMemoryPolicy} {ptr? : Option Nat} (addr size : Nat) :
    Triple (Passes p ptr?)
      (modify fun p => { p with knownInputs := p.knownInputs.set addr size } : PolicyM Unit)
      (fun _ => Passes p ptr?) fun _ _ => False :=
  Triple.modify fun _ h =>
    ⟨⟨⟨h.advances.sound.1, h.advances.sound.2, h.advances.sound.3, h.advances.sound.4⟩,
      h.advances.pointersStart, h.advances.pointersEnd, h.advances.watermark_le⟩, h.passed⟩

theorem pointerToBytes_passes {p : InputMemoryPolicy} {ptr? : Option Nat} (ptr : Nat) :
    Triple (Passes p ptr?) (pointerToBytes ptr) (fun _ => Passes p ptr?)
      fun _ => Passes p ptr? := by
  refine Triple.read fun q => Triple.ite (fun _ => ?_) fun _ => ?_
  · exact Triple.pure fun _ h => h
  · exact Triple.throw fun _ h => h

/-- Inventing a value passes the pointer, if it is one. -/
theorem inventData_passes {p : InputMemoryPolicy} (h : p.PointersBehind) (addr size : Nat) :
    Triple (fun q => q = p) (inventData addr size)
      (fun _ => Passes p (if p.addressBytes == size then p.generated? else none))
      fun _ => Passes p (if p.addressBytes == size then p.generated? else none) := by
  refine Triple.get fun _ hq => ?_
  rw [hq]
  by_cases hs : p.addressBytes = size
  · rw [if_pos hs, if_pos (beq_iff_eq.mpr hs)]
    refine Triple.bind (generatePointer_triple h) fun ptr => ?_
    refine Triple.bind ?_ fun _ => pointerToBytes_passes ptr
    refine Triple.modify fun q hq => ?_
    obtain ⟨hptr, hadv, hpass⟩ := hq
    refine ⟨hpass.advances.setPointer addr ?_ ?_, hpass.passed⟩
    · rw [hadv, hptr]
      rfl
    · rw [hadv, hptr]
      exact h.behind
  · rw [if_neg hs, if_neg (by simpa using hs)]
    intro q hq
    rw [hq]
    exact ⟨⟨⟨h.1, h.2, h.3, h.4⟩, rfl, rfl, Nat.le_refl _⟩, by simp⟩

theorem readBeforeWrite_passes {p : InputMemoryPolicy} (h : p.PointersBehind) (addr size : Nat)
    (data : List Byte) :
    Triple (fun q => q = p) (InputMemoryPolicy.readBeforeWrite addr size data)
      (fun _ => Passes p (if p.addressBytes == size then p.generated? else none))
      fun _ => Passes p (if p.addressBytes == size then p.generated? else none) := by
  refine Triple.bind (inventData_passes h addr size) fun newData => ?_
  refine Triple.bind ((passes_setInput addr size).conseq (fun _ h => h) (fun _ _ h => h) ?_)
    fun _ => ?_
  · exact fun _ _ h => h.elim
  · exact Triple.bind (pyAssert_triple _) fun _ => Triple.pure fun _ h => h

/-- Classifying an address may move the watermark, and never back. -/
theorem inInputRange_passes {p : InputMemoryPolicy} (addr : Nat) :
    Triple (Passes p none) (InputMemoryPolicy.inInputRange addr) (fun _ => Passes p none)
      fun _ => Passes p none := by
  refine Triple.read fun _ => Triple.ite (fun _ => Triple.pure fun _ h => h) fun _ => ?_
  refine Triple.read fun _ => Triple.ite (fun _ => ?_) fun _ => Triple.pure fun _ h => h
  refine Triple.ite (fun _ => ?_) fun _ => Triple.pure fun _ h => h
  refine Triple.bind (Triple.update fun q h => h.advances.advance.passes) fun _ => ?_
  exact Triple.read fun _ => Triple.bind (pyAssert_triple _) fun _ => Triple.pure fun _ h => h

theorem handleCompute_passes {p : InputMemoryPolicy} (result base scale index disp size : Nat) :
    Triple (Passes p none)
      (InputMemoryPolicy.handleCompute result base scale index disp size)
      (fun _ => Passes p none) fun _ => Passes p none := by
  have hset : Triple (Passes p none)
      (modify fun p => { p with knownInputs := p.knownInputs.set result size } : PolicyM Unit)
      (fun _ => Passes p none) fun _ => Passes p none :=
    (passes_setInput result size).conseq (fun _ h => h) (fun _ _ h => h) fun _ _ h => h.elim
  refine Triple.bind (inInputRange_passes result) fun known => Triple.ite (fun _ => ?_) fun _ => ?_
  · exact Triple.bind hset fun _ => Triple.pure fun _ h => h
  · refine Triple.read fun _ => Triple.ite (fun _ => ?_) fun _ => Triple.pure fun _ h => h
    exact Triple.bind hset fun _ => Triple.pure fun _ h => h

/-! ## runs of calls -/

/-- A call that returns or raises in `Q` leaves the policy in `Q`. -/
theorem PolicyCall.after_of_triple {p : InputMemoryPolicy} {call : PolicyCall}
    {Q : InputMemoryPolicy → Prop} (h : Triple (fun q => q = p) call.run (fun _ => Q) fun _ => Q) :
    Q (call.after p) := by
  have hrun := h p rfl
  unfold PolicyCall.after
  cases hr : call.run p with
  | ok _ q => rw [hr] at hrun; exact hrun
  | error _ q => rw [hr] at hrun; exact hrun

/-- **A call** advances the policy past the pointer it returns. -/
theorem PolicyCall.after_passes {p : InputMemoryPolicy} (h : p.PointersBehind) (call : PolicyCall) :
    Passes p (call.pointer? p) (call.after p) := by
  have hstart : ∀ q, q = p → Passes p none q := by
    rintro q rfl
    exact h.advances.passes
  apply PolicyCall.after_of_triple
  cases call with
  | generatePointer =>
      refine Triple.bind ((generatePointer_triple h).post fun _ _ h => h.2.2) fun _ => ?_
      exact Triple.pure fun _ h => h
  | readBeforeWrite addr size data =>
      refine Triple.bind (readBeforeWrite_passes h addr size data) fun _ => ?_
      exact Triple.pure fun _ h => h
  | writeBeforeRead addr size data =>
      refine Triple.bind (Q := fun _ => Passes p none) ?_ fun _ => Triple.pure fun _ h => h
      intro q hq
      rw [hq]
      exact ⟨⟨⟨h.1, h.2, h.3, h.4⟩, rfl, rfl, Nat.le_refl _⟩, by simp⟩
  | inInputRange addr =>
      refine Triple.bind ((inInputRange_passes addr).pre hstart) fun _ => ?_
      exact Triple.pure fun _ h => h
  | handleCompute result base scale index disp size =>
      refine Triple.bind ((handleCompute_passes result base scale index disp size).pre hstart)
        fun _ => ?_
      exact Triple.pure fun _ h => h

theorem PolicyCall.pointer?_eq_some {p : InputMemoryPolicy} {call : PolicyCall} {ptr : Nat}
    (h : call.pointer? p = some ptr) : p.generated? = some ptr := by
  rw [PolicyCall.pointer?, Option.ite_none_right_eq_some] at h
  exact h.2

/-- Any calls, failed ones included, advance the policy. -/
theorem afterAll_advances (calls : List PolicyCall) :
    ∀ p : InputMemoryPolicy, p.PointersBehind → Advances p (p.afterAll calls) := by
  induction calls with
  | nil => exact fun p h => h.advances
  | cons call calls ih =>
      intro p h
      have hcall := (call.after_passes h).advances
      exact hcall.trans (ih _ hcall.sound)

/-- Every pointer the calls return is a former watermark whose area lies in the pointer range. -/
theorem mem_pointers (calls : List PolicyCall) :
    ∀ p : InputMemoryPolicy, p.PointersBehind → ∀ ptr ∈ p.pointers calls,
      p.pointerWatermark ≤ ptr ∧ pointerIncrement ∣ ptr - p.pointersStart ∧
        ptr + pointerIncrement < p.pointersEnd := by
  induction calls with
  | nil => simp [pointers]
  | cons call calls ih =>
      intro p h ptr hptr
      rcases List.mem_append.mp hptr with hfirst | hrest
      · have hp := PolicyCall.pointer?_eq_some (Option.mem_toList.mp hfirst)
        obtain ⟨rfl, hlt⟩ := generated?_eq_some hp
        exact ⟨Nat.le_refl _, h.aligned, hlt⟩
      · have hcall := (call.after_passes h).advances
        have := ih _ hcall.sound ptr hrest
        rw [hcall.pointersStart, hcall.pointersEnd] at this
        exact ⟨Nat.le_trans hcall.watermark_le this.1, this.2⟩

/-- Pointers that different calls return are an increment apart. -/
theorem pointers_pairwise (calls : List PolicyCall) :
    ∀ p : InputMemoryPolicy, p.PointersBehind →
      (p.pointers calls).Pairwise fun x y => x + pointerIncrement ≤ y := by
  induction calls with
  | nil => simp [pointers]
  | cons call calls ih =>
      intro p h
      have hcall := call.after_passes h
      rw [pointers, List.pairwise_append]
      refine ⟨?_, ih _ hcall.advances.sound, fun x hx y hy => ?_⟩
      · cases call.pointer? p with
        | none => simp
        | some ptr => simp
      · have hpassed := hcall.passed x (Option.mem_toList.mp hx)
        have hnext := (mem_pointers calls _ hcall.advances.sound y hy).1
        exact Nat.le_trans hpassed hnext

/-- Where a policy starts. -/
theorem init_pointersBehind (addressSize : AddressSize) {start stop pointersStart pointersEnd : Nat}
    (h : start < stop) (h' : pointersStart < pointersEnd) (entropy : Nat → Byte) :
    (init addressSize start stop pointersStart pointersEnd h h' entropy).PointersBehind where
  start_le := Nat.le_refl _
  aligned := by simp [init]
  behind a ptr hptr := by simp [init] at hptr
  injective a b ptr ha := by simp [init] at ha

/-- **Input pointers never collide.** -/
theorem pointers_never_collide (addressSize : AddressSize)
    {start stop pointersStart pointersEnd : Nat} (h : start < stop)
    (h' : pointersStart < pointersEnd) (entropy : Nat → Byte) (calls : List PolicyCall) :
    let p := init addressSize start stop pointersStart pointersEnd h h' entropy
    (∀ ptr ∈ p.pointers calls, pointersStart ≤ ptr ∧ pointerIncrement ∣ ptr - pointersStart ∧
      ptr + pointerIncrement ≤ pointersEnd) ∧
    ((p.pointers calls).Pairwise fun x y => x + pointerIncrement ≤ y ∨ y + pointerIncrement ≤ x) ∧
    ∀ a b ptr, (p.afterAll calls).pointerMap.get? a = some ptr →
      (p.afterAll calls).pointerMap.get? b = some ptr → a = b := by
  intro p
  have hp : p.PointersBehind := init_pointersBehind addressSize h h' entropy
  refine ⟨fun ptr hptr => ?_, ?_, (afterAll_advances calls p hp).sound.injective⟩
  · obtain ⟨hle, hdvd, hlt⟩ := mem_pointers calls p hp ptr hptr
    exact ⟨hle, hdvd, Nat.le_of_lt hlt⟩
  · exact (pointers_pairwise calls p hp).imp fun hxy => Or.inl hxy

/-- A read of pointer size, a failed one and one more: two pointers, an increment apart. -/
theorem pointers_never_collide_twoReads :
    let p := init .x32 0x1000 0x1010 0x8000 0x10000 (by decide) (by decide) fun _ => 0
    p.pointers [.readBeforeWrite 0x1000 4 [0, 0, 0, 0], .readBeforeWrite 0x1004 2 [0],
        .generatePointer] = [0x8000, 0x8400] ∧
      (p.pointers [.readBeforeWrite 0x1000 4 [0, 0, 0, 0], .readBeforeWrite 0x1004 2 [0],
        .generatePointer]).Pairwise
          fun x y => x + pointerIncrement ≤ y ∨ y + pointerIncrement ≤ x :=
  ⟨rfl, (pointers_never_collide .x32 (by decide) (by decide) (fun _ => 0) _).2.1⟩

/-- The bytes a read of pointer size returns are those of the pointer of the call. -/
theorem readBeforeWrite_pointer {p q : InputMemoryPolicy} {addr : Nat} {data new : List Byte}
    (h : InputMemoryPolicy.readBeforeWrite addr p.addressBytes data p = .ok new q) :
    ∃ ptr, (PolicyCall.readBeforeWrite addr p.addressBytes data).pointer? p = some ptr ∧
      new = toBytesLE p.addressBytes ptr := by
  obtain ⟨new', s, hinvent, h⟩ := bind_eq_ok.mp h
  rw [run_modify_bind] at h
  obtain ⟨_, s', _, h⟩ := bind_eq_ok.mp h
  have hnew : new' = new := (EStateM.Result.ok.inj h).1
  rw [inventData, run_get_bind, if_pos rfl] at hinvent
  obtain ⟨ptr, s₁, hptr, hinvent⟩ := bind_eq_ok.mp hinvent
  rw [run_modify_bind, pointerToBytes, run_get_bind] at hinvent
  have hbytes : s₁.addressBytes = p.addressBytes := by
    have := generatePointer_run p
    rw [hptr] at this
    grind [advance]
  refine ⟨ptr, by simp [PolicyCall.pointer?, PolicyCall.generates, generated?, hptr], ?_⟩
  rw [← hnew, ← hbytes]
  dsimp only at hinvent
  split at hinvent
  · exact (EStateM.Result.ok.inj hinvent).1.symm
  · contradiction

end InputMemoryPolicy

end Microx
