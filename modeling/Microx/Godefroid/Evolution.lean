import Microx.Godefroid.Pointers

/-!
# Microx.Godefroid.Evolution

How an input policy changes, one step at a time.

Every method of the policy, whether it returns or raises, takes it through some
of five steps (`Step`), in which only bytes that are stored become outputs, and
only ranges that are read become pointers.  What these steps keep, every run
keeps: the pointers lie inside the pointer range (`PointersInside`), and what is
recorded was accessed (`RecordsAccesses`).
-/

namespace Microx

namespace InputMemoryPolicy

open Hoare

/-! ## steps -/

/-- All bytes of a range. -/
def Within (O : Nat → Prop) (addr size : Nat) : Prop := ∀ a, addr ≤ a → a < addr + size → O a

theorem Within.mono {O O' : Nat → Prop} {addr size : Nat} (h : Within O addr size)
    (hO : ∀ a, O a → O' a) : Within O' addr size := fun a h1 h2 => hO a (h a h1 h2)

/-- What is accessed meanwhile: the addresses that count as inputs, the ranges that are read, by
their start and length, and the bytes that are stored. -/
structure Accesses where
  inputs : Nat → Prop
  reads : Nat → Nat → Prop
  stores : Nat → Prop

/-- Some accesses are among others. -/
structure Accesses.Le (A A' : Accesses) : Prop where
  inputs : ∀ a, A.inputs a → A'.inputs a
  reads : ∀ addr size, A.reads addr size → A'.reads addr size
  stores : ∀ a, A.stores a → A'.stores a

/-- One change of the policy. -/
inductive Step (A : Accesses) : InputMemoryPolicy → InputMemoryPolicy → Prop where
  | input (p : InputMemoryPolicy) (addr size : Nat) (h : A.inputs addr) :
      Step A p { p with knownInputs := p.knownInputs.set addr size }
  | output (p : InputMemoryPolicy) (addr size : Nat) (h : Within A.stores addr size) :
      Step A p { p with knownOutputs := p.knownOutputs.set addr size }
  | draw (p : InputMemoryPolicy) (n : Nat) : Step A p { p with drawn := p.drawn + n }
  | advance (p : InputMemoryPolicy) : Step A p p.advance
  /-- The pointer is the watermark, which an increment still fits behind. -/
  | pointer (p : InputMemoryPolicy) (addr : Nat) (hread : A.reads addr p.addressBytes)
      (h : p.pointerWatermark + pointerIncrement < p.pointersEnd) :
      Step A p { p.advance with pointerMap := p.pointerMap.set addr p.pointerWatermark }

/-- Any number of changes. -/
abbrev Evolves (A : Accesses) : InputMemoryPolicy → InputMemoryPolicy → Prop :=
  Relation.ReflTransGen (Step A)

/-- Both ways out of a method, the policy has only evolved. -/
abbrev EvolvesThrough {α : Type} (A : Accesses) (f : PolicyM α) : Prop :=
  ∀ p₀, Triple (Evolves A p₀) f (fun _ => Evolves A p₀) fun _ => Evolves A p₀

variable {p₀ : InputMemoryPolicy} {A A' : Accesses}

theorem Step.mono {p q : InputMemoryPolicy} (h : Step A p q) (hA : A.Le A') : Step A' p q := by
  cases h with
  | input addr size hinput => exact .input p addr size (hA.inputs addr hinput)
  | output addr size hstored => exact .output p addr size (hstored.mono hA.stores)
  | draw n => exact .draw p n
  | advance => exact .advance p
  | pointer addr hread hroom => exact .pointer p addr (hA.reads addr _ hread) hroom

theorem Evolves.mono {p q : InputMemoryPolicy} (h : Evolves A p q) (hA : A.Le A') :
    Evolves A' p q := by
  induction h with
  | refl => exact .refl
  | tail _ hstep ih => exact ih.tail (hstep.mono hA)

/-- What every step keeps, any number of them keep. -/
theorem Evolves.keeps {P : InputMemoryPolicy → Prop} {p q : InputMemoryPolicy} (h : Evolves A p q)
    (hstep : ∀ r s, Step A r s → P r → P s) (hp : P p) : P q := by
  induction h with
  | refl => exact hp
  | tail _ hlast ih => exact hstep _ _ hlast ih

/-- So does a method through which the policy only evolves. -/
theorem EvolvesThrough.keeps {α : Type} {f : PolicyM α} {P : InputMemoryPolicy → Prop}
    (h : EvolvesThrough A f) (hstep : ∀ r s, Step A r s → P r → P s) :
    Triple P f (fun _ => P) fun _ => P := by
  intro p hp
  have hrun := h p p .refl
  cases hr : f p with
  | ok a q => rw [hr] at hrun; exact hrun.keeps hstep hp
  | error e q => rw [hr] at hrun; exact hrun.keeps hstep hp

theorem step_evolves {f : InputMemoryPolicy → InputMemoryPolicy} (h : ∀ p, Step A p (f p)) :
    EvolvesThrough A (modify f : PolicyM PUnit) :=
  fun _ => Triple.update fun p hp => hp.tail (h p)

/-! ## methods -/

/-- A pointer that is handed out is the watermark before the last step. -/
theorem generatePointer_hands {n : Nat} :
    Triple (fun p => Evolves A p₀ p ∧ p.addressBytes = n) generatePointer
      (fun ptr q => ∃ p, Evolves A p₀ p ∧ p.addressBytes = n ∧
        p.pointerWatermark + pointerIncrement < p.pointersEnd ∧
        ptr = p.pointerWatermark ∧ q = p.advance) fun _ => Evolves A p₀ := by
  rintro p ⟨hp, hn⟩
  rw [generatePointer_run]
  split_ifs with hfirst hsecond
  · exact ⟨p, hp, hn, hsecond, rfl, rfl⟩
  · exact hp.tail (.advance p)
  · exact hp

theorem generatePointer_evolves : EvolvesThrough A generatePointer := fun _ p hp =>
  (generatePointer_hands (n := p.addressBytes)).conseq (fun _ h => h)
    (fun _ _ ⟨p, hp, _, _, _, hq⟩ => hq ▸ hp.tail (.advance p)) (fun _ _ h => h) p ⟨hp, rfl⟩

theorem inventData_evolves {addr size : Nat} (hread : A.reads addr size) :
    EvolvesThrough A (inventData addr size) := by
  intro p₀ p hp
  unfold inventData
  rw [run_get_bind]
  by_cases hsize : p.addressBytes = size
  · rw [if_pos hsize]
    refine Triple.bind generatePointer_hands (fun ptr => ?_) p ⟨hp, hsize⟩
    refine Triple.bind (Q := fun _ => Evolves A p₀) (Triple.modify ?_) fun _ => ?_
    · rintro q ⟨p, hp, hbytes, hroom, rfl, rfl⟩
      exact hp.tail (.pointer p addr (by rw [hbytes]; exact hread) hroom)
    · refine Triple.read fun _ => Triple.ite (fun _ => ?_) fun _ => Triple.throw fun _ hp => hp
      exact Triple.pure fun _ hp => hp
  · rw [if_neg hsize]
    exact hp.tail (.draw p size)

theorem readBeforeWrite_evolves {addr size : Nat} (hinput : A.inputs addr)
    (hread : A.reads addr size) (data : List Byte) :
    EvolvesThrough A (readBeforeWrite addr size data) := by
  intro p₀
  refine Triple.bind (inventData_evolves hread p₀) fun new => ?_
  refine Triple.bind (step_evolves (fun p => .input p addr size hinput) p₀) fun _ => ?_
  exact Triple.bind (pyAssert_triple _) fun _ => Triple.pure fun _ hp => hp

theorem writeBeforeRead_evolves {addr size : Nat} (hstored : Within A.stores addr size)
    (data : List Byte) : EvolvesThrough A (writeBeforeRead addr size data) := fun p₀ =>
  Triple.bind (step_evolves (fun p => .output p addr size hstored) p₀) fun _ =>
    Triple.pure fun _ hp => hp

theorem addOutput_evolves {addr size : Nat} (hstored : Within A.stores addr size) :
    EvolvesThrough A (addOutput addr size) :=
  step_evolves fun p => .output p addr size hstored

theorem inInputRange_evolves (addr : Nat) : EvolvesThrough A (inInputRange addr) := by
  intro p₀
  refine Triple.read fun _ => Triple.ite (fun _ => Triple.pure fun _ hp => hp) fun _ => ?_
  refine Triple.read fun _ => Triple.ite (fun _ => ?_) fun _ => Triple.pure fun _ hp => hp
  refine Triple.ite (fun _ => ?_) fun _ => Triple.pure fun _ hp => hp
  refine Triple.bind (step_evolves (fun p => .advance p) p₀) fun _ => ?_
  exact Triple.read fun _ => Triple.bind (pyAssert_triple _) fun _ => Triple.pure fun _ hp => hp

theorem handleCompute_evolves {result : Nat} (hinput : A.inputs result)
    (base scale index disp size : Nat) :
    EvolvesThrough A (handleCompute result base scale index disp size) := by
  intro p₀
  have hset := step_evolves (A := A) (fun p => .input p result size hinput) p₀
  refine Triple.bind (inInputRange_evolves result p₀) fun known => Triple.ite (fun _ => ?_) fun _ => ?_
  · exact Triple.bind hset fun _ => Triple.pure fun _ hp => hp
  · refine Triple.read fun _ => Triple.ite (fun _ => ?_) fun _ => Triple.pure fun _ hp => hp
    exact Triple.bind hset fun _ => Triple.pure fun _ hp => hp

/-! ## what steps keep -/

/-- The ranges of a policy, and the size of its addresses, are the ones it was made with. -/
structure SameRanges (p q : InputMemoryPolicy) : Prop where
  start : q.start = p.start
  stop : q.stop = p.stop
  pointersStart : q.pointersStart = p.pointersStart
  pointersEnd : q.pointersEnd = p.pointersEnd
  addressBytes : q.addressBytes = p.addressBytes

theorem Step.sameRanges {p q : InputMemoryPolicy} (h : Step A p q) : SameRanges p q := by
  cases h <;> exact ⟨rfl, rfl, rfl, rfl, rfl⟩

theorem Evolves.sameRanges {p q : InputMemoryPolicy} (h : Evolves A p q) : SameRanges p q := by
  refine h.keeps (P := SameRanges p) (fun r s hstep hr => ?_) ⟨rfl, rfl, rfl, rfl, rfl⟩
  have hs := hstep.sameRanges
  exact ⟨hs.start.trans hr.start, hs.stop.trans hr.stop, hs.pointersStart.trans hr.pointersStart,
    hs.pointersEnd.trans hr.pointersEnd, hs.addressBytes.trans hr.addressBytes⟩

/-- A policy watches the same addresses throughout. -/
theorem Evolves.watches {p q : InputMemoryPolicy} (h : Evolves A p q) : q.watches = p.watches := by
  have hsame := h.sameRanges
  funext addr
  simp only [InputMemoryPolicy.watches, hsame.start, hsame.stop, hsame.pointersStart,
    hsame.pointersEnd]

/-- A place that was handed out as a pointer, or skipped: a number of increments after the start of
the pointer range, behind the watermark, and with an increment of the range behind it. -/
structure HandedOut (p : InputMemoryPolicy) (ptr : Nat) : Prop where
  start_le : p.pointersStart ≤ ptr
  aligned : pointerIncrement ∣ ptr - p.pointersStart
  passed : ptr + pointerIncrement ≤ p.pointerWatermark
  room : ptr + pointerIncrement < p.pointersEnd

theorem HandedOut.advances {p q : InputMemoryPolicy} {ptr : Nat} (h : p.HandedOut ptr)
    (hpq : Advances p q) : q.HandedOut ptr where
  start_le := hpq.pointersStart ▸ h.start_le
  aligned := hpq.pointersStart ▸ h.aligned
  passed := Nat.le_trans h.passed hpq.watermark_le
  room := hpq.pointersEnd ▸ h.room

/-- All pointers of the map were handed out. -/
structure PointersInside (p : InputMemoryPolicy) : Prop extends PointersBehind p where
  handedOut : ∀ a ptr, p.pointerMap.get? a = some ptr → p.HandedOut ptr

theorem Step.advances {p q : InputMemoryPolicy} (h : Step A p q) (hp : p.PointersBehind) :
    Advances p q := by
  cases h with
  | input | output | draw =>
      exact ⟨⟨hp.start_le, hp.aligned, hp.behind, hp.injective⟩, rfl, rfl, Nat.le_refl _⟩
  | advance => exact hp.advances.advance
  | pointer addr hread hroom => exact hp.advances.advance.setPointer addr rfl hp.behind

theorem Step.pointersInside {p q : InputMemoryPolicy} (h : Step A p q) (hp : p.PointersInside) :
    q.PointersInside := by
  have hadvances := h.advances hp.toPointersBehind
  refine ⟨hadvances.sound, fun a ptr hptr => ?_⟩
  cases h with
  | input | output | draw | advance => exact (hp.handedOut a ptr hptr).advances hadvances
  | pointer addr hread hroom =>
      simp only [PyDict.get?_set] at hptr
      split at hptr
      · rw [← Option.some.inj hptr]
        exact ⟨hp.start_le, hp.aligned, Nat.le_refl _, hroom⟩
      · exact (hp.handedOut a ptr hptr).advances hadvances

/-- **The pointers stay inside** the pointer range. -/
theorem Evolves.pointersInside {p q : InputMemoryPolicy} (h : Evolves A p q)
    (hp : p.PointersInside) : q.PointersInside :=
  h.keeps (fun _ _ hstep => hstep.pointersInside) hp

/-- The outputs are bytes that are stored, and the pointers stand at ranges that are read. -/
structure RecordsAccesses (A : Accesses) (p : InputMemoryPolicy) : Prop where
  outputs : ∀ k size, p.knownOutputs.get? k = some size → Within A.stores k size
  pointers : ∀ a ptr, p.pointerMap.get? a = some ptr → A.reads a p.addressBytes

theorem Step.recordsAccesses {p q : InputMemoryPolicy} (h : Step A p q)
    (hp : p.RecordsAccesses A) : q.RecordsAccesses A := by
  cases h with
  | input | draw | advance => exact ⟨hp.outputs, hp.pointers⟩
  | output addr size hstored =>
      refine ⟨fun k n hn => ?_, hp.pointers⟩
      simp only [PyDict.get?_set] at hn
      split at hn
      · next heq => rw [← Option.some.inj hn, heq]; exact hstored
      · exact hp.outputs k n hn
  | pointer addr hread hroom =>
      refine ⟨hp.outputs, fun a ptr hptr => ?_⟩
      simp only [PyDict.get?_set] at hptr
      split at hptr
      · next heq => rw [heq]; exact hread
      · exact hp.pointers a ptr hptr

/-- **What is recorded was accessed.** -/
theorem Evolves.recordsAccesses {p q : InputMemoryPolicy} (h : Evolves A p q)
    (hp : p.RecordsAccesses A) : q.RecordsAccesses A :=
  h.keeps (fun _ _ hstep => hstep.recordsAccesses) hp

/-- What the policy watches and what it has recorded as input lies below `n`. -/
structure InputsBelow (n : Nat) (p : InputMemoryPolicy) : Prop where
  watches : ∀ a, p.watches a = true → a < n
  knownInputs : ∀ a, (p.knownInputs.get? a).isSome = true → a < n

/-- Inputs below `n` are recorded below `n`. -/
theorem Step.inputsBelow {n : Nat} (hA : ∀ a, A.inputs a → a < n) {p q : InputMemoryPolicy}
    (h : Step A p q) (hp : p.InputsBelow n) : q.InputsBelow n := by
  cases h with
  | output | draw | advance | pointer => exact ⟨hp.watches, hp.knownInputs⟩
  | input addr size hinput =>
      refine ⟨hp.watches, fun a ha => ?_⟩
      simp only [PyDict.get?_set] at ha
      split at ha
      · next heq => rw [heq]; exact hA addr hinput
      · exact hp.knownInputs a ha

/-! ## calls -/

/-- Any accesses. -/
def Accesses.all : Accesses := ⟨fun _ => True, fun _ _ => True, fun _ => True⟩

theorem PolicyCall.run_evolves (call : PolicyCall) : EvolvesThrough .all call.run := by
  intro p₀
  cases call with
  | generatePointer =>
      exact Triple.bind (generatePointer_evolves p₀) fun _ => Triple.pure fun _ h => h
  | readBeforeWrite addr size data =>
      exact Triple.bind (readBeforeWrite_evolves (A := .all) trivial trivial data p₀) fun _ =>
        Triple.pure fun _ h => h
  | writeBeforeRead addr size data =>
      exact Triple.bind (writeBeforeRead_evolves (A := .all) (fun _ _ _ => trivial) data p₀) fun _ =>
        Triple.pure fun _ h => h
  | inInputRange addr =>
      exact Triple.bind (inInputRange_evolves addr p₀) fun _ => Triple.pure fun _ h => h
  | handleCompute result base scale index disp size =>
      exact Triple.bind (handleCompute_evolves (A := .all) trivial base scale index disp size p₀)
        fun _ => Triple.pure fun _ h => h

/-- A call, whether it returns or raises, lets the policy evolve. -/
theorem PolicyCall.after_evolves (p : InputMemoryPolicy) (call : PolicyCall) :
    Evolves .all p (call.after p) :=
  PolicyCall.after_of_triple fun _ hq => hq ▸ call.run_evolves p p .refl

theorem afterAll_evolves (calls : List PolicyCall) :
    ∀ p : InputMemoryPolicy, Evolves .all p (p.afterAll calls) := by
  induction calls with
  | nil => exact fun _ => .refl
  | cons call calls ih => exact fun p => (call.after_evolves p).trans (ih _)

end InputMemoryPolicy

end Microx
