import Microx.Godefroid.Evolution

/-!
# Microx.Godefroid.Watermark

Whether new pointers avoid the memory that a program already uses.

An access above the watermark moves it by one increment and no further, an
access exactly at it does not move it, and neither does one to an address that
is an input already.  A later pointer may then point to an area that holds the
address (`pointers_avoid_iff`).
-/

namespace Microx

namespace InputMemoryPolicy

open Hoare

/-! ## calls that return -/

namespace PolicyCall

/-- The call classifies an address or generates a pointer, and does nothing else. -/
def Probes : PolicyCall → Prop
  | generatePointer | inInputRange _ | handleCompute .. => True
  | readBeforeWrite .. | writeBeforeRead .. => False

theorem after_of_ok {call : PolicyCall} {p q : InputMemoryPolicy} (h : call.run p = .ok () q) :
    call.after p = q := by
  rw [after, h]

end PolicyCall

/-- None of the calls raises. -/
def NoneRaises : InputMemoryPolicy → List PolicyCall → Prop
  | _, [] => True
  | p, call :: calls => (∃ q, call.run p = .ok () q) ∧ NoneRaises (call.after p) calls

theorem NoneRaises.right {calls calls' : List PolicyCall} :
    ∀ {p : InputMemoryPolicy}, NoneRaises p (calls ++ calls') →
      NoneRaises (p.afterAll calls) calls' := by
  induction calls with
  | nil => exact fun h => h
  | cons call calls ih => exact fun h => ih h.2

/-- The access to an address: `handle_compute` of it. -/
abbrev access (a base scale index disp size : Nat) : PolicyCall :=
  .handleCompute a base scale index disp size

/-! ## what an access does to the watermark -/

/-- The address is not an input yet and lies above the watermark. -/
def Moves (p : InputMemoryPolicy) (a : Nat) : Prop :=
  (p.knownInputs.get? a).isSome = false ∧ p.pointerWatermark < a

/-- `in_input_range`, for an address of the pointer range. -/
theorem inInputRange_ok {p q : InputMemoryPolicy} {a : Nat} {known : Bool}
    (hlo : p.pointersStart ≤ a) (hhi : a < p.pointersEnd)
    (h : inInputRange a p = .ok known q) :
    known = true ∧ (p.Moves a → q = p.advance) ∧ (¬p.Moves a → q = p) := by
  unfold inInputRange at h
  rw [run_get_bind] at h
  unfold Moves
  cases hknown : (p.knownInputs.get? a).isSome with
  | true =>
      simp only [hknown, if_true, run_pure, EStateM.Result.ok.injEq] at h
      exact ⟨h.1.symm, by simp, fun _ => h.2.symm⟩
  | false =>
      simp only [hknown, Bool.false_eq_true, if_false] at h
      rw [run_get_bind] at h
      simp only [hlo, hhi, and_self, if_true] at h
      by_cases hw : p.pointerWatermark < a
      · simp only [hw, if_true] at h
        rw [run_modify_bind, run_get_bind] at h
        obtain ⟨_, s, hassert, h⟩ := bind_eq_ok.mp h
        have hs : s = p.advance := by
          unfold pyAssert at hassert
          split at hassert
          · exact (EStateM.Result.ok.inj hassert).2.symm
          · cases hassert
        simp only [run_pure, EStateM.Result.ok.injEq] at h
        exact ⟨h.1.symm, fun _ => h.2.symm.trans hs, fun hno => absurd ⟨rfl, hw⟩ hno⟩
      · simp only [hw, if_false, run_pure, EStateM.Result.ok.injEq] at h
        exact ⟨h.1.symm, fun hmove => absurd hmove.2 hw, fun _ => h.2.symm⟩

/-- **An access** moves the watermark by one increment or not at all. -/
theorem access_watermark {p q : InputMemoryPolicy} {a base scale index disp size : Nat}
    (hlo : p.pointersStart ≤ a) (hhi : a < p.pointersEnd)
    (h : (access a base scale index disp size).run p = .ok () q) :
    (p.Moves a → q.pointerWatermark = p.pointerWatermark + pointerIncrement) ∧
      (¬p.Moves a → q.pointerWatermark = p.pointerWatermark) := by
  obtain ⟨_, s, hcompute, h⟩ := bind_eq_ok.mp h
  obtain ⟨known, t, hrange, hcompute⟩ := bind_eq_ok.mp hcompute
  obtain ⟨hknown, hmove, hstay⟩ := inInputRange_ok hlo hhi hrange
  simp only [hknown, if_true] at hcompute
  rw [run_modify_bind] at hcompute
  simp only [run_pure, EStateM.Result.ok.injEq] at h hcompute
  rw [← h.2, ← hcompute.2]
  refine ⟨fun hm => ?_, fun hm => ?_⟩
  · rw [hmove hm]
    rfl
  · rw [hstay hm]

/-! ## pointers to come -/

/-- Where the area of an address starts: areas are an increment long, from the start of the pointer
range on. -/
def areaStart (p : InputMemoryPolicy) (a : Nat) : Nat :=
  p.pointersStart + (a - p.pointersStart) / pointerIncrement * pointerIncrement

/-- The pointer of an area is the one whose area holds the address. -/
theorem areaStart_unique {p : InputMemoryPolicy} {a ptr : Nat} (hlo : p.pointersStart ≤ ptr)
    (hdvd : pointerIncrement ∣ ptr - p.pointersStart) :
    ptr ≤ a ∧ a < ptr + pointerIncrement ↔ p.pointersStart ≤ a ∧ p.areaStart a = ptr := by
  have hpos : pointerIncrement = 1024 := by decide
  obtain ⟨k, hk⟩ := hdvd
  rw [areaStart]
  rw [hpos] at hk ⊢
  omega

/-- A pointer is generated at the watermark while an increment fits behind it. -/
theorem generatePointer_fits {p : InputMemoryPolicy} (hbytes : p.addressBytes ≤ pointerIncrement)
    (h : p.pointerWatermark + pointerIncrement < p.pointersEnd) :
    InputMemoryPolicy.generatePointer p = .ok p.pointerWatermark p.advance := by
  rw [generatePointer_run, if_pos (by omega), if_pos h]

/-- Enough pointers reach any area in front of the watermark. -/
theorem pointers_reach (k : Nat) :
    ∀ p : InputMemoryPolicy, p.addressBytes ≤ pointerIncrement →
      p.pointerWatermark + k * pointerIncrement + pointerIncrement < p.pointersEnd →
      NoneRaises p (List.replicate (k + 1) .generatePointer) ∧
        p.pointerWatermark + k * pointerIncrement ∈
          p.pointers (List.replicate (k + 1) .generatePointer) := by
  induction k with
  | zero =>
      intro p hbytes hfits
      have hrun := generatePointer_fits hbytes (by omega)
      refine ⟨⟨⟨p.advance, run_bind_ok hrun⟩, trivial⟩, ?_⟩
      simp [pointers, PolicyCall.pointer?, PolicyCall.generates, generated?, hrun]
  | succ k ih =>
      intro p hbytes hfits
      have hrun := generatePointer_fits hbytes (by omega)
      have hcall : PolicyCall.run .generatePointer p = .ok () p.advance := run_bind_ok hrun
      have hafter := PolicyCall.after_of_ok hcall
      have hnext : p.advance.pointerWatermark + k * pointerIncrement =
          p.pointerWatermark + (k + 1) * pointerIncrement := by
        rw [Nat.succ_mul]
        change p.pointerWatermark + pointerIncrement + _ = _
        omega
      have hrest := ih p.advance hbytes (by rw [hnext]; exact hfits)
      rw [hnext] at hrest
      refine ⟨⟨⟨p.advance, hcall⟩, ?_⟩, ?_⟩
      · rw [hafter]
        exact hrest.1
      · rw [List.replicate_succ, pointers, hafter]
        exact List.mem_append_right _ hrest.2

/-- **What is safe from pointers to come**: what the watermark has passed, and an area that does
not fit the pointer range. -/
theorem avoided_iff {p : InputMemoryPolicy} (hp : p.PointersBehind)
    (hbytes : p.addressBytes ≤ pointerIncrement) {a : Nat} (hlo : p.pointersStart ≤ a) :
    (∀ later, (∀ call ∈ later, call.Probes) → NoneRaises p later →
        ∀ ptr ∈ p.pointers later, ¬(ptr ≤ a ∧ a < ptr + pointerIncrement)) ↔
      a < p.pointerWatermark ∨ p.pointersEnd ≤ p.areaStart a + pointerIncrement := by
  constructor
  · intro h
    by_contra hno
    obtain ⟨hpassed, hfits⟩ := not_or.mp hno
    have hpos : pointerIncrement = 1024 := by decide
    obtain ⟨k, hk⟩ : ∃ k, p.areaStart a = p.pointerWatermark + k * pointerIncrement := by
      obtain ⟨j, hj⟩ := hp.aligned
      have hstart := hp.start_le
      refine ⟨(a - p.pointerWatermark) / pointerIncrement, ?_⟩
      rw [areaStart]
      rw [hpos] at hj ⊢
      omega
    have hreach := pointers_reach k p hbytes (by omega)
    refine h _ ?_ hreach.1 _ hreach.2 ?_
    · intro call hcall
      rw [List.eq_of_mem_replicate hcall]
      trivial
    · rw [← hk]
      rw [areaStart, hpos]
      omega
  · rintro h later - - ptr hptr hin
    obtain ⟨hle, hdvd, hlt⟩ := mem_pointers later p hp ptr hptr
    have harea := ((areaStart_unique (Nat.le_trans hp.start_le hle) hdvd).mp hin).2
    omega

/-! ## after an access -/

/-- **New pointers avoid an address in use** exactly if its access has moved the watermark past it,
or no pointer fits its area. -/
theorem pointers_avoid_iff (addressSize : AddressSize) {start stop pointersStart pointersEnd : Nat}
    (h : start < stop) (h' : pointersStart < pointersEnd) (entropy : Nat → Byte)
    (before : List PolicyCall) (a base scale index disp size : Nat) :
    let p₀ := init addressSize start stop pointersStart pointersEnd h h' entropy
    let p := p₀.afterAll before
    let q := (access a base scale index disp size).after p
    NoneRaises p₀ (before ++ [access a base scale index disp size]) →
    pointersStart ≤ a → a < pointersEnd → p.pointerWatermark ≤ a →
      ((∀ later, (∀ call ∈ later, call.Probes) → NoneRaises q later →
          ∀ ptr ∈ q.pointers later, ¬(ptr ≤ a ∧ a < ptr + pointerIncrement)) ↔
        ((p.knownInputs.get? a).isSome = false ∧ p.pointerWatermark < a ∧
            a < p.pointerWatermark + pointerIncrement) ∨
          pointersEnd ≤ p.areaStart a + pointerIncrement) := by
  intro p₀ p q hquiet hlo hhi hw
  have hp := afterAll_advances before p₀ (init_pointersBehind addressSize h h' entropy)
  have hq := (PolicyCall.after_passes hp.sound (access a base scale index disp size)).advances
  obtain ⟨⟨q', haccess⟩, -⟩ := hquiet.right
  have hqq : q = q' := PolicyCall.after_of_ok haccess
  obtain ⟨hmoves, hstays⟩ := access_watermark (p := p) (hp.pointersStart.trans_le hlo)
    (hhi.trans_le hp.pointersEnd.ge) haccess
  rw [← hqq] at hmoves hstays
  have hbytes : q.addressBytes ≤ pointerIncrement := by
    have hevolves : Evolves .all p₀ q :=
      (afterAll_evolves before p₀).trans (PolicyCall.after_evolves p _)
    rw [hevolves.sameRanges.addressBytes]
    change addressSize.bytes ≤ pointerIncrement
    cases addressSize <;> decide
  have harea : q.areaStart a = p.areaStart a := by rw [areaStart, areaStart, hq.pointersStart]
  have hstart : q.pointersStart ≤ a := by
    rw [hq.pointersStart, hp.pointersStart]
    exact hlo
  rw [avoided_iff hq.sound hbytes hstart, harea, hq.pointersEnd, hp.pointersEnd]
  refine or_congr ⟨fun hpassed => ?_, fun ⟨hnew, habove, hbelow⟩ => ?_⟩ Iff.rfl
  · by_cases hmove : p.Moves a
    · rw [hmoves hmove] at hpassed
      exact ⟨hmove.1, hmove.2, hpassed⟩
    · rw [hstays hmove] at hpassed
      exact absurd hw (Nat.not_le.mpr hpassed)
  · rw [hmoves ⟨hnew, habove⟩]
    exact hbelow

/-! ### samples -/

/-- An access just above the watermark. -/
theorem pointers_avoid_iff_above :
    let q := (access 0x8004 0 0 0 0 4).after samplePolicy
    ((∀ later, (∀ call ∈ later, call.Probes) → NoneRaises q later →
        ∀ ptr ∈ q.pointers later, ¬(ptr ≤ 0x8004 ∧ 0x8004 < ptr + pointerIncrement)) ↔
      ((samplePolicy.knownInputs.get? 0x8004).isSome = false ∧
          samplePolicy.pointerWatermark < 0x8004 ∧
          0x8004 < samplePolicy.pointerWatermark + pointerIncrement) ∨
        0x10000 ≤ samplePolicy.areaStart 0x8004 + pointerIncrement) := by
  have haccess : ∃ q, (access 0x8004 0 0 0 0 4).run samplePolicy = .ok () q := ⟨_, rfl⟩
  have hle : 0x8000 ≤ 0x8004 := by decide
  have hlt : 0x8004 < 0x10000 := by decide
  have h := pointers_avoid_iff .x32 (show 0x1000 < 0x1010 by decide)
    (show 0x8000 < 0x10000 by decide) (fun _ => 0) [] 0x8004 0 0 0 0 4
  exact h ⟨haccess, trivial⟩ hle hlt hle

/-- **An access exactly at the watermark** does not move it, and the next pointer points there. -/
theorem pointer_onto_accessed :
    ¬∀ (addressSize : AddressSize) (start stop pointersStart pointersEnd : Nat) (h : start < stop)
      (h' : pointersStart < pointersEnd) (entropy : Nat → Byte) (before : List PolicyCall),
      (∀ call ∈ before, call.Probes) → ∀ a base scale index disp size : Nat,
        let p₀ := init addressSize start stop pointersStart pointersEnd h h' entropy
        let p := p₀.afterAll before
        let q := (access a base scale index disp size).after p
        NoneRaises p₀ (before ++ [access a base scale index disp size]) →
        pointersStart ≤ a → a < pointersEnd → p.pointerWatermark ≤ a →
          ∀ later, (∀ call ∈ later, call.Probes) → NoneRaises q later →
            ∀ ptr ∈ q.pointers later, ¬(ptr ≤ a ∧ a < ptr + pointerIncrement) := by
  intro h
  have haccess : ∃ q, (access 0x8000 0 0 0 0 4).run samplePolicy = .ok () q := ⟨_, rfl⟩
  have hgenerate : ∃ q, PolicyCall.run .generatePointer
      ((access 0x8000 0 0 0 0 4).after samplePolicy) = .ok () q := ⟨_, rfl⟩
  have hptr : ((access 0x8000 0 0 0 0 4).after samplePolicy).pointers [.generatePointer] =
      [0x8000] := rfl
  have havoid := h .x32 0x1000 0x1010 0x8000 0x10000 (by decide) (by decide) (fun _ => 0) []
    (by simp) 0x8000 0 0 0 0 4 ⟨haccess, trivial⟩ (Nat.le_refl 0x8000) (by decide)
    (Nat.le_refl 0x8000) [.generatePointer] (by simp [PolicyCall.Probes]) ⟨hgenerate, trivial⟩ 0x8000
  refine havoid ?_ ⟨Nat.le_refl _, Nat.lt_add_of_pos_right (by decide)⟩
  exact hptr.symm ▸ List.mem_singleton_self _

end InputMemoryPolicy

end Microx
