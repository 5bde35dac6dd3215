import Microx.Executor.Emulate

/-!
# Microx.Executor.Flags

The flags of an emulated comparison.

`UpdateFlagsSub` shifts its values by `1 << (size - 1)`, which the processor
takes as a shift by nothing: what it calls signs are the lowest bits.  So the
carry, zero, adjust and parity flags are always those of the subtraction
(`updateFlagsSub_unsigned`), and the sign and overflow flags are exactly when
the lowest bits happen to say the same as the highest (`updateFlagsSub_iff`).
-/

namespace Microx

/-! ## the flags of a subtraction -/

/-- The widths of an operand. -/
def IsOperandWidth (w : Nat) : Prop := w = 8 ∨ w = 16 ∨ w = 32 ∨ w = 64

/-- An even number of bits is set. -/
def evenParity (b : BitVec 8) : Bool := (List.range 8).countP (b.getLsbD ·) % 2 == 0

/-- The x86 flags of `l - r`. -/
structure IsSubFlags {w : Nat} (l r : BitVec w) (flags : Word) : Prop where
  sf : Flag.sf.get flags = (l - r).msb
  cf : Flag.cf.get flags = l.ult r
  of : Flag.of.get flags = l.ssubOverflow r
  zf : Flag.zf.get flags = decide (l = r)
  /-- The borrow out of bit 3. -/
  af : Flag.af.get flags = decide (l.toNat % 16 < r.toNat % 16)
  pf : Flag.pf.get flags = evenParity ((l - r).setWidth 8)

/-- Sign and overflow tell the signed order. -/
theorem slt_eq_sub {w : Nat} (l r : BitVec w) :
    l.slt r = ((l - r).msb != l.ssubOverflow r) := by
  rw [BitVec.slt_eq_decide]
  cases hover : l.ssubOverflow r with
  | false =>
      have hsub : (l - r).toInt = l.toInt - r.toInt :=
        BitVec.toInt_sub_of_not_ssubOverflow (by simp [hover])
      rw [BitVec.msb_eq_toInt, hsub, Bool.bne_false, decide_eq_decide]
      omega
  | true =>
      rw [BitVec.ssubOverflow_eq] at hover
      simp only [BitVec.msb_eq_toInt] at hover ⊢
      generalize decide ((l - r).toInt < 0) = d at *
      rw [Bool.eq_iff_iff]
      cases d with
      | false => simp at hover ⊢; omega
      | true => simp at hover ⊢; omega

namespace IsSubFlags

variable {w : Nat} {l r : BitVec w} {flags : Word}

/-- `JL` is taken exactly when `l` is less than `r`. -/
theorem jl (h : IsSubFlags l r flags) : Cond.l.holds flags = l.slt r := by
  rw [slt_eq_sub, Cond.holds, h.sf, h.of]

/-- `JB` is taken exactly when `l` is below `r`. -/
theorem jb (h : IsSubFlags l r flags) : Cond.b.holds flags = l.ult r := h.cf

/-- `JG` is taken exactly when `l` is greater than `r`. -/
theorem jg (h : IsSubFlags l r flags) : Cond.nle.holds flags = r.slt l := by
  have hne : (r != l) = !decide (l = r) := by
    by_cases heq : l = r
    · simp [heq]
    · simp [heq, Ne.symm heq]
  rw [BitVec.slt_eq_sle_and_ne, hne, BitVec.sle_eq_not_slt, slt_eq_sub, Cond.holds, h.sf, h.of,
    h.zf, Bool.and_comm]
  cases (l - r).msb <;> cases l.ssubOverflow r <;> rfl

/-- `JA` is taken exactly when `l` is above `r`. -/
theorem ja (h : IsSubFlags l r flags) : Cond.nbe.holds flags = r.ult l := by
  rw [Cond.holds, h.cf, h.zf, BitVec.ult_eq_decide, BitVec.ult_eq_decide, ← decide_not,
    ← decide_not, ← Bool.decide_and, decide_eq_decide, ← BitVec.toNat_inj]
  omega

end IsSubFlags

/-! ## the bits -/

/-- The shift that is meant to find the sign finds the lowest bit. -/
theorem shiftRight_signShift {w : Nat} (hw : IsOperandWidth w) (x : Word) :
    shiftRight x (1#64 <<< ((BitVec.ofNat 64 w - 1).toNat % 64)) = x := by
  obtain rfl | rfl | rfl | rfl := hw <;> simp [shiftRight]

/-- The lowest bit of a word. -/
theorem and_one_eq (x : Word) : x &&& 1 = BitVec.setWidth 64 (BitVec.ofBool (x.getLsbD 0)) := by
  apply BitVec.eq_of_getLsbD_eq
  intro i hi
  by_cases h0 : i = 0
  · rw [h0]
    simp
  · simp [h0]

theorem parityFlag_eq (b : BitVec 8) : parityFlag b = evenParity b := by
  revert b
  decide +kernel

/-- A difference in 64 bits, narrowed. -/
theorem setWidth_sub_setWidth {w n : Nat} (hw : IsOperandWidth w) (hn : n ≤ w) (l r : BitVec w) :
    (l.setWidth 64 - r.setWidth 64).setWidth n = (l - r).setWidth n := by
  have hsub : (l.setWidth 64 - r.setWidth 64).setWidth w = l - r := by
    apply BitVec.eq_of_toNat_eq
    have hl := l.isLt
    have hr := r.isLt
    rw [BitVec.toNat_setWidth, BitVec.toNat_sub, BitVec.toNat_setWidth, BitVec.toNat_setWidth,
      BitVec.toNat_sub]
    obtain rfl | rfl | rfl | rfl := hw <;> omega
  rw [← hsub, BitVec.setWidth_setWidth_of_le _ hn]

/-- Testing a single bit. -/
theorem and_bit4_ne_zero (x : Word) : (0 ≠ x &&& 0x10#64) ↔ x.getLsbD 4 = true := by
  have hbit : 0x10#64 = BitVec.twoPow 64 4 := rfl
  rw [hbit, BitVec.and_twoPow]
  cases x.getLsbD 4 with
  | false => simp
  | true => decide

theorem getLsbD_four (x : Word) : x.getLsbD 4 = decide (x.toNat / 16 % 2 = 1) :=
  Nat.testBit_eq_decide_div_mod_eq

/-- Bit 4 of a difference, less the bits of its operands, is the borrow out of bit 3. -/
theorem borrow_eq (x y : Word) :
    ((x - y) ^^^ x ^^^ y).getLsbD 4 = decide (x.toNat % 16 < y.toNat % 16) := by
  have hx := x.isLt
  have hy := y.isLt
  have hxor (p q r : Prop) [Decidable p] [Decidable q] [Decidable r] :
      ((decide p ^^ decide q) ^^ decide r) = decide ((p ↔ q) ↔ r) := by
    by_cases p <;> by_cases q <;> by_cases r <;> simp_all
  rw [BitVec.getLsbD_xor, BitVec.getLsbD_xor, getLsbD_four, getLsbD_four, getLsbD_four,
    BitVec.toNat_sub, hxor, decide_eq_decide]
  omega

/-- The lowest bit of a difference. -/
theorem getLsbD_zero_sub (x y : Word) :
    (x - y).getLsbD 0 = (x.getLsbD 0 ^^ y.getLsbD 0) := by
  have hx := x.isLt
  have hy := y.isLt
  have hbit (z : Word) : z.getLsbD 0 = decide (z.toNat % 2 = 1) := Nat.testBit_zero _
  have hxor (p q : Prop) [Decidable p] [Decidable q] : (decide p ^^ decide q) = decide ¬(p ↔ q) := by
    by_cases p <;> by_cases q <;> simp_all
  rw [hbit, hbit, hbit, hxor, BitVec.toNat_sub, decide_eq_decide]
  omega

/-! ## `UpdateFlagsSub` -/

section

variable {w : Nat} (hw : IsOperandWidth w) (flags : Word) (l r : BitVec w)

include hw

/-- The flags that follow the unsigned values are right. -/
theorem updateFlagsSub_unsigned :
    let flags' := updateFlagsSub flags (l.setWidth 64) (r.setWidth 64)
      (l.setWidth 64 - r.setWidth 64) w
    Flag.cf.get flags' = l.ult r ∧ Flag.zf.get flags' = decide (l = r) ∧
      Flag.af.get flags' = decide (l.toNat % 16 < r.toNat % 16) ∧
      Flag.pf.get flags' = evenParity ((l - r).setWidth 8) := by
  have hl := l.isLt
  have hr := r.isLt
  have hle : 8 ≤ w ∧ w ≤ 64 := by obtain rfl | rfl | rfl | rfl := hw <;> decide
  have hpow : 2 ^ w ≤ 2 ^ 64 := Nat.pow_le_pow_right (by decide) hle.2
  have hlhs : (l.setWidth 64).toNat = l.toNat := by
    rw [BitVec.toNat_setWidth, Nat.mod_eq_of_lt (by omega)]
  have hrhs : (r.setWidth 64).toNat = r.toNat := by
    rw [BitVec.toNat_setWidth, Nat.mod_eq_of_lt (by omega)]
  simp only [updateFlagsSub, Flag.get_set, reduceCtorEq, if_true, if_false]
  refine ⟨?_, ?_, ?_, ?_⟩
  · rw [BitVec.ult_eq_decide, decide_eq_decide, BitVec.lt_def, hlhs, hrhs]
  · rw [decide_eq_decide, eq_comm, BitVec.sub_eq_iff_eq_add, show (0 : Word) = 0#64 from rfl,
      BitVec.zero_add, ← BitVec.toNat_inj, hlhs, hrhs, BitVec.toNat_inj]
  · have hborrow := borrow_eq (l.setWidth 64) (r.setWidth 64)
    rw [hlhs, hrhs] at hborrow
    rw [← hborrow, Bool.eq_iff_iff, decide_eq_true_eq]
    exact and_bit4_ne_zero _
  · rw [parityFlag_eq, setWidth_sub_setWidth hw hle.1]

/-- The sign flag is the lowest bit of the difference. -/
theorem updateFlagsSub_sf :
    Flag.sf.get (updateFlagsSub flags (l.setWidth 64) (r.setWidth 64)
      (l.setWidth 64 - r.setWidth 64) w) = (l - r).getLsbD 0 := by
  have hpos : 0 < w := by obtain rfl | rfl | rfl | rfl := hw <;> decide
  have hlow := congrArg (BitVec.getLsbD · 0) (setWidth_sub_setWidth hw (Nat.le_refl w) l r)
  simp only [updateFlagsSub, Flag.get_set, reduceCtorEq, if_true, if_false,
    shiftRight_signShift hw, and_one_eq]
  simpa [hpos] using hlow

/-- The overflow flag is set when an odd number is subtracted from an even one. -/
theorem updateFlagsSub_of :
    Flag.of.get (updateFlagsSub flags (l.setWidth 64) (r.setWidth 64)
      (l.setWidth 64 - r.setWidth 64) w) = (!l.getLsbD 0 && r.getLsbD 0) := by
  simp only [updateFlagsSub, Flag.get_set, reduceCtorEq, if_true, if_false,
    shiftRight_signShift hw, and_one_eq, getLsbD_zero_sub]
  have hl : (l.setWidth 64).getLsbD 0 = l.getLsbD 0 := by simp
  have hr : (r.setWidth 64).getLsbD 0 = r.getLsbD 0 := by simp
  rw [hl, hr]
  cases l.getLsbD 0 <;> cases r.getLsbD 0 <;> decide

end

/-- **The flags of an emulated comparison** are those of the subtraction, and the jumps that follow
it compare its operands, if and only if the lowest bit of the difference equals the highest, and
the subtraction overflows exactly when an odd number is subtracted from an even one. -/
theorem updateFlagsSub_iff {w : Nat} (hw : IsOperandWidth w) (flags : Word) (l r : BitVec w) :
    let flags' := updateFlagsSub flags (l.setWidth 64) (r.setWidth 64)
      (l.setWidth 64 - r.setWidth 64) w
    (IsSubFlags l r flags' ∧ Cond.l.holds flags' = l.slt r ∧ Cond.nle.holds flags' = r.slt l ∧
      Cond.b.holds flags' = l.ult r ∧ Cond.nbe.holds flags' = r.ult l) ↔
    ((l - r).getLsbD 0 = (l - r).msb ∧ (!l.getLsbD 0 && r.getLsbD 0) = l.ssubOverflow r) := by
  intro flags'
  have hsf : Flag.sf.get flags' = (l - r).getLsbD 0 := updateFlagsSub_sf hw flags l r
  have hof : Flag.of.get flags' = (!l.getLsbD 0 && r.getLsbD 0) := updateFlagsSub_of hw flags l r
  constructor
  · rintro ⟨h, -⟩
    exact ⟨by rw [← hsf, h.sf], by rw [← hof, h.of]⟩
  · rintro ⟨hsign, hover⟩
    obtain ⟨hcf, hzf, haf, hpf⟩ := updateFlagsSub_unsigned hw flags l r
    have h : IsSubFlags l r flags' :=
      ⟨hsf.trans hsign, hcf, hof.trans hover, hzf, haf, hpf⟩
    exact ⟨h, h.jl, h.jg, h.jb, h.ja⟩

/-- Comparing equal bytes. -/
theorem updateFlagsSub_iff_equal :
    IsSubFlags 5#8 5#8 (updateFlagsSub 0 5#64 5#64 0#64 8) :=
  ((updateFlagsSub_iff (.inl rfl) 0 5#8 5#8).mpr (by decide)).1

/-- Comparing the bytes `1` and `0` sets the sign flag, so `JL` is taken. -/
theorem updateFlagsSub_wrong :
    Flag.sf.get (updateFlagsSub 0 1#64 0#64 (1#64 - 0#64) 8) = true ∧ (1#8 - 0#8).msb = false ∧
      Cond.l.holds (updateFlagsSub 0 1#64 0#64 (1#64 - 0#64) 8) = true ∧ (1#8).slt 0#8 = false := by
  decide

end Microx
