import Mathlib

/-!
# Bit fields

The low bits of a vector, writing a field of it, and its little-endian bytes.
Every operation is characterised by the bits of its result, so that equalities
between compositions of them are equalities of bits.
-/

namespace Bits

variable {w v : Nat}

/-! ## the low bits -/

/-- The `n` low bits, zero-extended. -/
def low (n : Nat) (d : BitVec w) : BitVec w := (d.setWidth n).setWidth w

@[simp] theorem getLsbD_low (n : Nat) (d : BitVec w) (i : Nat) :
    (low n d).getLsbD i = (decide (i < n) && d.getLsbD i) := by
  by_cases h : i < w
  · simp [low, h]
  · simp [low, h, BitVec.getLsbD_of_ge d i (Nat.le_of_not_lt h)]

@[simp] theorem getElem_low (n : Nat) (d : BitVec w) (i : Nat) (hi : i < w) :
    (low n d)[i] = (decide (i < n) && d[i]) := by
  simp [← BitVec.getLsbD_eq_getElem]

theorem eq_of_bits {d e : BitVec w} (h : ∀ i < w, d.getLsbD i = e.getLsbD i) : d = e :=
  BitVec.eq_of_getLsbD_eq fun i hi => h i hi

/-- Two vectors agree on their `n` low bits. -/
theorem low_eq_low_iff {n : Nat} {d e : BitVec w} :
    low n d = low n e ↔ ∀ i < n, d.getLsbD i = e.getLsbD i := by
  constructor
  · intro h i hi
    have hb := congrArg (fun x => BitVec.getLsbD x i) h
    simpa [hi] using hb
  · intro h
    apply eq_of_bits
    intro i _
    by_cases hi : i < n
    · simp [hi, h i hi]
    · simp [hi]

/-- Vectors that agree on their low bits have the same low part. -/
theorem setWidth_eq_of_low_eq {n m : Nat} {d e : BitVec w} (h : low n d = low n e) (hm : m ≤ n) :
    d.setWidth m = e.setWidth m := by
  rw [low_eq_low_iff] at h
  apply eq_of_bits
  intro i hi
  simp [hi, h i (Nat.lt_of_lt_of_le hi hm)]

theorem low_of_le {n : Nat} (h : w ≤ n) (d : BitVec w) : low n d = d := by
  apply eq_of_bits
  intro i hi
  simp [Nat.lt_of_lt_of_le hi h]

/-- Narrowing sees only the low bits. -/
theorem setWidth_low {m n : Nat} (h : m ≤ n) (d : BitVec w) :
    (low n d).setWidth m = d.setWidth m := by
  apply eq_of_bits
  intro i hi
  simp [hi, Nat.lt_of_lt_of_le hi h]

theorem toNat_low (n : Nat) (d : BitVec w) : (low n d).toNat = d.toNat % 2 ^ n := by
  have hle : d.toNat % 2 ^ n < 2 ^ w := Nat.lt_of_le_of_lt (Nat.mod_le _ _) d.isLt
  simp [low, Nat.mod_eq_of_lt hle]

/-- The predecessor of a number that is not zero. -/
theorem toNat_pred {x : BitVec w} (h : x ≠ 0) : (x - 1).toNat + 1 = x.toNat := by
  have hpos : x.toNat ≠ 0 := fun h0 => h (BitVec.eq_of_toNat_eq h0)
  have hw : 0 < w := by
    rw [Nat.pos_iff_ne_zero]
    rintro rfl
    exact h (BitVec.eq_nil x)
  have hone : (1 : BitVec w).toNat = 1 := BitVec.toNat_one hw
  have hle : 1 ≤ x := by
    rw [BitVec.le_def, hone]
    omega
  rw [BitVec.toNat_sub_of_le hle, hone]
  omega

/-! ## fields -/

/-- The mask of the `n` bits from `off` on. -/
def mask (w off n : Nat) : BitVec w := ((BitVec.allOnes n).setWidth w) <<< off

theorem getElem_mask (off n i : Nat) (hi : i < w) :
    (mask w off n)[i] = (decide (off ≤ i) && decide (i < off + n)) := by
  by_cases h : off ≤ i
  · by_cases hn : i < off + n
    · simp [mask, h, hn, show i - off < n by omega]
    · simp [mask, h, hn, show ¬i - off < n by omega]
  · simp [mask, h]

/-- Write the low `n` bits of `x` at bit `off`. -/
def put (off n : Nat) (d : BitVec w) (x : BitVec v) : BitVec w :=
  (d &&& ~~~mask w off n) ||| ((low n x).setWidth w <<< off)

theorem getElem_put (off n : Nat) (d : BitVec w) (x : BitVec v) (i : Nat) (hi : i < w) :
    (put off n d x)[i] = if off ≤ i ∧ i < off + n then x.getLsbD (i - off) else d[i] := by
  by_cases h : off ≤ i
  · by_cases hn : i < off + n
    · simp [put, getElem_mask, h, hn, show i - off < n by omega]
    · simp [put, getElem_mask, h, hn, show ¬i - off < n by omega]
  · simp [put, getElem_mask, h, show i < off by omega]

theorem getLsbD_put (off n : Nat) (d : BitVec w) (x : BitVec v) (i : Nat) (hi : i < w) :
    (put off n d x).getLsbD i =
      if off ≤ i ∧ i < off + n then x.getLsbD (i - off) else d.getLsbD i := by
  rw [BitVec.getLsbD_eq_getElem hi, BitVec.getLsbD_eq_getElem hi, getElem_put]

/-- A field written at the bottom is what the low bits then show. -/
theorem low_put (n : Nat) (d : BitVec w) (x : BitVec v) :
    low n (put 0 n d x) = (low n x).setWidth w := by
  apply eq_of_bits
  intro i hi
  by_cases hn : i < n
  · simp [getElem_put, hi, hn]
  · simp [hn]

/-- Writing a field at the bottom and reading a narrower one back. -/
theorem setWidth_put {m n : Nat} (h : m ≤ n) (hw : m ≤ w) (d : BitVec w) (x : BitVec v) :
    (put 0 n d x).setWidth m = x.setWidth m := by
  apply eq_of_bits
  intro i hi
  have hiw : i < w := by omega
  simp [hi, getLsbD_put 0 n d x i hiw, Nat.lt_of_lt_of_le hi h]

/-- Writing a field and reading it back. -/
theorem shiftRight_put_self {off n : Nat} (hw : off + n ≤ w) (d : BitVec w) (x : BitVec v) :
    (put off n d x >>> off).setWidth n = x.setWidth n := by
  apply eq_of_bits
  intro i hi
  have hiw : off + i < w := by omega
  simp [hi, getLsbD_put off n d x (off + i) hiw]

/-- Writing a field and reading another one. -/
theorem shiftRight_put_of_disjoint {off n off' n' : Nat} (h : off' + n' ≤ off ∨ off + n ≤ off')
    (hw : off' + n' ≤ w) (d : BitVec w) (x : BitVec v) :
    (put off n d x >>> off').setWidth n' = (d >>> off').setWidth n' := by
  apply eq_of_bits
  intro i hi
  have hiw : off' + i < w := by omega
  have hout : ¬(off ≤ off' + i ∧ off' + i < off + n) := by omega
  simp [hi, getLsbD_put off n d x (off' + i) hiw, hout]

/-- Narrowing keeps a field. -/
theorem setWidth_put_narrow {m : Nat} (hw : m ≤ w) (off n : Nat) (d : BitVec w) (x : BitVec v) :
    (put off n d x).setWidth m = put off n (d.setWidth m) x := by
  apply eq_of_bits
  intro i hi
  have hiw : i < w := Nat.lt_of_lt_of_le hi hw
  simp [getElem_put, getLsbD_put off n d x i hiw, hi]

/-- What the low bits show of a wider field. -/
theorem low_put_of_le {m n : Nat} (h : m ≤ n) (d : BitVec w) (x : BitVec v) :
    low m (put 0 n d x) = low m (x.setWidth w) := by
  apply eq_of_bits
  intro i hi
  rw [getLsbD_low, getLsbD_low, getLsbD_put 0 n d x i hi]
  by_cases hm : i < m
  · simp [hm, hi, Nat.lt_of_lt_of_le hm h]
  · simp [hm]

/-- A field at the bottom of nothing. -/
theorem put_zero (n : Nat) (x : BitVec w) : put 0 n (0 : BitVec w) x = low n x := by
  apply eq_of_bits
  intro i hi
  rw [getLsbD_put 0 n 0 x i hi]
  by_cases h : i < n
  · simp [h]
  · simp [h]

/-- Writing back what a field shows. -/
theorem put_self (n : Nat) (d : BitVec w) : put 0 n d (d.setWidth n) = d := by
  apply eq_of_bits
  intro i hi
  rw [getLsbD_put 0 n d _ i hi]
  by_cases h : i < n
  · simp [h]
  · simp [h]

/-- A field as wide as the vector replaces it. -/
theorem put_all {n : Nat} (h : w ≤ n) (d : BitVec w) (x : BitVec v) :
    put 0 n d x = x.setWidth w := by
  apply eq_of_bits
  intro i hi
  simp [getElem_put, hi, Nat.lt_of_lt_of_le hi h]

/-! ## bytes -/

/-- The first `n` bytes, little-endian. -/
def toBytes (n : Nat) (d : BitVec w) : List (BitVec 8) :=
  (List.range n).map fun i => (d >>> (8 * i)).setWidth 8

/-- The vector with these bytes, little-endian. -/
def ofBytes : List (BitVec 8) → BitVec w
  | [] => 0
  | b :: bs => b.setWidth w ||| (ofBytes bs <<< 8)

@[simp] theorem length_toBytes (n : Nat) (d : BitVec w) : (toBytes n d).length = n := by
  simp [toBytes]

theorem getElem_toBytes {n : Nat} {d : BitVec w} {i : Nat} (h : i < (toBytes n d).length) :
    (toBytes n d)[i] = (d >>> (8 * i)).setWidth 8 := by
  simp [toBytes]

/-- The first bytes do not depend on what is behind them. -/
theorem toBytes_put (n : Nat) (hn : 8 * n ≤ w) (d : BitVec w) (x : BitVec v) :
    toBytes n (put 0 (8 * n) d x) = toBytes n x := by
  apply List.ext_getElem
  · simp
  · intro i h₁ h₂
    rw [length_toBytes] at h₁
    rw [getElem_toBytes, getElem_toBytes]
    apply eq_of_bits
    intro j hj
    have hlt : 8 * i + j < 8 * n := by omega
    simp [hj, getLsbD_put 0 (8 * n) d x (8 * i + j) (by omega), hlt]

theorem getLsbD_ofBytes (bs : List (BitVec 8)) (i : Nat) (hi : i < w) :
    (ofBytes bs : BitVec w).getLsbD i = (bs.getD (i / 8) 0).getLsbD (i % 8) := by
  induction bs generalizing i with
  | nil => simp [ofBytes]
  | cons b bs ih =>
      by_cases h8 : i < 8
      · have hd : i / 8 = 0 := by omega
        have hm : i % 8 = i := by omega
        simp [ofBytes, hi, h8, hd, hm]
      · have hd : i / 8 = (i - 8) / 8 + 1 := by omega
        have hm : (i - 8) % 8 = i % 8 := by omega
        have hb : b.getLsbD i = false := BitVec.getLsbD_of_ge b i (by omega)
        have ih' := ih (i - 8) (by omega)
        rw [hm] at ih'
        simp only [ofBytes, BitVec.getLsbD_or, BitVec.getLsbD_setWidth, BitVec.getLsbD_shiftLeft,
          hi, h8, hb, hd, ih', List.getD_cons_succ, decide_true, decide_false, Bool.and_false,
          Bool.false_or, Bool.true_and, Bool.not_false]

/-- Bytes survive the trip through a vector wide enough to hold them. -/
theorem toBytes_ofBytes {bs : List (BitVec 8)} (h : 8 * bs.length ≤ w) :
    toBytes bs.length (ofBytes bs : BitVec w) = bs := by
  apply List.ext_getElem
  · simp
  · intro i h₁ h₂
    rw [getElem_toBytes]
    apply eq_of_bits
    intro j hj
    have hw : 8 * i + j < w := by omega
    have hd : (8 * i + j) / 8 = i := by omega
    have hm : (8 * i + j) % 8 = j := by omega
    simp [hj, getLsbD_ofBytes bs _ hw, hd, hm, List.getElem?_eq_getElem h₂]

/-- The low bytes of a vector, read back. -/
theorem ofBytes_toBytes (n : Nat) (d : BitVec w) :
    (ofBytes (toBytes n d) : BitVec w) = low (8 * n) d := by
  apply eq_of_bits
  intro i hi
  rw [getLsbD_ofBytes _ i hi]
  by_cases h : i / 8 < n
  · have hlt : i < 8 * n := by omega
    have hm : 8 * (i / 8) + i % 8 = i := by omega
    have hm8 : i % 8 < 8 := by omega
    simp [toBytes, h, hlt, hm8, hm]
  · have hlt : ¬i < 8 * n := by omega
    simp [toBytes, h, hlt]

end Bits
