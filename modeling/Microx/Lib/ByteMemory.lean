import Microx.Lib.Bits

/-!
# Flat byte memories

A flat memory of `2 ^ w` bytes, read and written as little-endian bit vectors.
Addresses wrap around, so a range is given by its distance from its start: `a`
is in the range of `n` bytes at `b` when `(a - b).toNat < n`.
-/

namespace ByteMemory

variable {w v : Nat}

/-- The `n` bytes at an address. -/
def load (mem : BitVec w → BitVec 8) (addr : BitVec w) (n : Nat) : BitVec v :=
  Bits.ofBytes ((List.range n).map fun i => mem (addr + BitVec.ofNat w i))

/-- Replace the `n` bytes at an address by the lowest bytes of a vector. -/
def store (mem : BitVec w → BitVec 8) (addr : BitVec w) (n : Nat) (d : BitVec v) :
    BitVec w → BitVec 8 := fun a =>
  if (a - addr).toNat < n then (d >>> (8 * (a - addr).toNat)).setWidth 8 else mem a

variable {mem mem' : BitVec w → BitVec 8} {addr : BitVec w} {n : Nat}

theorem getLsbD_load (i : Nat) (hi : i < v) :
    (load mem addr n : BitVec v).getLsbD i =
      (decide (i / 8 < n) && (mem (addr + BitVec.ofNat w (i / 8))).getLsbD (i % 8)) := by
  rw [load, Bits.getLsbD_ofBytes _ i hi]
  by_cases h : i / 8 < n
  · simp [h]
  · simp [h]

/-- A load sees only the bytes of its range. -/
theorem load_congr
    (h : ∀ i < n, mem (addr + BitVec.ofNat w i) = mem' (addr + BitVec.ofNat w i)) :
    (load mem addr n : BitVec v) = load mem' addr n := by
  apply Bits.eq_of_bits
  intro i hi
  rw [getLsbD_load i hi, getLsbD_load i hi]
  by_cases hn : i / 8 < n
  · rw [h _ hn]
  · simp [hn]

/-- The bytes of a loaded vector. -/
theorem toBytes_load (h : 8 * n ≤ v) :
    Bits.toBytes n (load mem addr n : BitVec v) =
      (List.range n).map fun i => mem (addr + BitVec.ofNat w i) := by
  have hlen : ((List.range n).map fun i => mem (addr + BitVec.ofNat w i)).length = n := by simp
  have hfit : 8 * ((List.range n).map fun i => mem (addr + BitVec.ofNat w i)).length ≤ v := by
    rw [hlen]
    exact h
  have hbytes := Bits.toBytes_ofBytes hfit
  rwa [hlen] at hbytes

theorem low_load : Bits.low (8 * n) (load mem addr n : BitVec v) = load mem addr n := by
  apply Bits.eq_of_bits
  intro i hi
  rw [Bits.getLsbD_low, getLsbD_load i hi]
  by_cases hn : i / 8 < n
  · simp [hn, show i < 8 * n by omega]
  · simp [hn]

/-- What is stored may be cut to the bytes of the range. -/
theorem store_eq_of_bits {u : Nat} {d : BitVec v} {e : BitVec u}
    (h : ∀ i < 8 * n, d.getLsbD i = e.getLsbD i) : store mem addr n d = store mem addr n e := by
  funext a
  unfold store
  split
  · apply Bits.eq_of_bits
    intro j hj
    simp only [BitVec.getLsbD_setWidth, BitVec.getLsbD_ushiftRight, hj, decide_true, Bool.true_and]
    exact h _ (by omega)
  · rfl

/-- A load into a narrower vector. -/
theorem setWidth_load {u : Nat} (h : u ≤ v) :
    (load mem addr n : BitVec v).setWidth u = load mem addr n := by
  apply Bits.eq_of_bits
  intro i hi
  have hiv : i < v := Nat.lt_of_lt_of_le hi h
  rw [BitVec.getLsbD_setWidth, getLsbD_load i hiv, getLsbD_load i hi]
  simp [hi]

/-- The bytes of the range, one by one. -/
theorem store_add (hn : n ≤ 2 ^ w) (d : BitVec v) {i : Nat} (hi : i < n) :
    store mem addr n d (addr + BitVec.ofNat w i) = (d >>> (8 * i)).setWidth 8 := by
  have hoff : (addr + BitVec.ofNat w i - addr).toNat = i := by
    rw [show addr + BitVec.ofNat w i - addr = BitVec.ofNat w i by ring,
      BitVec.toNat_ofNat, Nat.mod_eq_of_lt (Nat.lt_of_lt_of_le hi hn)]
  unfold store
  rw [hoff, if_pos hi]

/-- A stored vector reads back. -/
theorem load_store (hn : n ≤ 2 ^ w) (d : BitVec v) :
    load (store mem addr n d) addr n = Bits.low (8 * n) d := by
  apply Bits.eq_of_bits
  intro i hi
  rw [getLsbD_load i hi, Bits.getLsbD_low]
  by_cases hlt : i / 8 < n
  · have hdiv : 8 * (i / 8) + i % 8 = i := by omega
    have hmod : i % 8 < 8 := Nat.mod_lt _ (by decide)
    rw [store_add hn d hlt]
    simp [hlt, hdiv, hmod, show i < 8 * n by omega]
  · simp [hlt, show ¬i < 8 * n by omega]

/-- Writing back what was read changes nothing. -/
theorem store_load (h : 8 * n ≤ v) : store mem addr n (load mem addr n : BitVec v) = mem := by
  funext a
  unfold store
  split
  case isTrue hlt =>
    apply Bits.eq_of_bits
    intro j hj
    have hdiv : (8 * (a - addr).toNat + j) / 8 = (a - addr).toNat := by omega
    have hmod : (8 * (a - addr).toNat + j) % 8 = j := by omega
    have ha : addr + BitVec.ofNat w (a - addr).toNat = a := by
      rw [BitVec.ofNat_toNat, BitVec.setWidth_eq]
      ring
    simp only [BitVec.getLsbD_setWidth, BitVec.getLsbD_ushiftRight, hj, decide_true, Bool.true_and]
    rw [getLsbD_load _ (by omega), hdiv, hmod, ha, decide_eq_true hlt, Bool.true_and]
  case isFalse => rfl

/-- A byte outside a stored range. -/
theorem store_of_not_lt {a : BitVec w} (d : BitVec v) (h : ¬(a - addr).toNat < n) :
    store mem addr n d a = mem a := if_neg h

/-! ## bit strings -/

/-- Bit `k` of the bit string at an address; the string goes on to both sides of it. -/
def bitAt (mem : BitVec w → BitVec 8) (addr : BitVec w) (k : Int) : Bool :=
  (mem (addr + BitVec.ofInt w (k / 8))).getLsbD (k % 8).toNat

/-- In cells of `n` bytes, bit `k` is bit `k mod 8 n` of the cell that the floor of `k / 8 n`
counts off. -/
theorem getLsbD_load_cell (hn : 0 < n) (hv : 8 * n ≤ v) (k : Int) :
    (load mem (addr + BitVec.ofInt w (n * (k / (8 * n)))) n : BitVec v).getLsbD
      (k % (8 * n)).toNat = bitAt mem addr k := by
  have hpos : (0 : Int) < 8 * n := by omega
  have hnonneg := Int.emod_nonneg k (Int.ne_of_gt hpos)
  have hlt := Int.emod_lt_of_pos k hpos
  have hbyte : (n : Int) * (k / (8 * n)) + ((k % (8 * n)).toNat / 8 : Nat) = k / 8 := by
    have hdiv := Int.mul_ediv_add_emod k (8 * n)
    have hassoc : 8 * (n : Int) * (k / (8 * n)) = 8 * (n * (k / (8 * n))) := by ring
    rw [hassoc] at hdiv
    generalize (n : Int) * (k / (8 * n)) = t at *
    omega
  have hbit : (k % (8 * n)).toNat % 8 = (k % 8).toNat := by
    have hdvd := Int.emod_emod_of_dvd k (show (8 : Int) ∣ 8 * n from ⟨n, rfl⟩)
    omega
  have hin : (k % (8 * n)).toNat / 8 < n := by omega
  rw [getLsbD_load _ (by omega), bitAt, hbit, ← hbyte, BitVec.ofInt_add, BitVec.ofInt_natCast,
    BitVec.add_assoc, decide_eq_true hin, Bool.true_and]

/-! ## below a pointer -/

/-- The address is among the `k` bytes below a pointer. -/
def Below (p : BitVec w) (k : Nat) (a : BitVec w) : Prop := (p - 1 - a).toNat < k

instance (p : BitVec w) (k : Nat) (a : BitVec w) : Decidable (Below p k a) :=
  inferInstanceAs (Decidable (_ < _))

variable {k m : Nat} {p a : BitVec w}

theorem Below.mono (h : Below p k a) (hkm : k ≤ m) : Below p m a := Nat.lt_of_lt_of_le h hkm

/-- Below a lower pointer is further below. -/
theorem Below.lower (h : Below (p - BitVec.ofNat _ m) k a) : Below p (k + m) a := by
  have heq : p - 1 - a = (p - BitVec.ofNat _ m - 1 - a) + BitVec.ofNat _ m := by ring
  have hm : (BitVec.ofNat w m).toNat ≤ m := by
    rw [BitVec.toNat_ofNat]
    exact Nat.mod_le _ _
  have hadd : (p - 1 - a).toNat ≤
      (p - BitVec.ofNat _ m - 1 - a).toNat + (BitVec.ofNat w m).toNat := by
    rw [heq, BitVec.toNat_add]
    exact Nat.mod_le _ _
  unfold Below at h ⊢
  omega

/-- The bytes of a range are below its end. -/
theorem below_of_lt (h : (a - p).toNat < k) : Below (p + BitVec.ofNat _ k) k a := by
  have hd : BitVec.ofNat w (a - p).toNat = a - p := by
    rw [BitVec.ofNat_toNat, BitVec.setWidth_eq]
  have hk : BitVec.ofNat w k = BitVec.ofNat w (k - 1 - (a - p).toNat) + (a - p) + 1 := by
    rw [← hd]
    change _ = _ + BitVec.ofNat w _ + BitVec.ofNat w 1
    rw [← BitVec.ofNat_add, ← BitVec.ofNat_add, hd]
    congr 1
    omega
  have heq : p + BitVec.ofNat _ k - 1 - a = BitVec.ofNat w (k - 1 - (a - p).toNat) := by
    rw [hk]
    ring
  have hle : (BitVec.ofNat w (k - 1 - (a - p).toNat)).toNat ≤ k - 1 - (a - p).toNat := by
    rw [BitVec.toNat_ofNat]
    exact Nat.mod_le _ _
  unfold Below
  rw [heq]
  omega

/-- The bytes of a range are not below its start. -/
theorem not_below_of_lt (h : (a - p).toNat < k) (hfit : k + m ≤ 2 ^ w) : ¬Below p m a := by
  intro hb
  unfold Below at hb
  have hsum : (p - 1 - a) + (a - p) = BitVec.allOnes w := by
    rw [← BitVec.neg_one_eq_allOnes]
    change _ = -(1 : BitVec w)
    ring
  have hnat := congrArg BitVec.toNat hsum
  rw [BitVec.toNat_add_of_lt (by omega), BitVec.toNat_allOnes] at hnat
  omega

end ByteMemory
