import Microx.Process

/-!
# Microx.CallbackValues

What `PythonExecutor::ReadValue` makes of the value a method returns.

A byte string of the wanted length is copied and the bytes behind it are
cleared.  An integer is written to all 64 bytes, so one that does not fit the
wanted bytes is accepted and leaves its excess behind them, unless it does not
fit 64 bytes either (`readValue_exact_iff`).
-/

namespace Microx

/-! ## little-endian values -/

@[simp] theorem fromBytes_cons (b : Byte) (bs : List Byte) :
    fromBytes (b :: bs) = b.toNat + 256 * fromBytes bs := rfl

theorem fromBytes_lt (bs : List Byte) : fromBytes bs < 256 ^ bs.length := by
  induction bs with
  | nil => simp [fromBytes]
  | cons b bs ih =>
      have hb : b.toNat < 256 := b.isLt
      rw [fromBytes_cons, List.length_cons, Nat.pow_succ]
      omega

theorem pow_256 (n : Nat) : 256 ^ n = 2 ^ (8 * n) := by
  rw [Nat.pow_mul]

/-- The number that bytes spell is that of the vector with these bytes. -/
theorem toNat_ofBytes {w : Nat} {bs : List Byte} (h : 8 * bs.length ≤ w) :
    (Bits.ofBytes bs : BitVec w).toNat = fromBytes bs := by
  induction bs with
  | nil => simp [Bits.ofBytes, fromBytes]
  | cons b bs ih =>
      rw [List.length_cons] at h
      have hb : b.toNat < 256 := b.isLt
      have hlt := fromBytes_lt bs
      have hpow : 256 ^ bs.length * 256 ≤ 2 ^ w := by
        rw [← Nat.pow_succ, pow_256]
        exact Nat.pow_le_pow_right (by decide) h
      rw [Bits.ofBytes, BitVec.toNat_or, BitVec.toNat_shiftLeft, BitVec.toNat_setWidth,
        ih (by omega), fromBytes_cons, Nat.mod_eq_of_lt (by omega), Nat.shiftLeft_eq,
        Nat.mod_eq_of_lt (by omega), Nat.or_comm, ← Nat.shiftLeft_eq,
        ← Nat.shiftLeft_add_eq_or_of_lt hb, Nat.shiftLeft_eq]
      omega

/-- The bytes of a vector spell its low part. -/
theorem fromBytes_toBytes {w : Nat} {n : Nat} (h : 8 * n ≤ w) (d : BitVec w) :
    fromBytes (Bits.toBytes n d) = d.toNat % 256 ^ n := by
  have hlen : 8 * (Bits.toBytes n d).length ≤ w := by simpa using h
  have hbytes : (Bits.ofBytes (Bits.toBytes n d) : BitVec w).toNat = _ := toNat_ofBytes hlen
  rw [← hbytes, Bits.ofBytes_toBytes, Bits.toNat_low, pow_256]

/-! ## `ReadValue` -/

/-- These bytes are the little-endian encoding of the value. -/
def PyValue.EncodedBy (bs : List Byte) : PyValue → Prop
  | .bytes bs' => bs' = bs
  | .int i => i = fromBytes bs
  | _ => False

/-- The value is a `bytes` object or a non-negative integer. -/
def PyValue.IsNumeral : PyValue → Prop
  | .bytes _ => True
  | .int i => 0 ≤ i
  | _ => False

/-- The value is an integer that does not fit `n` bytes, but 64. -/
def PyValue.Overlong (n : Nat) : PyValue → Prop
  | .int i => 256 ^ n ≤ i ∧ i < 2 ^ 512
  | _ => False

/-- The first `n` bytes of the data are the little-endian encoding of the value, and every later
byte is zero. -/
def HoldsExactly (n : Nat) (res : PyValue) (val : Data) : Prop :=
  res.EncodedBy (Bits.toBytes n val) ∧ Bits.low (8 * n) val = val

namespace Binding

variable {ρ : Type}

theorem numBytes_of_le {numBits : Nat} (h : numBits ≤ 512) :
    numBytes numBits = (numBits + 7) / 8 := by
  unfold numBytes
  omega

theorem readValue_bytes {b : Binding ρ} (hb : b.hasError = false) {numBits : Nat} {bs : List Byte}
    (h : bs.length = numBytes numBits) (val : Data) (usage : Usage) :
    b.readValue (.bytes bs) numBits val usage = (true, Bits.ofBytes bs, b) := by
  simp [readValue, hb, h]

/-- An integer that is not too large is converted. -/
theorem readValue_int {n : Nat} (h : (n : Int) < 2 ^ 512) {b : Binding ρ}
    (hb : b.hasError = false) (numBits : Nat) (val : Data) (usage : Usage) :
    b.readValue (.int n) numBits val usage = (true, BitVec.ofInt 512 n, b) := by
  unfold readValue
  simp only [hb, Bool.false_eq_true, if_false]
  rw [if_neg (by omega), if_pos h]

/-- An integer that is converted keeps its value. -/
theorem value_readValue_int {i : Int} {numBits : Nat} {val : Data} {usage : Usage} {b : Binding ρ}
    (h : (b.readValue (.int i) numBits val usage).1 = true) :
    (b.readValue (.int i) numBits val usage).2.1 = BitVec.ofInt 512 i := by
  unfold readValue at h ⊢
  dsimp only at h ⊢
  split_ifs at h ⊢
  rfl

/-- An integer that does not fit 64 bytes is rejected. -/
theorem readValue_int_of_le {n : Nat} (h : (2 : Int) ^ 512 ≤ n) {b : Binding ρ}
    (hb : b.hasError = false) (numBits : Nat) (val : Data) (usage : Usage) :
    (b.readValue (.int n) numBits val usage).1 = false := by
  unfold readValue
  simp only [hb, Bool.false_eq_true, if_false]
  rw [if_neg (by omega), if_neg (not_lt.mpr h)]

/-- Data that a byte string of the wanted length fills. -/
theorem holdsExactly_ofBytes {n : Nat} (hn : n ≤ 64) {bs : List Byte} (h : bs.length = n) :
    HoldsExactly n (.bytes bs) (Bits.ofBytes bs) := by
  subst h
  have hto : Bits.toBytes bs.length (Bits.ofBytes bs : Data) = bs :=
    Bits.toBytes_ofBytes (by omega)
  refine ⟨hto.symm, ?_⟩
  rw [← Bits.ofBytes_toBytes, hto]

/-- Data written as a number holds it exactly if and only if it fits. -/
theorem holdsExactly_ofNat_iff {n : Nat} (hn : n ≤ 64) {i : Nat} (hi : i < 2 ^ 512) :
    HoldsExactly n (.int i) (BitVec.ofNat 512 i) ↔ i < 256 ^ n := by
  have hto : fromBytes (Bits.toBytes n (BitVec.ofNat 512 i)) = i % 256 ^ n := by
    rw [fromBytes_toBytes (Nat.mul_le_mul_left 8 hn), BitVec.toNat_ofNat, Nat.mod_eq_of_lt hi]
  rw [HoldsExactly, PyValue.EncodedBy, hto, Int.natCast_inj]
  constructor
  · rintro ⟨hmod, -⟩
    rw [hmod]
    exact Nat.mod_lt _ (Nat.pow_pos (by decide))
  · intro h
    refine ⟨(Nat.mod_eq_of_lt h).symm, ?_⟩
    apply BitVec.eq_of_toNat_eq
    rw [Bits.toNat_low, BitVec.toNat_ofNat, Nat.mod_eq_of_lt hi, ← pow_256, Nat.mod_eq_of_lt h]

/-- **Results decode exactly** unless an integer is overlong. -/
theorem readValue_exact_iff {numBits : Nat} (hpos : 1 ≤ numBits) (hle : numBits ≤ 512)
    {res : PyValue} (hres : res.IsNumeral) (val : Data) (usage : Usage) (b : Binding ρ) :
    ((b.readValue res numBits val usage).1 = true →
      HoldsExactly ((numBits + 7) / 8) res (b.readValue res numBits val usage).2.1) ↔
    b.hasError = true ∨ ¬res.Overlong ((numBits + 7) / 8) := by
  have hn : (numBits + 7) / 8 ≤ 64 := by omega
  cases hb : b.hasError with
  | true => simp [readValue, hb]
  | false =>
      cases res with
      | bytes bs =>
          by_cases hlen : bs.length = numBytes numBits
          · rw [readValue_bytes hb hlen]
            rw [numBytes_of_le hle] at hlen
            simp [PyValue.Overlong, holdsExactly_ofBytes hn hlen]
          · simp [readValue, hb, Ne.symm hlen, PyValue.Overlong]
      | int i =>
          obtain ⟨k, rfl⟩ := Int.eq_ofNat_of_zero_le hres
          by_cases hk : (k : Int) < 2 ^ 512
          · have hfits : k < 2 ^ 512 := by exact_mod_cast hk
            simp only [readValue_int hk hb, BitVec.ofInt_natCast, holdsExactly_ofNat_iff hn hfits,
              PyValue.Overlong, hk, and_true, true_implies, Bool.false_eq_true, false_or, not_le]
            exact_mod_cast Iff.rfl
          · simp only [readValue_int_of_le (not_lt.mp hk) hb, PyValue.Overlong, hk, and_false,
              not_false_eq_true, or_true, Bool.false_eq_true, false_implies]
      | _ => exact hres.elim

/-- The callback for `EAX` answered a value. -/
def eaxAnswered (res : PyValue) : Bool × Data × Binding Unit :=
  (start ()).readValue res 32 0 (.readRegister (.reg (.gpr32 .rax)))

/-- Four bytes and the largest integer of four bytes are exact, and the next integer is not. -/
theorem readValue_exact_iff_eax :
    (∀ res ∈ [.bytes [1, 2, 3, 4], .int 0xFFFFFFFF],
      (eaxAnswered res).1 = true ∧ HoldsExactly 4 res (eaxAnswered res).2.1) ∧
      ¬((eaxAnswered (.int 0x100000000)).1 = true →
        HoldsExactly 4 (.int 0x100000000) (eaxAnswered (.int 0x100000000)).2.1) := by
  have hexact (res : PyValue) (hres : res.IsNumeral) :
      ((eaxAnswered res).1 = true → HoldsExactly 4 res (eaxAnswered res).2.1) ↔
        (start ()).hasError = true ∨ ¬res.Overlong 4 :=
    readValue_exact_iff (show 1 ≤ 32 by decide) (by decide) hres 0
      (.readRegister (.reg (.gpr32 .rax))) (start ())
  have hbytes : (eaxAnswered (.bytes [1, 2, 3, 4])).1 = true := by decide +kernel
  have hint : (eaxAnswered (.int 0xFFFFFFFF)).1 = true := by decide +kernel
  have hover : (PyValue.int 0x100000000).Overlong 4 := by
    have hlt : (0x100000000 : Int) < 2 ^ 512 := by decide +kernel
    exact ⟨by decide, hlt⟩
  refine ⟨fun res hres => ?_, fun h => ?_⟩
  · obtain rfl | rfl : res = .bytes [1, 2, 3, 4] ∨ res = .int 0xFFFFFFFF := by simpa using hres
    · exact ⟨hbytes, (hexact (.bytes [1, 2, 3, 4]) trivial).mpr (.inr fun h => h.elim) hbytes⟩
    · have hle : (0 : Int) ≤ 0xFFFFFFFF := by decide
      refine ⟨hint, (hexact (.int 0xFFFFFFFF) hle).mpr (.inr fun h => ?_) hint⟩
      exact absurd h.1 (by decide)
  · have hle : (0 : Int) ≤ 0x100000000 := by decide
    exact ((hexact (.int 0x100000000) hle).mp h).elim (fun h => by cases h) fun hnot => hnot hover

/-- **An overlong integer**: `2 ^ 32`, for a register of 32 bits, is accepted, and its highest bit
stands in the fifth byte. -/
theorem readValue_inexact :
    ¬∀ numBits, 1 ≤ numBits → numBits ≤ 512 → ∀ (res : PyValue), res.IsNumeral →
      ∀ (val : Data) (usage : Usage) (b : Binding Unit),
        (b.readValue res numBits val usage).1 = true →
          HoldsExactly ((numBits + 7) / 8) res (b.readValue res numBits val usage).2.1 := by
  intro h
  have hlt : 2 ^ 32 < 2 ^ 512 := Nat.pow_lt_pow_right (by decide) (by decide)
  have hfits : ((2 ^ 32 : Nat) : Int) < 2 ^ 512 := by exact_mod_cast hlt
  have hread := h 32 (by decide) (by decide) (.int (2 ^ 32 : Nat)) (Int.natCast_nonneg _) 0
    (.readRegister (.reg (.gpr32 .rax))) (start ())
  rw [readValue_int hfits rfl, BitVec.ofInt_natCast] at hread
  exact absurd ((holdsExactly_ofNat_iff (by decide) hlt).mp (hread rfl)) (by decide)

end Binding

end Microx
