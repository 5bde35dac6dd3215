import Mathlib

/-!
# Python list subscripts

Python's `l[i] = a`, `l[i:j]` and `l[i:j] = ys` on lists, with Python's
treatment of negative subscripts: a negative index counts from the end of the
list, an element access outside the list raises `IndexError` (`none` here), and
a slice is clamped to the list.

The last section is the loop `for b in bs: l[off] = b; off += 1`, which keeps
the stores it made when a later one raises.
-/

namespace PyList

variable {α : Type*}

/-! ## element access -/

/-- The position a Python index refers to, `none` for an `IndexError`. -/
def index? (len : Nat) (i : Int) : Option Nat :=
  if 0 ≤ i then
    if i < len then some i.toNat else none
  else if -(len : Int) ≤ i then some (i + len).toNat else none

/-- `l[i] = a`. -/
def setItem (l : List α) (i : Int) (a : α) : Option (List α) :=
  (index? l.length i).map (l.set · a)

theorem index?_of_nonneg (h : i < len) : index? len (i : Nat) = some i := by
  simp [index?, h]

theorem setItem_of_nonneg {l : List α} {i : Nat} (h : i < l.length) (a : α) :
    setItem l i a = some (l.set i a) := by
  simp [setItem, index?_of_nonneg h]

/-! ## slices -/

/-- A slice bound, clamped to `0 … len`. -/
def clamp (len : Nat) (i : Int) : Nat :=
  if 0 ≤ i then min i.toNat len else (i + len).toNat

/-- `l[i:j]`. -/
def slice (l : List α) (i j : Int) : List α :=
  (l.take (clamp l.length j)).drop (clamp l.length i)

/-- `l[i:j] = ys`. -/
def setSlice (l : List α) (i j : Int) (ys : List α) : List α :=
  l.take (clamp l.length i) ++ ys ++ l.drop (max (clamp l.length i) (clamp l.length j))

@[simp] theorem clamp_ofNat (len i : Nat) : clamp len (i : Int) = min i len := by
  simp [clamp]

theorem clamp_add {len i n : Nat} (h : i + n ≤ len) : clamp len ((i : Int) + n) = i + n := by
  rw [show (i : Int) + n = ((i + n : Nat) : Int) by omega, clamp_ofNat]
  omega

/-- A slice inside the list is the run of elements it names. -/
theorem slice_of_le {l : List α} {i n : Nat} (h : i + n ≤ l.length) :
    slice l i ((i : Int) + n) = (l.drop i).take n := by
  have hi : clamp l.length (i : Int) = i := by rw [clamp_ofNat]; omega
  rw [slice, clamp_add h, hi, List.drop_take]
  congr 1
  omega

theorem length_slice_of_le {l : List α} {i n : Nat} (h : i + n ≤ l.length) :
    (slice l i ((i : Int) + n)).length = n := by
  rw [slice_of_le h, List.length_take, List.length_drop]
  omega

theorem getElem?_slice_of_le {l : List α} {i n k : Nat} (h : i + n ≤ l.length) (hk : k < n) :
    (slice l i ((i : Int) + n))[k]? = l[i + k]? := by
  rw [slice_of_le h, List.getElem?_take_of_lt hk, List.getElem?_drop]

/-- Replacing a slice by as many elements keeps the length. -/
theorem length_setSlice {l ys : List α} {i n : Nat} (h : i + n ≤ l.length) (hy : ys.length = n) :
    (setSlice l i ((i : Int) + n) ys).length = l.length := by
  rw [setSlice, clamp_add h, clamp_ofNat]
  simp only [List.length_append, List.length_take, List.length_drop, hy]
  omega

/-- Assigning a slice to itself changes nothing. -/
theorem setSlice_slice {l : List α} {i n : Nat} (h : i + n ≤ l.length) :
    setSlice l i ((i : Int) + n) (slice l i ((i : Int) + n)) = l := by
  have hi : clamp l.length (i : Int) = i := by rw [clamp_ofNat]; omega
  rw [setSlice, slice_of_le h, clamp_add h, hi, show max i (i + n) = i + n by omega,
    ← List.drop_drop, List.append_assoc, List.take_append_drop, List.take_append_drop]

theorem getElem?_setSlice {l ys : List α} {i n : Nat} (h : i + n ≤ l.length)
    (hy : ys.length = n) (k : Nat) :
    (setSlice l i ((i : Int) + n) ys)[k]? =
      if i ≤ k ∧ k < i + n then ys[k - i]? else l[k]? := by
  have hi : clamp l.length (i : Int) = i := by rw [clamp_ofNat]; omega
  have hlen : (l.take i).length = i := by rw [List.length_take]; omega
  rw [setSlice, clamp_add h, hi, show max i (i + n) = i + n by omega]
  by_cases h1 : k < i
  · rw [List.append_assoc, List.getElem?_append_left (by omega),
      List.getElem?_take_of_lt h1, if_neg (by omega)]
  · by_cases h2 : k < i + n
    · rw [List.append_assoc, List.getElem?_append_right (by omega), hlen,
        List.getElem?_append_left (by omega), if_pos (by omega)]
    · rw [List.getElem?_append_right (by rw [List.length_append]; omega), List.getElem?_drop,
        if_neg (by omega)]
      congr 1
      rw [List.length_append]
      omega

/-! ## storing a run of elements -/

/-- `for b in bs: l[off] = b; off += 1`.  The flag tells whether the loop
finished; when a store raises, the ones before it stay. -/
def writeFrom (l : List α) (off : Int) : List α → List α × Bool
  | [] => (l, true)
  | b :: bs => match setItem l off b with
      | some l' => writeFrom l' (off + 1) bs
      | none => (l, false)

@[simp] theorem length_writeFrom (l : List α) (off : Int) (bs : List α) :
    (writeFrom l off bs).1.length = l.length := by
  induction bs generalizing l off with
  | nil => rfl
  | cons b bs ih =>
      rw [writeFrom]
      cases h : setItem l off b with
      | none => rfl
      | some l' =>
          obtain ⟨k, -, rfl⟩ := Option.map_eq_some_iff.mp h
          rw [ih, List.length_set]

/-- Whatever a run stores, it stores its own elements. -/
theorem mem_writeFrom {l bs : List α} {off : Int} {x : α} (h : x ∈ (writeFrom l off bs).1) :
    x ∈ l ∨ x ∈ bs := by
  induction bs generalizing l off with
  | nil => exact Or.inl h
  | cons b bs ih =>
      rw [writeFrom] at h
      cases hset : setItem l off b with
      | none =>
          rw [hset] at h
          exact Or.inl h
      | some l' =>
          obtain ⟨k, -, rfl⟩ := Option.map_eq_some_iff.mp hset
          rw [hset] at h
          rcases ih h with hl | hb
          · rcases List.mem_or_eq_of_mem_set hl with hx | rfl
            · exact Or.inl hx
            · exact Or.inr List.mem_cons_self
          · exact Or.inr (List.mem_cons_of_mem _ hb)

/-- A run that fits in the list is stored completely. -/
theorem writeFrom_ok {l bs : List α} {off : Nat} (h : off + bs.length ≤ l.length) :
    (writeFrom l off bs).2 = true := by
  induction bs generalizing l off with
  | nil => rfl
  | cons b bs ih =>
      rw [List.length_cons] at h
      rw [writeFrom, setItem_of_nonneg (by omega)]
      have := @ih (l.set off b) (off + 1) (by rw [List.length_set]; omega)
      simpa using this

/-- What a run that starts inside the list leaves behind. -/
theorem getElem?_writeFrom {l bs : List α} {off : Nat} (h : off + bs.length ≤ l.length)
    (k : Nat) :
    (writeFrom l off bs).1[k]? =
      if off ≤ k ∧ k < off + bs.length then bs[k - off]? else l[k]? := by
  induction bs generalizing l off with
  | nil => rw [if_neg (by simp)]; rfl
  | cons b bs ih =>
      rw [List.length_cons] at h
      have hset : off < l.length := by omega
      have step := @ih (l.set off b) (off + 1) (by rw [List.length_set]; omega)
      rw [writeFrom, setItem_of_nonneg hset]
      rw [show ((off + 1 : Nat) : Int) = (off : Int) + 1 by omega] at step
      simp only [step, List.length_cons]
      by_cases h1 : k = off
      · subst h1
        rw [if_neg (by omega), if_pos (by omega), List.getElem?_set_self hset]
        simp
      · rw [List.getElem?_set_ne (by omega)]
        by_cases h2 : off + 1 ≤ k ∧ k < off + 1 + bs.length
        · rw [if_pos h2, if_pos (by omega), show k - off = (k - (off + 1)) + 1 by omega,
            List.getElem?_cons_succ]
        · rw [if_neg h2, if_neg (by omega)]

end PyList
