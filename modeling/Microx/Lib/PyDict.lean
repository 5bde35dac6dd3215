import Mathlib

/-!
# Python dictionaries

A `dict` as its list of entries in insertion order: assigning to a key that is
present replaces the value where it stands, assigning to a new key appends an
entry.  (`AList` moves an assigned key to the front, so it cannot stand in for
a dictionary whose iteration order matters.)  The keys of a `PyDict` are
distinct by construction.
-/

/-- A Python dictionary, in insertion order. -/
structure PyDict (κ ν : Type*) where
  entries : List (κ × ν)
  nodup_keys : (entries.map Prod.fst).Nodup

namespace PyDict

variable {κ ν : Type*} [DecidableEq κ]

/-- `{}`. -/
def empty : PyDict κ ν := ⟨[], List.nodup_nil⟩

/-- `d.keys()`. -/
def keys (d : PyDict κ ν) : List κ := d.entries.map Prod.fst

/-- The value of the first entry with key `k`. -/
def find (k : κ) : List (κ × ν) → Option ν
  | [] => none
  | (k', v) :: l => if k' = k then some v else find k l

/-- `d.get(k, None)`. -/
def get? (d : PyDict κ ν) (k : κ) : Option ν := find k d.entries

/-- The entries after `d[k] = v`. -/
def setEntries (k : κ) (v : ν) : List (κ × ν) → List (κ × ν)
  | [] => [(k, v)]
  | (k', v') :: l => if k' = k then (k, v) :: l else (k', v') :: setEntries k v l

theorem mem_map_fst_setEntries (k : κ) (v : ν) (l : List (κ × ν)) (x : κ) :
    x ∈ (setEntries k v l).map Prod.fst ↔ x = k ∨ x ∈ l.map Prod.fst := by
  induction l with
  | nil => simp [setEntries]
  | cons e l ih =>
      obtain ⟨k', v'⟩ := e
      by_cases h : k' = k
      · simp [setEntries, h]
      · simp only [setEntries, if_neg h, List.map_cons, List.mem_cons, ih]
        tauto

theorem nodup_setEntries (k : κ) (v : ν) {l : List (κ × ν)} (h : (l.map Prod.fst).Nodup) :
    ((setEntries k v l).map Prod.fst).Nodup := by
  induction l with
  | nil => simp [setEntries]
  | cons e l ih =>
      obtain ⟨k', v'⟩ := e
      rw [List.map_cons, List.nodup_cons] at h
      by_cases hk : k' = k
      · subst hk
        rw [setEntries, if_pos rfl, List.map_cons, List.nodup_cons]
        exact h
      · rw [setEntries, if_neg hk, List.map_cons, List.nodup_cons, mem_map_fst_setEntries]
        exact ⟨by simp only [not_or]; exact ⟨hk, h.1⟩, ih h.2⟩

/-- `d[k] = v`. -/
def set (d : PyDict κ ν) (k : κ) (v : ν) : PyDict κ ν :=
  ⟨setEntries k v d.entries, nodup_setEntries k v d.nodup_keys⟩

@[simp] theorem get?_empty (k : κ) : (empty : PyDict κ ν).get? k = none := rfl

@[simp] theorem get?_set (d : PyDict κ ν) (k k' : κ) (v : ν) :
    (d.set k v).get? k' = if k' = k then some v else d.get? k' := by
  obtain ⟨l, hl⟩ := d
  simp only [set, get?]
  clear hl
  induction l with
  | nil => simp [setEntries, find, eq_comm]
  | cons e l ih =>
      obtain ⟨k₀, v₀⟩ := e
      by_cases h : k₀ = k
      · subst h
        by_cases h' : k₀ = k'
        · simp [setEntries, find, h']
        · simp [setEntries, find, h', Ne.symm h']
      · by_cases h' : k₀ = k'
        · subst h'
          simp [setEntries, find, h]
        · simp [setEntries, find, h, h', ih]

/-- `for i in range(len(vs)): d[k + i] = vs[i]`. -/
def setFrom (d : PyDict Nat ν) (k : Nat) : List ν → PyDict Nat ν
  | [] => d
  | v :: vs => (d.set k v).setFrom (k + 1) vs

theorem get?_setFrom (d : PyDict Nat ν) (k : Nat) (vs : List ν) (a : Nat) :
    (d.setFrom k vs).get? a = if k ≤ a ∧ a < k + vs.length then vs[a - k]? else d.get? a := by
  induction vs generalizing d k with
  | nil => rw [setFrom, if_neg (by simp)]
  | cons v vs ih =>
      rw [setFrom, ih, List.length_cons]
      by_cases h : a = k
      · subst h
        rw [if_neg (by omega), if_pos (by omega), get?_set, if_pos rfl, Nat.sub_self]
        rfl
      · by_cases hin : k + 1 ≤ a ∧ a < k + 1 + vs.length
        · rw [if_pos hin, if_pos (by omega), show a - k = (a - (k + 1)) + 1 by omega,
            List.getElem?_cons_succ]
        · rw [if_neg hin, if_neg (by omega), get?_set, if_neg h]

/-- The keys of a dictionary are those with a value. -/
theorem mem_keys_iff (d : PyDict κ ν) (k : κ) : k ∈ d.keys ↔ (d.get? k).isSome := by
  obtain ⟨l, hl⟩ := d
  simp only [keys, get?]
  clear hl
  induction l with
  | nil => simp [find]
  | cons e l ih =>
      obtain ⟨k', v⟩ := e
      by_cases h : k' = k
      · simp [find, h]
      · simp [find, h, Ne.symm h, ih]

/-- The entries of a dictionary are its values. -/
theorem get?_eq_some_iff (d : PyDict κ ν) {e : κ × ν} : d.get? e.1 = some e.2 ↔ e ∈ d.entries := by
  obtain ⟨l, hl⟩ := d
  simp only [get?]
  induction l with
  | nil => simp [find]
  | cons e' l ih =>
      obtain ⟨k', v'⟩ := e'
      rw [List.map_cons, List.nodup_cons] at hl
      by_cases h : k' = e.1
      · subst h
        rw [find, if_pos rfl, List.mem_cons, Option.some.injEq]
        constructor
        · exact fun hv => .inl (Prod.ext rfl hv.symm)
        · intro he
          cases he with
          | inl he => rw [he]
          | inr he => exact absurd (List.mem_map_of_mem he) hl.1
      · rw [find, if_neg h, ih hl.2, List.mem_cons, or_iff_right]
        exact fun he => h (by rw [he])

/-- Assigning to a key that is present keeps the keys. -/
theorem keys_set_of_mem (d : PyDict κ ν) {k : κ} {v : ν} (h : k ∈ d.keys) :
    (d.set k v).keys = d.keys := by
  obtain ⟨l, hl⟩ := d
  simp only [keys, set] at h ⊢
  clear hl
  induction l with
  | nil => cases h
  | cons e l ih =>
      obtain ⟨k', v'⟩ := e
      by_cases hk : k' = k
      · simp [setEntries, hk]
      · rw [List.map_cons, List.mem_cons] at h
        rw [setEntries, if_neg hk, List.map_cons, List.map_cons, ih (h.resolve_left (Ne.symm hk))]

/-- Assigning to a new key appends it. -/
theorem keys_set_of_not_mem (d : PyDict κ ν) {k : κ} {v : ν} (h : k ∉ d.keys) :
    (d.set k v).keys = d.keys ++ [k] := by
  obtain ⟨l, hl⟩ := d
  simp only [keys, set] at h ⊢
  clear hl
  induction l with
  | nil => rfl
  | cons e l ih =>
      obtain ⟨k', v'⟩ := e
      rw [List.map_cons, List.mem_cons, not_or] at h
      rw [setEntries, if_neg (Ne.symm h.1), List.map_cons, List.map_cons, ih h.2]
      rfl

end PyDict
