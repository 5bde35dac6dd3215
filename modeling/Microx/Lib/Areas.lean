import Microx.Lib.PyDict

/-!
# Merging areas

A dictionary from start addresses to sizes records areas that may overlap.
`merge` walks over the starts in increasing order and joins what overlaps: it
keeps the area it is extending (`entry` up to `watermark`), opens a new one
when a start lies at or past the watermark, and moves the watermark when an
area sticks out.  What is stored for an area is made by `mk` from an address
and a size.

`merge_covers`: the merged areas hold the same addresses as the recorded ones.
-/

namespace Areas

variable {α : Type*}

/-- The address `a` lies in an area of the dictionary; `width` reads off the size. -/
def Covers (width : α → Nat) (d : PyDict Nat α) (a : Nat) : Prop :=
  ∃ k v, d.get? k = some v ∧ k ≤ a ∧ a < k + width v

/-- The state of the merging loop. -/
structure Merging (α : Type*) where
  merged : PyDict Nat α
  entry : Nat
  watermark : Nat

/-- One round of the loop, for the area of `size` bytes at `addr`. -/
def step (mk : Nat → Nat → α) (s : Merging α) (addr size : Nat) : Merging α :=
  if s.watermark ≤ addr then
    -- a new area
    { merged := s.merged.set addr (mk addr size), entry := addr, watermark := addr + size }
  else if s.watermark < addr + size then
    -- the current area grows
    let newWatermark := addr + size
    { s with
      merged := s.merged.set s.entry (mk addr (newWatermark - s.entry))
      watermark := newWatermark }
  else
    s

/-- The areas of `d`, merged. -/
def merge (mk : Nat → Nat → α) (d : PyDict Nat Nat) : PyDict Nat α :=
  let size k := (d.get? k).getD 0
  match d.keys.insertionSort (· ≤ ·) with
  | [] => PyDict.empty
  | entry :: addrs =>
      let first : Merging α :=
        { merged := PyDict.empty.set entry (mk entry (size entry)), entry,
          watermark := entry + size entry }
      (addrs.foldl (fun s addr => step mk s addr (size addr)) first).merged

/-! ## nothing is lost or invented -/

section Exact

variable {width : α → Nat} {mk : Nat → Nat → α} {size : Nat → Nat}

/-- The loop has dealt with the areas that start at `done`. -/
structure Merged (width : α → Nat) (size : Nat → Nat) (done : List Nat) (s : Merging α) :
    Prop where
  covers : ∀ a, Covers width s.merged a ↔ ∃ k ∈ done, k ≤ a ∧ a < k + size k
  current : ∃ v, s.merged.get? s.entry = some v ∧ s.entry + width v = s.watermark
  entry_mem : s.entry ∈ done
  keys_le : ∀ k v, s.merged.get? k = some v → k ∈ done

theorem covers_set (d : PyDict Nat α) (k : Nat) (v : α) (a : Nat) :
    Covers width (d.set k v) a ↔ (k ≤ a ∧ a < k + width v) ∨
      ∃ k' v', k' ≠ k ∧ d.get? k' = some v' ∧ k' ≤ a ∧ a < k' + width v' := by
  simp only [Covers, PyDict.get?_set]
  constructor
  · rintro ⟨k', v', hk, ha⟩
    by_cases h : k' = k
    · rw [if_pos h, Option.some.injEq] at hk
      subst hk h
      exact Or.inl ha
    · rw [if_neg h] at hk
      exact Or.inr ⟨k', v', h, hk, ha⟩
  · rintro (ha | ⟨k', v', h, hk, ha⟩)
    · exact ⟨k, v, if_pos rfl, ha⟩
    · exact ⟨k', v', by rw [if_neg h, hk], ha⟩

theorem exists_mem_cons_area (k : Nat) (done : List Nat) (a : Nat) :
    (∃ k' ∈ k :: done, k' ≤ a ∧ a < k' + size k') ↔
      (k ≤ a ∧ a < k + size k) ∨ ∃ k' ∈ done, k' ≤ a ∧ a < k' + size k' := by
  simp only [List.mem_cons, or_and_right, exists_or, exists_eq_left]

/-- One round deals with one more area, if it starts after all the others. -/
theorem Merged.step (hw : ∀ k n, width (mk k n) = n) {done : List Nat} {s : Merging α}
    {addr : Nat} (h : Merged width size done s) (hlt : ∀ k ∈ done, k < addr) :
    Merged width size (addr :: done) (step mk s addr (size addr)) := by
  obtain ⟨v₀, hv₀, hwater⟩ := h.current
  have hentry : s.entry < addr := hlt _ h.entry_mem
  have hkeys : ∀ k v e, (s.merged.set e v).get? k ≠ none → e ∈ addr :: done →
      k ∈ addr :: done := by
    intro k v e hk he
    rw [PyDict.get?_set] at hk
    by_cases hke : k = e
    · exact hke ▸ he
    · rw [if_neg hke] at hk
      obtain ⟨w, hw⟩ := Option.ne_none_iff_exists'.mp hk
      exact List.mem_cons_of_mem _ (h.keys_le k w hw)
  unfold Areas.step
  by_cases hnew : s.watermark ≤ addr
  · rw [if_pos hnew]
    refine ⟨fun a => ?_, ⟨mk addr (size addr), by simp, by rw [hw]⟩, List.mem_cons_self,
      fun k v hk => hkeys k _ addr (by rw [hk]; simp) List.mem_cons_self⟩
    rw [covers_set, exists_mem_cons_area, ← h.covers a, hw]
    refine or_congr_right ⟨?_, ?_⟩
    · rintro ⟨k, v, -, hk, ha⟩
      exact ⟨k, v, hk, ha⟩
    · rintro ⟨k, v, hk, ha⟩
      exact ⟨k, v, Nat.ne_of_lt (hlt k (h.keys_le k v hk)), hk, ha⟩
  · rw [if_neg hnew]
    by_cases hgrow : s.watermark < addr + size addr
    · rw [if_pos hgrow]
      refine ⟨fun a => ?_, ⟨mk addr (addr + size addr - s.entry), by simp, ?_⟩,
        List.mem_cons_of_mem _ h.entry_mem,
        fun k v hk => hkeys k _ s.entry (by rw [hk]; simp) (List.mem_cons_of_mem _ h.entry_mem)⟩
      · rw [covers_set, exists_mem_cons_area, ← h.covers a, hw]
        constructor
        · rintro (ha | ⟨k, v, -, hk, ha⟩)
          · -- the current area up to its old watermark, and the new one from there
            by_cases hold : a < s.watermark
            · exact Or.inr ⟨s.entry, v₀, hv₀, by omega⟩
            · exact Or.inl (by omega)
          · exact Or.inr ⟨k, v, hk, ha⟩
        · rintro (ha | ⟨k, v, hk, ha⟩)
          · exact Or.inl (by omega)
          · by_cases hke : k = s.entry
            · rw [hke, hv₀, Option.some.injEq] at hk
              subst hk hke
              exact Or.inl (by omega)
            · exact Or.inr ⟨k, v, hke, hk, ha⟩
      · rw [hw]
        change s.entry + (addr + size addr - s.entry) = addr + size addr
        omega
    · rw [if_neg hgrow]
      refine ⟨fun a => ?_, h.current, List.mem_cons_of_mem _ h.entry_mem,
        fun k v hk => List.mem_cons_of_mem _ (h.keys_le k v hk)⟩
      rw [exists_mem_cons_area, ← h.covers a]
      refine ⟨Or.inr, ?_⟩
      rintro (ha | hk)
      · -- the area lies inside the current one
        exact ⟨s.entry, v₀, hv₀, by omega⟩
      · exact hk

/-- The loop deals with a sorted list of areas. -/
theorem Merged.foldl (hw : ∀ k n, width (mk k n) = n) (addrs : List Nat) :
    ∀ (done : List Nat) (s : Merging α), Merged width size done s →
      (∀ k ∈ done, ∀ addr ∈ addrs, k < addr) → addrs.Pairwise (· < ·) →
      Merged width size (addrs.reverse ++ done)
        (addrs.foldl (fun s addr => Areas.step mk s addr (size addr)) s) := by
  induction addrs with
  | nil => exact fun done s h _ _ => h
  | cons addr addrs ih =>
      intro done s h hlt hs
      rw [List.pairwise_cons] at hs
      have hstep := h.step hw fun k hk => hlt k hk addr List.mem_cons_self
      have := ih (addr :: done) _ hstep (fun k hk addr' h' => by
        rcases List.mem_cons.mp hk with rfl | hk
        · exact hs.1 addr' h'
        · exact hlt k hk addr' (List.mem_cons_of_mem _ h')) hs.2
      simpa using this

/-- **The merged areas hold exactly the addresses of the recorded ones.** -/
theorem merge_covers (hw : ∀ k n, width (mk k n) = n) (d : PyDict Nat Nat) (a : Nat) :
    Covers width (merge mk d) a ↔ Covers id d a := by
  have hrecorded : Covers id d a ↔
      ∃ k ∈ d.keys.insertionSort (· ≤ ·), k ≤ a ∧ a < k + (d.get? k).getD 0 := by
    simp only [Covers, List.mem_insertionSort, PyDict.mem_keys_iff]
    constructor
    · rintro ⟨k, v, hk, ha⟩
      exact ⟨k, by rw [hk]; rfl, by rw [hk]; exact ha⟩
    · rintro ⟨k, hk, ha⟩
      obtain ⟨v, hv⟩ := Option.isSome_iff_exists.mp hk
      rw [hv] at ha
      exact ⟨k, v, hv, ha⟩
  have hsorted : (d.keys.insertionSort (· ≤ ·)).Pairwise (· < ·) := by
    have hle := List.pairwise_insertionSort (· ≤ ·) d.keys
    have hne : (d.keys.insertionSort (· ≤ ·)).Pairwise (· ≠ ·) :=
      (List.perm_insertionSort (· ≤ ·) d.keys).nodup_iff.mpr d.nodup_keys
    exact (hle.and hne).imp fun h => Nat.lt_of_le_of_ne h.1 h.2
  rw [hrecorded, merge]
  cases hkeys : d.keys.insertionSort (· ≤ ·) with
  | nil => simp [Covers]
  | cons entry addrs =>
      rw [hkeys, List.pairwise_cons] at hsorted
      have hfirst : Merged width (fun k => (d.get? k).getD 0) [entry]
          { merged := PyDict.empty.set entry (mk entry ((d.get? entry).getD 0)), entry,
            watermark := entry + (d.get? entry).getD 0 } := by
        refine ⟨fun b => ?_, ⟨mk entry ((d.get? entry).getD 0), by simp, by rw [hw]⟩,
          List.mem_singleton_self _, fun k v hk => ?_⟩
        · rw [covers_set, exists_mem_cons_area, hw]
          simp
        · rw [PyDict.get?_set] at hk
          by_cases hke : k = entry
          · exact List.mem_singleton.mpr hke
          · rw [if_neg hke] at hk
            contradiction
      have := Merged.foldl hw addrs [entry] _ hfirst
        (fun k hk addr h' => (List.mem_singleton.mp hk) ▸ hsorted.1 addr h') hsorted.2
      refine (this.covers a).trans ?_
      refine exists_congr fun k => and_congr_left fun _ => ?_
      rw [List.mem_append, List.mem_reverse, List.mem_singleton, List.mem_cons, or_comm]

end Exact

end Areas
