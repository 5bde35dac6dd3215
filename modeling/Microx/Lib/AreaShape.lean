import Microx.Lib.Areas

/-!
# The shape of merged areas

Which areas `merge` leaves, in terms of the recorded ones.  A recorded address
starts an area when every earlier recorded area ends before it; it lies in the
area of the last start before it; and an area reaches as far as its members do.
The value of an area is made from the member that extended it last, the first
one that ends where the area ends (`get?_merge`).
-/

namespace Areas

variable {α : Type*}

/-! ## starts and members -/

section Shape

variable (keys : Set Nat) (size : Nat → Nat)

/-- Every recorded area that begins before `k` has ended there. -/
def Starts (k : Nat) : Prop := k ∈ keys ∧ ∀ k' ∈ keys, k' < k → k' + size k' ≤ k

/-- No area starts between `k` and the recorded address `a`. -/
def Member (k a : Nat) : Prop := a ∈ keys ∧ k ≤ a ∧ ∀ k', k < k' → k' ≤ a → ¬Starts keys size k'

/-- Of the members of the area at `k`, `a` is the first that ends where the area ends. -/
def Extends (k a : Nat) : Prop :=
  Member keys size k a ∧ ∀ b, Member keys size k b →
    b + size b ≤ a + size a ∧ (b < a → b + size b < a + size a)

variable {keys size}

theorem Starts.member {k : Nat} (h : Starts keys size k) : Member keys size k k :=
  ⟨h.1, Nat.le_refl k, fun _ hlt hle => absurd hle (Nat.not_le.mpr hlt)⟩

/-- One member extends an area last. -/
theorem Extends.unique {k a a' : Nat} (h : Extends keys size k a) (h' : Extends keys size k a') :
    a = a' := by
  have hle := (h.2 a' h'.1).1
  have hle' := (h'.2 a h.1).1
  by_contra hne
  cases Nat.lt_or_gt_of_ne hne with
  | inl hlt =>
      have := (h'.2 a h.1).2 hlt
      omega
  | inr hlt =>
      have := (h.2 a' h'.1).2 hlt
      omega

/-- An area has ended where a later one starts. -/
theorem Extends.le_start {k a k' : Nat} (h : Extends keys size k a) (hk' : Starts keys size k')
    (hlt : k < k') : a + size a ≤ k' := by
  have hbefore : a < k' := by
    by_contra hle
    exact h.1.2.2 k' hlt (Nat.not_lt.mp hle) hk'
  exact hk'.2 a h.1.1 hbefore

/-! ## one more area -/

section Insert

variable {addr : Nat} (hlt : ∀ k ∈ keys, k < addr)

include hlt

theorem starts_insert {k : Nat} :
    Starts (insert addr keys) size k ↔
      Starts keys size k ∨ (k = addr ∧ ∀ k' ∈ keys, k' + size k' ≤ addr) := by
  constructor
  · rintro ⟨hmem, hend⟩
    cases hmem with
    | inl heq =>
        subst heq
        exact .inr ⟨rfl, fun k' hk' => hend k' (.inr hk') (hlt k' hk')⟩
    | inr hmem => exact .inl ⟨hmem, fun k' hk' => hend k' (.inr hk')⟩
  · rintro (⟨hmem, hend⟩ | ⟨heq, hend⟩)
    · refine ⟨.inr hmem, fun k' hk' hbefore => ?_⟩
      cases hk' with
      | inl heq =>
          have := hlt k hmem
          omega
      | inr hk' => exact hend k' hk' hbefore
    · subst heq
      refine ⟨.inl rfl, fun k' hk' hbefore => ?_⟩
      cases hk' with
      | inl heq => omega
      | inr hk' => exact hend k' hk'

/-- What was recorded before stays where it is. -/
theorem member_insert_of_mem {k a : Nat} (ha : a ∈ keys) :
    Member (insert addr keys) size k a ↔ Member keys size k a := by
  have hbefore := hlt a ha
  constructor
  · rintro ⟨-, hle, hnone⟩
    exact ⟨ha, hle, fun k' hk hk' hs => hnone k' hk hk' ((starts_insert hlt).mpr (.inl hs))⟩
  · rintro ⟨-, hle, hnone⟩
    refine ⟨.inr ha, hle, fun k' hk hk' hs => ?_⟩
    cases (starts_insert hlt).mp hs with
    | inl hs => exact hnone k' hk hk' hs
    | inr h => omega

/-- An area that the new address does not belong to. -/
theorem extends_insert_of_not_member {k a : Nat} (ha : a ∈ keys)
    (hno : ¬Member (insert addr keys) size k addr) :
    Extends (insert addr keys) size k a ↔ Extends keys size k a := by
  unfold Extends
  rw [member_insert_of_mem hlt ha]
  refine and_congr_right fun _ => forall_congr' fun b => ?_
  by_cases hb : b ∈ keys
  · rw [member_insert_of_mem hlt hb]
  · constructor
    · exact fun _ h => absurd h.1 hb
    · intro _ h
      cases h.1 with
      | inl heq => exact absurd (heq ▸ h) hno
      | inr hmem => exact absurd hmem hb

end Insert

end Shape

/-! ## the loop -/

section Loop

variable {mk : Nat → Nat → α} {size : Nat → Nat}

/-- The loop has joined the areas that start at `keys`. -/
structure Joined (mk : Nat → Nat → α) (size : Nat → Nat) (keys : Set Nat) (s : Merging α) :
    Prop where
  sorted : s.merged.keys.Pairwise (· < ·)
  le_entry : ∀ k ∈ s.merged.keys, k ≤ s.entry
  starts : ∀ k, (s.merged.get? k).isSome ↔ Starts keys size k
  value : ∀ k, Starts keys size k →
    ∃ a, Extends keys size k a ∧ s.merged.get? k = some (mk a (a + size a - k))
  entry : Starts keys size s.entry
  extender : ∃ a, Extends keys size s.entry a ∧ a + size a = s.watermark
  bound : ∀ k ∈ keys, k + size k ≤ s.watermark

/-- The last area of all. -/
theorem Joined.le_of_starts {keys : Set Nat} {s : Merging α} (h : Joined mk size keys s) {k : Nat}
    (hk : Starts keys size k) : k ≤ s.entry :=
  h.le_entry k ((PyDict.mem_keys_iff _ k).mpr ((h.starts k).mpr hk))

/-- A round that opens an area. -/
theorem Joined.opened {keys : Set Nat} {s : Merging α} {addr : Nat} (h : Joined mk size keys s)
    (hlt : ∀ k ∈ keys, k < addr) (hnew : s.watermark ≤ addr) :
    Joined mk size (insert addr keys)
      { merged := s.merged.set addr (mk addr (size addr)), entry := addr,
        watermark := addr + size addr } := by
  have hend : ∀ k ∈ keys, k + size k ≤ addr := fun k hk => (h.bound k hk).trans hnew
  have hstart : Starts (insert addr keys) size addr := (starts_insert hlt).mpr (.inr ⟨rfl, hend⟩)
  have hfresh : addr ∉ s.merged.keys := by
    intro hmem
    have := h.le_entry addr hmem
    have := hlt _ h.entry.1
    omega
  have hself : Extends (insert addr keys) size addr addr := by
    refine ⟨hstart.member, fun b hb => ?_⟩
    cases hb.1 with
    | inl heq =>
        subst heq
        exact ⟨Nat.le_refl _, fun hlt => absurd hlt (Nat.lt_irrefl _)⟩
    | inr hmem =>
        have := hlt b hmem
        have := hb.2.1
        omega
  constructor
  · rw [PyDict.keys_set_of_not_mem _ hfresh, List.pairwise_append]
    refine ⟨h.sorted, List.pairwise_singleton _ _, fun k hk k' hk' => ?_⟩
    rw [List.mem_singleton.mp hk']
    exact (h.le_entry k hk).trans_lt (hlt _ h.entry.1)
  · intro k hk
    rw [PyDict.keys_set_of_not_mem _ hfresh, List.mem_append, List.mem_singleton] at hk
    cases hk with
    | inl hk => exact (h.le_entry k hk).trans (Nat.le_of_lt (hlt _ h.entry.1))
    | inr heq => exact Nat.le_of_eq heq
  · intro k
    rw [PyDict.get?_set, starts_insert hlt, ← h.starts]
    by_cases hk : k = addr
    · simpa [hk] using .inr hend
    · simp [hk]
  · intro k hk
    rw [PyDict.get?_set]
    by_cases hka : k = addr
    · subst hka
      exact ⟨k, hself, by rw [if_pos rfl, Nat.add_sub_cancel_left]⟩
    · rw [if_neg hka]
      have hold : Starts keys size k := ((starts_insert hlt).mp hk).resolve_right fun h => hka h.1
      have hno : ¬Member (insert addr keys) size k addr := fun hm =>
        hm.2.2 addr (hlt k hold.1) (Nat.le_refl _) hstart
      obtain ⟨a, ha, hvalue⟩ := h.value k hold
      exact ⟨a, (extends_insert_of_not_member hlt ha.1.1 hno).mpr ha, hvalue⟩
  · exact hstart
  · exact ⟨addr, hself, rfl⟩
  · intro k hk
    cases hk with
    | inl heq => rw [heq]
    | inr hmem => exact (hend k hmem).trans (Nat.le_add_right _ _)

section Overlap

variable {keys : Set Nat} {s : Merging α} {addr : Nat} (h : Joined mk size keys s)
  (hlt : ∀ k ∈ keys, k < addr) (hover : addr < s.watermark)

include h hlt hover

/-- An address below the watermark starts nothing. -/
theorem Joined.starts_overlap {k : Nat} :
    Starts (insert addr keys) size k ↔ Starts keys size k := by
  obtain ⟨a, ha, hend⟩ := h.extender
  rw [starts_insert hlt, or_iff_left]
  rintro ⟨-, hall⟩
  have := hall a ha.1.1
  omega

/-- It belongs to the area that is open. -/
theorem Joined.member_overlap {k : Nat} (hk : Starts keys size k) :
    Member (insert addr keys) size k addr ↔ k = s.entry := by
  have hentry := hlt _ h.entry.1
  constructor
  · rintro ⟨-, -, hnone⟩
    by_contra hne
    have hle := h.le_of_starts hk
    exact hnone s.entry (by omega) (Nat.le_of_lt hentry) ((h.starts_overlap hlt hover).mpr h.entry)
  · rintro rfl
    refine ⟨.inl rfl, Nat.le_of_lt hentry, fun k' hk' _ hs => ?_⟩
    have := h.le_of_starts ((h.starts_overlap hlt hover).mp hs)
    omega

/-- The other areas stay as they are. -/
theorem Joined.value_overlap {k : Nat} (hk : Starts keys size k) (hne : k ≠ s.entry) :
    ∃ a, Extends (insert addr keys) size k a ∧
      s.merged.get? k = some (mk a (a + size a - k)) := by
  have hno : ¬Member (insert addr keys) size k addr := fun hm =>
    hne ((h.member_overlap hlt hover hk).mp hm)
  obtain ⟨a, ha, hvalue⟩ := h.value k hk
  exact ⟨a, (extends_insert_of_not_member hlt ha.1.1 hno).mpr ha, hvalue⟩

/-- A round that extends the open area. -/
theorem Joined.grown (hgrow : s.watermark < addr + size addr) :
    Joined mk size (insert addr keys)
      { s with
        merged := s.merged.set s.entry (mk addr (addr + size addr - s.entry))
        watermark := addr + size addr } := by
  have hmem : s.entry ∈ s.merged.keys :=
    (PyDict.mem_keys_iff _ _).mpr ((h.starts _).mpr h.entry)
  have hlast : Extends (insert addr keys) size s.entry addr := by
    refine ⟨(h.member_overlap hlt hover h.entry).mpr rfl, fun b hb => ?_⟩
    cases hb.1 with
    | inl heq =>
        subst heq
        exact ⟨Nat.le_refl _, fun hlt => absurd hlt (Nat.lt_irrefl _)⟩
    | inr hmem =>
        have := h.bound b hmem
        omega
  constructor
  · rw [PyDict.keys_set_of_mem _ hmem]
    exact h.sorted
  · rw [PyDict.keys_set_of_mem _ hmem]
    exact h.le_entry
  · intro k
    rw [PyDict.get?_set, h.starts_overlap hlt hover, ← h.starts]
    by_cases hk : k = s.entry
    · simp [hk, (h.starts _).mpr h.entry]
    · simp [hk]
  · intro k hk
    rw [PyDict.get?_set]
    by_cases hke : k = s.entry
    · subst hke
      exact ⟨addr, hlast, if_pos rfl⟩
    · rw [if_neg hke]
      exact h.value_overlap hlt hover ((h.starts_overlap hlt hover).mp hk) hke
  · exact (h.starts_overlap hlt hover).mpr h.entry
  · exact ⟨addr, hlast, rfl⟩
  · intro k hk
    cases hk with
    | inl heq => rw [heq]
    | inr hmem => exact (h.bound k hmem).trans (Nat.le_of_lt hgrow)

/-- A round for an address inside the open area. -/
theorem Joined.subsumed (hin : addr + size addr ≤ s.watermark) :
    Joined mk size (insert addr keys) s := by
  obtain ⟨a, ha, hend⟩ := h.extender
  have hbefore := hlt a ha.1.1
  have hlast : Extends (insert addr keys) size s.entry a := by
    refine ⟨(member_insert_of_mem hlt ha.1.1).mpr ha.1, fun b hb => ?_⟩
    cases hb.1 with
    | inl heq =>
        subst heq
        omega
    | inr hmem => exact ha.2 b ((member_insert_of_mem hlt hmem).mp hb)
  refine ⟨h.sorted, h.le_entry, ?_, ?_, (h.starts_overlap hlt hover).mpr h.entry, ⟨a, hlast, hend⟩, ?_⟩
  · intro k
    rw [h.starts_overlap hlt hover, h.starts]
  · intro k hk
    by_cases hke : k = s.entry
    · subst hke
      obtain ⟨a', ha', hvalue⟩ := h.value _ h.entry
      exact ⟨a, hlast, by rw [hvalue, ha'.unique ha]⟩
    · exact h.value_overlap hlt hover ((h.starts_overlap hlt hover).mp hk) hke
  · intro k hk
    cases hk with
    | inl heq => rwa [heq]
    | inr hmem => exact h.bound k hmem

end Overlap

/-- One round of the loop. -/
theorem Joined.step {keys : Set Nat} {s : Merging α} {addr : Nat} (h : Joined mk size keys s)
    (hlt : ∀ k ∈ keys, k < addr) :
    Joined mk size (insert addr keys) (Areas.step mk s addr (size addr)) := by
  unfold Areas.step
  by_cases hnew : s.watermark ≤ addr
  · rw [if_pos hnew]
    exact h.opened hlt hnew
  · rw [if_neg hnew]
    by_cases hgrow : s.watermark < addr + size addr
    · rw [if_pos hgrow]
      exact h.grown hlt (Nat.not_le.mp hnew) hgrow
    · rw [if_neg hgrow]
      exact h.subsumed hlt (Nat.not_le.mp hnew) (Nat.not_lt.mp hgrow)

/-- The loop over a sorted list of areas. -/
theorem Joined.foldl (addrs : List Nat) : ∀ (keys : Set Nat) (s : Merging α),
    Joined mk size keys s → (∀ k ∈ keys, ∀ addr ∈ addrs, k < addr) → addrs.Pairwise (· < ·) →
    Joined mk size (keys ∪ {k | k ∈ addrs})
      (addrs.foldl (fun s addr => Areas.step mk s addr (size addr)) s) := by
  induction addrs with
  | nil =>
      intro keys s h _ _
      simpa using h
  | cons addr addrs ih =>
      intro keys s h hlt hsorted
      rw [List.pairwise_cons] at hsorted
      have hstep := h.step fun k hk => hlt k hk addr List.mem_cons_self
      have hrest := ih (insert addr keys) _ hstep (fun k hk addr' h' => ?_) hsorted.2
      · have hkeys : insert addr keys ∪ {k | k ∈ addrs} = keys ∪ {k | k ∈ addr :: addrs} := by
          ext k
          simp only [Set.mem_union, Set.mem_insert_iff, Set.mem_ofPred_eq, List.mem_cons]
          tauto
        rwa [hkeys] at hrest
      · cases hk with
        | inl heq => exact heq ▸ hsorted.1 addr' h'
        | inr hk => exact hlt k hk addr' (List.mem_cons_of_mem _ h')

end Loop

/-! ## the areas of a dictionary -/

/-- The size recorded for an address. -/
def sizeAt (d : PyDict Nat Nat) (k : Nat) : Nat := (d.get? k).getD 0

/-- The recorded addresses. -/
def recorded (d : PyDict Nat Nat) : Set Nat := {k | k ∈ d.keys}

/-- The loop joins all of a dictionary. -/
theorem merge_joined (mk : Nat → Nat → α) (d : PyDict Nat Nat) :
    (d.keys = [] ∧ merge mk d = PyDict.empty) ∨
      ∃ s, merge mk d = s.merged ∧ Joined mk (sizeAt d) (recorded d) s := by
  have hle := List.pairwise_insertionSort (· ≤ ·) d.keys
  have hne : (d.keys.insertionSort (· ≤ ·)).Pairwise (· ≠ ·) :=
    (List.perm_insertionSort (· ≤ ·) d.keys).nodup_iff.mpr d.nodup_keys
  have hsorted := (hle.and hne).imp fun h => Nat.lt_of_le_of_ne h.1 h.2
  have hmem : recorded d = {k | k ∈ d.keys.insertionSort (· ≤ ·)} := by
    ext k
    simp [recorded]
  rw [hmem, merge]
  cases hkeys : d.keys.insertionSort (· ≤ ·) with
  | nil =>
      refine .inl ⟨?_, rfl⟩
      have hperm := List.perm_insertionSort (· ≤ ·) d.keys
      rw [hkeys] at hperm
      exact hperm.nil_eq.symm
  | cons entry addrs =>
      rw [hkeys, List.pairwise_cons] at hsorted
      have hstart : Starts {entry} (sizeAt d) entry := ⟨rfl, by simp⟩
      have hself : Extends {entry} (sizeAt d) entry entry := by
        refine ⟨hstart.member, fun b hb => ?_⟩
        rw [Set.mem_singleton_iff.mp hb.1]
        omega
      have hfirst : Joined mk (sizeAt d) {entry}
          { merged := PyDict.empty.set entry (mk entry (sizeAt d entry)), entry,
            watermark := entry + sizeAt d entry } := by
        refine ⟨List.pairwise_singleton _ _, ?_, ?_, ?_, hstart, ⟨entry, hself, rfl⟩, ?_⟩
        · intro k hk
          exact Nat.le_of_eq (List.mem_singleton.mp hk)
        · intro k
          rw [PyDict.get?_set]
          by_cases hk : k = entry
          · simp [hk, hstart]
          · simp [hk, Starts]
        · intro k hk
          have hk := Set.mem_singleton_iff.mp hk.1
          subst hk
          exact ⟨k, hself, by rw [PyDict.get?_set, if_pos rfl, Nat.add_sub_cancel_left]⟩
        · intro k hk
          rw [Set.mem_singleton_iff.mp hk]
      have hall := hfirst.foldl addrs _ _
        (fun k hk addr h => (Set.mem_singleton_iff.mp hk) ▸ hsorted.1 addr h) hsorted.2
      refine .inr ⟨_, rfl, ?_⟩
      have heq : ({entry} ∪ {k | k ∈ addrs} : Set Nat) = {k | k ∈ entry :: addrs} := by
        ext k
        simp
      rwa [heq] at hall

variable (mk : Nat → Nat → α) (d : PyDict Nat Nat)

/-- The areas come in order. -/
theorem keys_merge_sorted : (merge mk d).keys.Pairwise (· < ·) := by
  cases merge_joined mk d with
  | inl h =>
      rw [h.2]
      exact List.Pairwise.nil
  | inr h =>
      obtain ⟨s, heq, hs⟩ := h
      rw [heq]
      exact hs.sorted

/-- **The areas**: one for each start, made from the member that extended it last. -/
theorem get?_merge {k : Nat} {v : α} :
    (merge mk d).get? k = some v ↔ Starts (recorded d) (sizeAt d) k ∧
      ∃ a, Extends (recorded d) (sizeAt d) k a ∧ v = mk a (a + sizeAt d a - k) := by
  cases merge_joined mk d with
  | inl h =>
      rw [h.2, PyDict.get?_empty]
      simp [Starts, recorded, h.1]
  | inr h =>
      obtain ⟨s, heq, hs⟩ := h
      rw [heq]
      constructor
      · intro hv
        have hk := (hs.starts k).mp (by rw [hv]; rfl)
        obtain ⟨a, ha, hvalue⟩ := hs.value k hk
        exact ⟨hk, a, ha, Option.some.inj (hv.symm.trans hvalue)⟩
      · rintro ⟨hk, a, ha, rfl⟩
        obtain ⟨a', ha', hvalue⟩ := hs.value k hk
        rw [hvalue, ha'.unique ha]

/-- The areas start at recorded addresses. -/
theorem mem_recorded_of_merge {k : Nat} {v : α} (h : (merge mk d).get? k = some v) :
    k ∈ recorded d := ((get?_merge mk d).mp h).1.1

/-- Each area ends before the next one begins. -/
theorem entries_merge_spaced {width : α → Nat} (hw : ∀ k n, width (mk k n) = n) :
    (merge mk d).entries.Pairwise fun x y => x.1 + width x.2 ≤ y.1 := by
  have hsorted := List.pairwise_map.mp (keys_merge_sorted mk d)
  refine hsorted.imp_of_mem fun {x y} hx hy hlt => ?_
  have hx := (get?_merge mk d).mp ((PyDict.get?_eq_some_iff _).mpr hx)
  have hy := (get?_merge mk d).mp ((PyDict.get?_eq_some_iff _).mpr hy)
  obtain ⟨-, a, ha, hvalue⟩ := hx
  have hle := ha.le_start hy.1 hlt
  have hstart := ha.1.2.1
  rw [hvalue, hw]
  omega

end Areas
