import Microx.Memory.Access

/-!
# Microx.Memory.Holes

`find_hole` of `class Memory`.

The scan over the gaps between mappings compares with a difference of the wrong
sign, so for a size above zero it never finds one.  What is left is the gap
behind the last page, and there the result is the last page itself, which is
mapped: the result is a hole exactly when there is none (`findHole_iff`).
-/

namespace Microx

namespace Memory

variable {μ π : Type} (m : Memory μ π)

/-- `paged_hole`: a size in pages. -/
def pagedHole (holeSize : Int) : Int :=
  if holeSize >>> m.pageShift = 0 then 1 else holeSize >>> m.pageShift

/-- `MIN_ADDR`, a page. -/
def minPage : Nat := 0x10000 >>> m.pageShift

/-- `MAX_ADDR`, a page. -/
def maxPage : Nat := 0xFFFF0000 >>> m.pageShift

/-- The loop of `find_hole` over the mapped pages, with the end of the mapping before. -/
def scanHoles (pagedHole : Int) : Nat → List Nat → Option Nat
  | _, [] => none
  | lowest, addr :: mm =>
      if lowest < addr ∧ pagedHole < (lowest : Int) - addr then some lowest
      else scanHoles pagedHole addr mm

/-- `find_hole`. -/
def findHole (holeSize : Int) : Except PyExc (Option Nat) :=
  let mm := m.memoryMaps.keys.insertionSort (· ≤ ·)
  match scanHoles (m.pagedHole holeSize) m.minPage mm with
  | some lowest => .ok (some (lowest <<< m.pageShift))
  | none =>
      match mm.getLast? with
      -- `addr` was never assigned
      | none => .error (.other "UnboundLocalError")
      | some addr =>
          if addr < m.maxPage ∧ m.pagedHole holeSize < (m.maxPage : Int) - addr then
            .ok (some (addr <<< m.pageShift))
          else .ok none

/-- An aligned address, with no mapped page from there on for `holeSize` bytes. -/
structure IsHole (a : Nat) (holeSize : Int) : Prop where
  aligned : m.pageSize ∣ a
  unmapped : ∀ p ∈ m.memoryMaps.keys,
    ¬((p * m.pageSize : Nat) < (a : Int) + holeSize ∧ a < (p + 1) * m.pageSize)

/-! ## where the scan ends -/

/-- No gap is wide enough. -/
theorem scanHoles_of_pos {pagedHole : Int} (h : 0 < pagedHole) (mm : List Nat) :
    ∀ lowest, scanHoles pagedHole lowest mm = none := by
  induction mm with
  | nil => exact fun _ => rfl
  | cons addr mm ih =>
      intro lowest
      rw [scanHoles, if_neg (by omega)]
      exact ih addr

variable {m}

theorem pagedHole_pos {holeSize : Int} (h : 0 < holeSize) : 0 < m.pagedHole holeSize := by
  have hnonneg : 0 ≤ holeSize >>> m.pageShift := by
    rw [Int.shiftRight_eq_div_pow]
    exact Int.ediv_nonneg (Int.le_of_lt h) (Int.natCast_nonneg _)
  unfold pagedHole
  split_ifs with hzero
  · decide
  · omega

/-- The last page of a table. -/
theorem exists_last (h : m.memoryMaps.keys ≠ []) :
    ∃ last ∈ m.memoryMaps.keys, (∀ p ∈ m.memoryMaps.keys, p ≤ last) ∧
      (m.memoryMaps.keys.insertionSort (· ≤ ·)).getLast? = some last := by
  have hsorted := List.pairwise_insertionSort (· ≤ ·) m.memoryMaps.keys
  have hmem (p : Nat) : p ∈ m.memoryMaps.keys.insertionSort (· ≤ ·) ↔ p ∈ m.memoryMaps.keys :=
    List.mem_insertionSort _
  have hne : m.memoryMaps.keys.insertionSort (· ≤ ·) ≠ [] := by
    intro hnil
    obtain ⟨p, hp⟩ := List.exists_mem_of_ne_nil _ h
    rw [← hmem, hnil] at hp
    cases hp
  refine ⟨_, (hmem _).mp (List.getLast_mem hne), fun p hp => ?_, List.getLast?_eq_some_getLast hne⟩
  rw [← hmem, ← List.dropLast_append_getLast hne, List.mem_append, List.mem_singleton] at hp
  rw [← List.dropLast_append_getLast hne, List.pairwise_append] at hsorted
  cases hp with
  | inl hp => exact hsorted.2.2 p hp _ (List.mem_singleton_self _)
  | inr heq => exact Nat.le_of_eq heq

/-- `find_hole` looks behind the last page only. -/
theorem findHole_eq {holeSize : Int} (hpos : 0 < holeSize) {last : Nat}
    (hlast : (m.memoryMaps.keys.insertionSort (· ≤ ·)).getLast? = some last) :
    m.findHole holeSize =
      .ok (if m.pagedHole holeSize < (m.maxPage : Int) - last then some (last <<< m.pageShift)
        else none) := by
  have hpaged := pagedHole_pos (m := m) hpos
  simp only [findHole, scanHoles_of_pos hpaged, hlast]
  by_cases h : m.pagedHole holeSize < (m.maxPage : Int) - last
  · rw [if_pos ⟨by omega, h⟩, if_pos h]
  · rw [if_neg fun h' => h h'.2, if_neg h]

/-- A mapped page is no hole. -/
theorem not_isHole_of_mapped {p : Nat} (hp : p ∈ m.memoryMaps.keys) {holeSize : Int}
    (hpos : 0 < holeSize) : ¬m.IsHole (p <<< m.pageShift) holeSize := by
  intro h
  have hsize : 0 < m.pageSize := by
    rw [pageSize_eq]
    exact Nat.two_pow_pos _
  refine h.unmapped p hp ?_
  rw [Nat.shiftLeft_eq, ← pageSize_eq, Nat.add_mul]
  omega

/-- **`find_hole` returns a hole** if and only if it returns none: a mapped page leaves no room
behind it. -/
theorem findHole_isHole_iff (hm : m.memoryMaps.keys ≠ []) {holeSize : Int} (hpos : 0 < holeSize) :
    (∀ a, m.findHole holeSize = .ok (some a) → m.IsHole a holeSize) ↔
      ∃ p ∈ m.memoryMaps.keys, (m.maxPage : Int) - p ≤ m.pagedHole holeSize := by
  obtain ⟨last, hmem, hmax, hlast⟩ := exists_last hm
  rw [findHole_eq hpos hlast]
  constructor
  · intro h
    refine ⟨last, hmem, Int.not_lt.mp fun hroom => ?_⟩
    exact not_isHole_of_mapped hmem hpos (h _ (by rw [if_pos hroom]))
  · rintro ⟨p, hp, hroom⟩ a ha
    have hle := hmax p hp
    rw [if_neg (by omega)] at ha
    cases ha

end Memory

end Microx
