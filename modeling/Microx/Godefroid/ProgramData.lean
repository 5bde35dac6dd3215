import Microx.Godefroid.PolicyAccess

/-!
# Microx.Godefroid.ProgramData

Whether a program gets back what it stored in a policy map.

A load that the policy watches and that meets one byte not marked as written
has all its bytes replaced.  So a stored byte survives as long as no load
covers both stored bytes and bytes the policy does not know to be written
(`LoadsWhole`); a run of such loads returns every stored byte with its last
value (`load_stored`), and one other load can lose it (`load_lost`).
-/

namespace Microx

open Hoare InputMemoryPolicy PolicyMemoryMap

/-! ## what a program has stored -/

/-- What the program has stored so far: the last byte for each address. -/
abbrev StoredBytes := Nat → Option Byte

/-- One access later. -/
def Access.record : Access → StoredBytes → StoredBytes
  | load _ _, f => f
  | store addr data, f => fun a => if addr ≤ a ∧ a < addr + data.length then data[a - addr]? else f a

/-- The last byte stored to each address. -/
def lastStored (accs : List Access) : StoredBytes := accs.foldl (fun f acc => acc.record f) fun _ => none

theorem lastStored_append (accs : List Access) (acc : Access) :
    lastStored (accs ++ [acc]) = acc.record (lastStored accs) := by
  simp [lastStored]

/-- The byte lies in a store whose start the policy watches. -/
def Access.Watched (w : Nat → Bool) (a : Nat) : Access → Prop
  | load _ _ => False
  | store addr data => w addr = true ∧ addr ≤ a ∧ a < addr + data.length

/-- The condition on a load: the policy does not watch it, or all its bytes were marked as written
(at the start, or by a watched store since), or none of them was stored. -/
def LoadsWhole (m : PolicyMemoryMap) (w : Nat → Bool) (before : List Access) : Access → Prop
  | .load addr n =>
      w addr = false ∨
      (∀ a, addr ≤ a → a < addr + n → m.Written a ∨ ∃ acc ∈ before, acc.Watched w a) ∨
      ∀ a, addr ≤ a → a < addr + n → lastStored before a = none
  | .store _ _ => True

/-- Every access of a run meets the condition where it stands. -/
def AllLoadWhole (m : PolicyMemoryMap) (w : Nat → Bool) : List Access → List Access → Prop
  | _, [] => True
  | before, acc :: accs => LoadsWhole m w before acc ∧ AllLoadWhole m w (before ++ [acc]) accs

theorem allLoadWhole_append {m : PolicyMemoryMap} {w : Nat → Bool} (accs accs' : List Access) :
    ∀ before, AllLoadWhole m w before (accs ++ accs') ↔
      AllLoadWhole m w before accs ∧ AllLoadWhole m w (before ++ accs) accs' := by
  induction accs with
  | nil => simp [AllLoadWhole]
  | cons acc accs ih =>
      intro before
      simp only [List.cons_append, AllLoadWhole, ih, and_assoc, List.append_assoc,
        List.nil_append]

/-! ## the invariant of a run -/

/-- After the accesses `before`: the map holds what was stored, and the flags tell which bytes lie
in watched stores. -/
structure HoldsStored (m : PolicyMemoryMap) (p : InputMemoryPolicy) (before : List Access)
    (s : PolicyMemoryMap × Option InputMemoryPolicy) : Prop where
  same : SameMap m s.1
  policy : ∃ p', s.2 = some p' ∧ p'.watches = p.watches
  written : ∀ a, s.1.Written a ↔ m.Written a ∨ ∃ acc ∈ before, acc.Watched p.watches a
  byteAt : ∀ a, m.base ≤ a → ∀ b, lastStored before a = some b → s.1.byteAt a = b

theorem holdsStored_nil (m : PolicyMemoryMap) (p : InputMemoryPolicy) :
    HoldsStored m p [] (m, some p) where
  same := SameMap.refl m
  policy := ⟨p, rfl, rfl⟩
  written a := by simp
  byteAt a _ b h := by simp [lastStored] at h

theorem exists_watched_append {w : Nat → Bool} {a : Nat} (before : List Access) (acc : Access) :
    (∃ x ∈ before ++ [acc], x.Watched w a) ↔ (∃ x ∈ before, x.Watched w a) ∨ acc.Watched w a := by
  simp only [List.mem_append, List.mem_singleton, or_and_right, exists_or, exists_eq_left]

/-- A load that meets the condition keeps the invariant. -/
theorem HoldsStored.load {m : PolicyMemoryMap} {p : InputMemoryPolicy} {before : List Access}
    {s s' : PolicyMemoryMap × Option InputMemoryPolicy} {addr n : Nat} {out : List Byte}
    (h : HoldsStored m p before s) (hm : m.policy = .input) (hc : m.Contains addr n)
    (hok : LoadsWhole m p.watches before (.load addr n))
    (hrun : PolicyMemoryMap.loadBytes addr n s = .ok out s') :
    HoldsStored m p (before ++ [.load addr n]) s' ∧
      out = (List.range n).map fun i => s'.1.byteAt (addr + i) := by
  obtain ⟨m₁, q⟩ := s
  obtain ⟨p₁, hp₁, hw⟩ := h.policy
  subst hp₁
  obtain ⟨heff, hout⟩ := loadBytes_effect (h.same.policy.trans hm) (hc.of_sameMap h.same) hrun
  obtain ⟨p', hp', hshow⟩ := heff.policy
  refine ⟨⟨h.same.trans heff.same, ⟨p', hp', hshow.1.trans hw⟩, fun a => ?_,
    fun a ha b hb => ?_⟩, hout⟩
  · rw [heff.written, h.written, exists_watched_append]
    simp [Access.Watched]
  · rw [lastStored_append] at hb
    have hold : m₁.byteAt a = b := h.byteAt a ha b hb
    rw [← hold]
    have ha₁ : m₁.base ≤ a := by rw [h.same.base]; exact ha
    by_cases hin : addr ≤ a ∧ a < addr + n
    · -- a stored byte of the range: the load replaces nothing
      apply heff.kept
      rw [hw]
      rcases hok with hnot | hall | hnone
      · exact Or.inl hnot
      · exact Or.inr fun a' h1 h2 => (h.written a').mpr (hall a' h1 h2)
      · have : lastStored before a = none := hnone a hin.1 hin.2
        rw [Access.record, this] at hb
        contradiction
    · exact heff.outside a ha₁ hin

/-- A store keeps the invariant. -/
theorem HoldsStored.store {m : PolicyMemoryMap} {p : InputMemoryPolicy} {before : List Access}
    {s s' : PolicyMemoryMap × Option InputMemoryPolicy} {addr : Nat} {data : List Byte}
    (h : HoldsStored m p before s) (hm : m.policy = .input) (hc : m.Contains addr data.length)
    (hrun : PolicyMemoryMap.storeBytes addr data s = .ok () s') :
    HoldsStored m p (before ++ [.store addr data]) s' := by
  obtain ⟨m₁, q⟩ := s
  obtain ⟨p₁, hp₁, hw⟩ := h.policy
  subst hp₁
  have heff := storeBytes_effect (h.same.policy.trans hm) (hc.of_sameMap h.same) hrun
  obtain ⟨p', hp', hshow⟩ := heff.policy
  refine ⟨h.same.trans heff.same, ⟨p', hp', hshow.1.trans hw⟩, fun a => ?_, fun a ha b hb => ?_⟩
  · rw [heff.written, h.written, exists_watched_append, hw, or_assoc]
    rfl
  · simp only [lastStored_append, Access.record] at hb
    have ha₁ : m₁.base ≤ a := by rw [h.same.base]; exact ha
    rw [heff.byteAt a ha₁]
    by_cases hin : addr ≤ a ∧ a < addr + data.length
    · rw [if_pos hin] at hb ⊢
      rw [List.getD_eq_getElem?_getD, hb, Option.getD_some]
    · rw [if_neg hin] at hb ⊢
      exact h.byteAt a ha b hb

/-- A run of accesses that meet the condition keeps the invariant. -/
theorem HoldsStored.performAll {m : PolicyMemoryMap} {p : InputMemoryPolicy}
    (hm : m.policy = .input) (hwf : m.WellFormed) (accs : List MapAccess) :
    ∀ before s s' outs, HoldsStored m p before s → (∀ acc ∈ accs, acc.access.Within m) →
      AllLoadWhole m p.watches before (accs.map MapAccess.access) →
      MapAccess.performAll accs s = .ok outs s' →
      HoldsStored m p (before ++ accs.map MapAccess.access) s' := by
  induction accs with
  | nil =>
      intro before s s' outs h _ _ hrun
      simp only [MapAccess.performAll, run_pure, EStateM.Result.ok.injEq] at hrun
      simpa [← hrun.2] using h
  | cons acc accs ih =>
      intro before s s' outs h hin hall hrun
      obtain ⟨out, outs', s₁, hacc, hrest⟩ := MapAccess.performAll_cons hrun
      obtain ⟨hfirst, hall⟩ := hall
      have hwithin := hin acc List.mem_cons_self
      have hstep : HoldsStored m p (before ++ [acc.access]) s₁ := by
        cases ha : acc.access with
        | load addr n =>
            rw [ha] at hfirst hwithin
            rw [MapAccess.run_load ha] at hacc
            exact (h.load hm ⟨hwf, hwithin.1, hwithin.2⟩ hfirst hacc).1
        | store addr data =>
            rw [ha] at hwithin
            exact h.store hm ⟨hwf, hwithin.1, hwithin.2⟩ (MapAccess.run_store ha hacc)
      have := ih _ s₁ s' outs' hstep (fun x hx => hin x (List.mem_cons_of_mem _ hx)) hall hrest
      simpa using this

/-! ## program data -/

/-- **A load returns what was stored**, in every run whose loads are all watched nowhere, written
everywhere, or stored nowhere. -/
theorem load_stored {m : PolicyMemoryMap} {p : InputMemoryPolicy} {accs : List MapAccess}
    {acc : MapAccess} {addr n : Nat} {outs : List (List Byte)} {out : List Byte}
    {s s' : PolicyMemoryMap × Option InputMemoryPolicy} (hm : m.policy = .input)
    (hwf : m.WellFormed) (hacc : acc.access = .load addr n)
    (hin : ∀ x ∈ accs ++ [acc], x.access.Within m)
    (hall : AllLoadWhole m p.watches [] (accs.map MapAccess.access ++ [.load addr n]))
    (hrun : MapAccess.performAll accs (m, some p) = .ok outs s) (hload : acc.run s = .ok out s') :
    out.length = n ∧ ∀ i < n, ∀ b, lastStored (accs.map MapAccess.access) (addr + i) = some b →
      out[i]? = some b := by
  rw [allLoadWhole_append] at hall
  have hrun' := (holdsStored_nil m p).performAll hm hwf accs [] _ s outs
    (fun x hx => hin x (List.mem_append_left _ hx)) hall.1 hrun
  have hwithin := hin acc (by simp)
  rw [hacc] at hwithin
  rw [MapAccess.run_load hacc] at hload
  rw [List.nil_append] at hrun' hall
  obtain ⟨hafter, hout⟩ := hrun'.load hm ⟨hwf, hwithin.1, hwithin.2⟩ hall.2.1 hload
  subst hout
  refine ⟨by simp, fun i hi b hb => ?_⟩
  have := hafter.byteAt (addr + i) (by have := hwithin.1; omega) b
    (by rw [lastStored_append]; exact hb)
  rw [List.getElem?_map, List.getElem?_range hi, Option.map_some, this]

/-! ## a run that loses a byte -/

/-- Storing the byte `7` and loading it again. -/
theorem load_stored_byte : ∃ outs s out s',
    MapAccess.performAll [.storeUnit .byte 0x1000 [7] rfl] (sampleMap, some samplePolicy) =
      .ok outs s ∧
    (MapAccess.loadUnit .byte 0x1000).run s = .ok out s' ∧
    (out.length = 1 ∧ ∀ i < 1, ∀ b, lastStored [.store 0x1000 [7]] (0x1000 + i) = some b →
      out[i]? = some b) := by
  have hin : ∀ x ∈ [MapAccess.storeUnit .byte 0x1000 [7] rfl] ++ [.loadUnit .byte 0x1000],
      x.access.Within sampleMap := by
    simp [MapAccess.access, Access.Within, sampleMap, PolicyMemoryMap.init, attachPolicy,
      UnitSize.bytes]
  have hall : AllLoadWhole sampleMap samplePolicy.watches []
      [.store 0x1000 [7], .load 0x1000 1] := by
    refine ⟨trivial, Or.inr (Or.inl fun a h1 h2 => Or.inr ⟨_, List.mem_singleton_self _, ?_⟩),
      trivial⟩
    exact ⟨by decide, h1, h2⟩
  exact ⟨_, _, _, _, rfl, rfl,
    load_stored (m := sampleMap) (p := samplePolicy) rfl rfl rfl hin hall rfl rfl⟩

/-- **A stored byte can be lost**: after storing the byte `7`, loading the word there returns a
random word. -/
theorem load_lost : ∃ outs s out s',
    MapAccess.performAll [.storeUnit .byte 0x1000 [7] rfl] (sampleMap, some samplePolicy) =
      .ok outs s ∧
    (MapAccess.loadUnit .word 0x1000).run s = .ok out s' ∧
    lastStored [.store 0x1000 [7]] 0x1000 = some 7 ∧ out[0]? = some 0 :=
  ⟨_, _, _, _, rfl, rfl, rfl, rfl⟩

end Microx
