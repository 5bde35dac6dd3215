import Microx.Godefroid.PolicyAccess

/-!
# Microx.Godefroid.Outputs

Which bytes `get_outputs` reports after a run of accesses to a policy map.

The policy records one size for each start address, the one of the last store
that starts there.  So a report never holds a byte that was not stored, and it
holds all that were exactly when every stored byte still lies in some store
that is the last one at its start (`outputs_exact_iff`).
-/

namespace Microx

open Hoare InputMemoryPolicy PolicyMemoryMap

/-! ## the last store at each start address -/

/-- The size of the last store at each start address. -/
abbrev LastSizes := Nat → Option Nat

/-- One access later. -/
def Access.resize : Access → LastSizes → LastSizes
  | load _ _, f => f
  | store addr data, f => fun k => if k = addr then some data.length else f k

def lastSizes (accs : List Access) : LastSizes :=
  accs.foldl (fun f acc => acc.resize f) fun _ => none

theorem lastSizes_append (accs : List Access) (acc : Access) :
    lastSizes (accs ++ [acc]) = acc.resize (lastSizes accs) := by
  simp [lastSizes]

/-- The byte lies in a store that is the last one at its start address. -/
def InLastStore (accs : List Access) (a : Nat) : Prop :=
  ∃ k n, lastSizes accs k = some n ∧ k ≤ a ∧ a < k + n

/-- The program stored to the byte. -/
def IsStored (accs : List Access) (a : Nat) : Prop := ∃ acc ∈ accs, acc.Stores a

theorem isStored_append (accs : List Access) (acc : Access) (a : Nat) :
    IsStored (accs ++ [acc]) a ↔ IsStored accs a ∨ acc.Stores a := by
  simp only [IsStored, List.mem_append, List.mem_singleton, or_and_right, exists_or,
    exists_eq_left]

/-- Every last store is a store. -/
theorem InLastStore.isStored {accs : List Access} {a : Nat} (h : InLastStore accs a) :
    IsStored accs a := by
  induction accs using List.reverseRecOn with
  | nil =>
      obtain ⟨k, n, hk, -⟩ := h
      simp [lastSizes] at hk
  | append_singleton accs acc ih =>
      obtain ⟨k, n, hk, ha⟩ := h
      rw [isStored_append]
      cases acc with
      | load addr m => exact Or.inl (ih ⟨k, n, by rwa [lastSizes_append] at hk, ha⟩)
      | store addr data =>
          simp only [lastSizes_append, Access.resize] at hk
          by_cases hka : k = addr
          · rw [if_pos hka, Option.some.injEq] at hk
            subst hk hka
            exact Or.inr ha
          · rw [if_neg hka] at hk
            exact Or.inl (ih ⟨k, n, hk, ha⟩)

/-! ## the record of a run -/

/-- After the accesses `before`, the policy has recorded the last store at each start. -/
structure Records (m : PolicyMemoryMap) (p : InputMemoryPolicy) (before : List Access)
    (s : PolicyMemoryMap × Option InputMemoryPolicy) : Prop where
  same : SameMap m s.1
  policy : ∃ p', s.2 = some p' ∧ p'.watches = p.watches ∧ p'.knownOutputs.get? = lastSizes before

/-- An access whose start the policy watches keeps the record. -/
theorem Records.step {m : PolicyMemoryMap} {p : InputMemoryPolicy} {before : List Access}
    {acc : MapAccess} {s s' : PolicyMemoryMap × Option InputMemoryPolicy} {out : List Byte}
    (h : Records m p before s) (hm : m.policy = .input) (hwf : m.WellFormed)
    (hin : acc.access.Within m) (hw : p.watches acc.access.addr = true)
    (hrun : acc.run s = .ok out s') : Records m p (before ++ [acc.access]) s' := by
  obtain ⟨m₁, q⟩ := s
  obtain ⟨p₁, hp₁, hwatch, hout⟩ := h.policy
  subst hp₁
  have hm₁ := h.same.policy.trans hm
  cases ha : acc.access with
  | load addr n =>
      rw [ha] at hin hw
      rw [MapAccess.run_load ha] at hrun
      have hc : m.Contains addr n := ⟨hwf, hin.1, hin.2⟩
      have heff := (loadBytes_effect hm₁ (hc.of_sameMap h.same) hrun).1
      obtain ⟨p', hp', hshow⟩ := heff.policy
      refine ⟨h.same.trans heff.same, p', hp', hshow.1.trans hwatch, ?_⟩
      rw [lastSizes_append, hshow.2]
      exact hout
  | store addr data =>
      rw [ha] at hin hw
      have hc : m.Contains addr data.length := ⟨hwf, hin.1, hin.2⟩
      have heff := storeBytes_effect hm₁ (hc.of_sameMap h.same) (MapAccess.run_store ha hrun)
      obtain ⟨p', hp', hshow⟩ := heff.policy
      refine ⟨h.same.trans heff.same, p', hp', hshow.1.trans hwatch, funext fun k => ?_⟩
      have hw₁ : p₁.watches addr = true := by rw [hwatch]; exact hw
      rw [lastSizes_append, hshow.2, if_pos hw₁, PyDict.get?_set, hout]
      rfl

/-- A run keeps the record. -/
theorem Records.performAll {m : PolicyMemoryMap} {p : InputMemoryPolicy} (hm : m.policy = .input)
    (hwf : m.WellFormed) (accs : List MapAccess) :
    ∀ before s s' outs, Records m p before s → (∀ acc ∈ accs, acc.access.Within m) →
      (∀ acc ∈ accs, p.watches acc.access.addr = true) →
      MapAccess.performAll accs s = .ok outs s' →
      Records m p (before ++ accs.map MapAccess.access) s' := by
  induction accs with
  | nil =>
      intro before s s' outs h _ _ hrun
      simp only [MapAccess.performAll, run_pure, EStateM.Result.ok.injEq] at hrun
      simpa [← hrun.2] using h
  | cons acc accs ih =>
      intro before s s' outs h hin hw hrun
      obtain ⟨out, outs', s₁, hacc, hrest⟩ := MapAccess.performAll_cons hrun
      have hstep := h.step hm hwf (hin acc List.mem_cons_self) (hw acc List.mem_cons_self) hacc
      have := ih _ s₁ s' outs' hstep (fun x hx => hin x (List.mem_cons_of_mem _ hx))
        (fun x hx => hw x (List.mem_cons_of_mem _ hx)) hrest
      simpa using this

/-! ## the report -/

/-- What `get_outputs` reports after a run. -/
theorem getOutputs_run {m m' : PolicyMemoryMap} {p p' : InputMemoryPolicy}
    (accs : List MapAccess) {outs : List (List Byte)} (hm : m.policy = .input)
    (hwf : m.WellFormed) (hnew : p.knownOutputs = PyDict.empty)
    (hin : ∀ acc ∈ accs, acc.access.Within m)
    (hw : ∀ acc ∈ accs, p.watches acc.access.addr = true)
    (hrun : MapAccess.performAll accs (m, some p) = .ok outs (m', some p')) (a : Nat) :
    Areas.Covers id p'.getOutputs a ↔ InLastStore (accs.map MapAccess.access) a := by
  have hstart : Records m p [] (m, some p) :=
    ⟨SameMap.refl m, p, rfl, rfl, by rw [hnew]; rfl⟩
  obtain ⟨-, p₁, hp₁, -, hout⟩ := hstart.performAll hm hwf accs [] _ _ outs hin hw hrun
  obtain rfl : p' = p₁ := Option.some.inj hp₁
  rw [getOutputs_covers, Areas.Covers, hout]
  rfl

/-- **The report is exact** if and only if every stored byte lies in a store that is the last one
at its start address. -/
theorem outputs_exact_iff {m m' : PolicyMemoryMap} {p p' : InputMemoryPolicy}
    (accs : List MapAccess) {outs : List (List Byte)} (hm : m.policy = .input)
    (hwf : m.WellFormed) (hnew : p.knownOutputs = PyDict.empty)
    (hin : ∀ acc ∈ accs, acc.access.Within m)
    (hw : ∀ acc ∈ accs, p.watches acc.access.addr = true)
    (hrun : MapAccess.performAll accs (m, some p) = .ok outs (m', some p')) :
    (∀ a, Areas.Covers id p'.getOutputs a ↔ IsStored (accs.map MapAccess.access) a) ↔
      ∀ a, IsStored (accs.map MapAccess.access) a →
        InLastStore (accs.map MapAccess.access) a := by
  have hreport := getOutputs_run accs hm hwf hnew hin hw hrun
  constructor
  · intro h a ha
    rw [← hreport, h]
    exact ha
  · intro h a
    rw [hreport]
    exact ⟨InLastStore.isStored, h a⟩

/-- Two stores that do not overlap. -/
def disjointStores : List MapAccess :=
  [.storeUnit .word 0x1000 [1, 2] rfl, .storeUnit .byte 0x1008 [3] rfl]

/-- The report on two stores that do not overlap. -/
theorem outputs_exact_disjoint : ∃ outs m' p',
    MapAccess.performAll disjointStores (sampleMap, some samplePolicy) = .ok outs (m', some p') ∧
    ((∀ a, Areas.Covers id p'.getOutputs a ↔
        IsStored (disjointStores.map MapAccess.access) a) ↔
      ∀ a, IsStored (disjointStores.map MapAccess.access) a →
        InLastStore (disjointStores.map MapAccess.access) a) := by
  refine ⟨_, _, _, rfl, outputs_exact_iff (m := sampleMap) (p := samplePolicy) disjointStores
    rfl rfl rfl ?_ ?_ rfl⟩
  · simp [disjointStores, MapAccess.access, Access.Within, sampleMap, PolicyMemoryMap.init,
      attachPolicy]
  · simp [disjointStores, MapAccess.access, Access.addr, samplePolicy, InputMemoryPolicy.init,
      watches]

/-- A word, and then a byte at the same address. -/
def shrinkingStores : List MapAccess :=
  [.storeUnit .word 0x1000 [1, 2] rfl, .storeUnit .byte 0x1000 [3] rfl]

/-- **An output byte can be lost**: a byte stored at the start of a stored word leaves the word's
second byte out of the report. -/
theorem output_lost : ∃ outs m' p',
    MapAccess.performAll shrinkingStores (sampleMap, some samplePolicy) = .ok outs (m', some p') ∧
    IsStored (shrinkingStores.map MapAccess.access) 0x1001 ∧
    ¬Areas.Covers id p'.getOutputs 0x1001 := by
  refine ⟨_, _, _, rfl, ⟨_, List.mem_cons_self, by decide, by decide⟩, ?_⟩
  rw [getOutputs_run (m := sampleMap) (p := samplePolicy) shrinkingStores rfl rfl rfl
    (by simp [shrinkingStores, MapAccess.access, Access.Within, sampleMap, PolicyMemoryMap.init,
      attachPolicy])
    (by simp [shrinkingStores, MapAccess.access, Access.addr, samplePolicy,
      InputMemoryPolicy.init, watches]) rfl]
  rintro ⟨k, n, hk, h1, h2⟩
  simp only [shrinkingStores, List.map_cons, List.map_nil, MapAccess.access, lastSizes,
    List.foldl_cons, List.foldl_nil, Access.resize] at hk
  split at hk
  · simp at hk
    omega
  · contradiction

end Microx
