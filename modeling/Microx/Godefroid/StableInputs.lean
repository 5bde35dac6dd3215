import Microx.Godefroid.ProgramData

/-!
# Microx.Godefroid.StableInputs

Whether a program that reads an input twice sees the same value.

`_load_policy` notes which bytes have been read but never looks at that note:
each watched load that meets a byte not marked as written invents all its bytes
anew.  So inputs are stable exactly as long as no such load covers a byte that
was loaded before and not stored since (`LoadsFresh`): a run of loads that keep
to this returns the same value for a byte every time (`loads_stable`), and two
loads of one byte in a row may differ (`loads_unstable`).
-/

namespace Microx

open Hoare InputMemoryPolicy PolicyMemoryMap

/-! ## what a program has loaded -/

/-- The access covers the byte. -/
def Access.Covers (a : Nat) : Access → Prop
  | load addr n => addr ≤ a ∧ a < addr + n
  | store addr data => addr ≤ a ∧ a < addr + data.length

/-- Which bytes have been loaded and not stored since, one access later. -/
def Access.remember : Access → (Nat → Prop) → Nat → Prop
  | load addr n, f => fun a => (load addr n).Covers a ∨ f a
  | store addr data, f => fun a => ¬(store addr data).Covers a ∧ f a

/-- The byte has been loaded and not stored since. -/
def Remembered (accs : List Access) : Nat → Prop :=
  accs.foldl (fun f acc => acc.remember f) fun _ => False

theorem remembered_append (accs : List Access) (acc : Access) :
    Remembered (accs ++ [acc]) = acc.remember (Remembered accs) := by
  simp [Remembered]

/-- A byte stays remembered while no store covers it. -/
theorem Remembered.append {a : Nat} {before : List Access} (h : Remembered before a)
    (mid : List Access) (hmid : ∀ acc ∈ mid, ∀ addr data, acc = .store addr data → ¬acc.Covers a) :
    Remembered (before ++ mid) a := by
  induction mid generalizing before with
  | nil => simpa using h
  | cons acc mid ih =>
      have hstep : Remembered (before ++ [acc]) a := by
        rw [remembered_append]
        cases hacc : acc with
        | load addr n => exact Or.inr h
        | store addr data =>
            have := hmid acc List.mem_cons_self addr data hacc
            rw [hacc] at this
            exact ⟨this, h⟩
      have := ih hstep fun x hx => hmid x (List.mem_cons_of_mem _ hx)
      simpa using this

/-- The condition on a load: the policy does not watch it, or all its bytes were marked as written
(at the start, or by a watched store since), or it covers no remembered byte. -/
def LoadsFresh (m : PolicyMemoryMap) (w : Nat → Bool) (before : List Access) : Access → Prop
  | .load addr n =>
      w addr = false ∨
      (∀ a, addr ≤ a → a < addr + n → m.Written a ∨ ∃ acc ∈ before, acc.Watched w a) ∨
      ∀ a, addr ≤ a → a < addr + n → ¬Remembered before a
  | .store _ _ => True

/-- Every access of a run meets the condition where it stands. -/
def AllLoadFresh (m : PolicyMemoryMap) (w : Nat → Bool) : List Access → List Access → Prop
  | _, [] => True
  | before, acc :: accs => LoadsFresh m w before acc ∧ AllLoadFresh m w (before ++ [acc]) accs

theorem allLoadFresh_append {m : PolicyMemoryMap} {w : Nat → Bool} (accs accs' : List Access) :
    ∀ before, AllLoadFresh m w before (accs ++ accs') ↔
      AllLoadFresh m w before accs ∧ AllLoadFresh m w (before ++ accs) accs' := by
  induction accs with
  | nil => simp [AllLoadFresh]
  | cons acc accs ih =>
      intro before
      simp only [List.cons_append, AllLoadFresh, ih, and_assoc, List.append_assoc,
        List.nil_append]

/-! ## the flags of a run -/

/-- After the accesses `before` the map is the same up to its bytes, and its flags tell which
bytes lie in watched stores. -/
structure Follows (m : PolicyMemoryMap) (p : InputMemoryPolicy) (before : List Access)
    (s : PolicyMemoryMap × Option InputMemoryPolicy) : Prop where
  same : SameMap m s.1
  policy : ∃ p', s.2 = some p' ∧ p'.watches = p.watches
  written : ∀ a, s.1.Written a ↔ m.Written a ∨ ∃ acc ∈ before, acc.Watched p.watches a

theorem follows_nil (m : PolicyMemoryMap) (p : InputMemoryPolicy) : Follows m p [] (m, some p) where
  same := SameMap.refl m
  policy := ⟨p, rfl, rfl⟩
  written a := by simp

/-- What an access does to the bytes: a load changes only its own, and none when it invents
nothing; a store changes only its own. -/
def Access.Changes (w : Nat → Bool) (m m' : PolicyMemoryMap) (acc : Access) : Prop :=
  match acc with
  | .load addr n => (w addr = false ∨ ∀ a, addr ≤ a → a < addr + n → m.Written a) →
      ∀ a, m'.byteAt a = m.byteAt a
  | .store _ _ => True

/-- **An access** keeps what the flags tell, and the bytes it does not cover. -/
theorem Follows.step {m : PolicyMemoryMap} {p : InputMemoryPolicy} {before : List Access}
    {s s' : PolicyMemoryMap × Option InputMemoryPolicy} {acc : MapAccess} {out : List Byte}
    (h : Follows m p before s) (hm : m.policy = .input) (hwf : m.WellFormed)
    (hin : acc.access.Within m) (hrun : acc.run s = .ok out s') :
    Follows m p (before ++ [acc.access]) s' ∧
      (∀ a, m.base ≤ a → ¬acc.access.Covers a → s'.1.byteAt a = s.1.byteAt a) ∧
      acc.access.Changes p.watches s.1 s'.1 ∧
      ∀ addr n, acc.access = .load addr n →
        out = (List.range n).map fun i => s'.1.byteAt (addr + i) := by
  obtain ⟨m₁, q⟩ := s
  obtain ⟨p₁, hp₁, hw⟩ := h.policy
  subst hp₁
  have hm₁ : m₁.policy = .input := h.same.policy.trans hm
  cases ha : acc.access with
  | load addr n =>
      rw [ha] at hin
      rw [MapAccess.run_load ha] at hrun
      have hc : m₁.Contains addr n := Contains.of_sameMap ⟨hwf, hin.1, hin.2⟩ h.same
      obtain ⟨heff, hout⟩ := loadBytes_effect hm₁ hc hrun
      obtain ⟨p', hp', hshow⟩ := heff.policy
      refine ⟨⟨h.same.trans heff.same, ⟨p', hp', hshow.1.trans hw⟩, fun a => ?_⟩,
        fun a hbase => ?_, ?_, ?_⟩
      · rw [heff.written, h.written, exists_watched_append]
        simp [Access.Watched]
      · exact heff.outside a (by rw [h.same.base]; exact hbase)
      · rw [Access.Changes, ← hw]
        exact heff.kept
      · rintro _ _ ⟨⟩
        exact hout
  | store addr data =>
      rw [ha] at hin
      have hc : m₁.Contains addr data.length := Contains.of_sameMap ⟨hwf, hin.1, hin.2⟩ h.same
      have heff := storeBytes_effect hm₁ hc (MapAccess.run_store ha hrun)
      obtain ⟨p', hp', hshow⟩ := heff.policy
      refine ⟨⟨h.same.trans heff.same, ⟨p', hp', hshow.1.trans hw⟩, fun a => ?_⟩,
        fun a hbase hout => ?_, trivial, by simp⟩
      · rw [heff.written, h.written, exists_watched_append, hw, or_assoc]
        rfl
      · have hnot : ¬(addr ≤ a ∧ a < addr + data.length) := hout
        rw [heff.byteAt a (by rw [h.same.base]; exact hbase), if_neg hnot]

/-- **A run** keeps what the flags tell. -/
theorem Follows.performAll {m : PolicyMemoryMap} {p : InputMemoryPolicy} (hm : m.policy = .input)
    (hwf : m.WellFormed) (accs : List MapAccess) :
    ∀ before s s' outs, Follows m p before s → (∀ acc ∈ accs, acc.access.Within m) →
      MapAccess.performAll accs s = .ok outs s' →
      Follows m p (before ++ accs.map MapAccess.access) s' := by
  induction accs with
  | nil =>
      intro before s s' outs h _ hrun
      simp only [MapAccess.performAll, run_pure, EStateM.Result.ok.injEq] at hrun
      rw [← hrun.2]
      simpa using h
  | cons acc accs ih =>
      intro before s s' outs h hin hrun
      obtain ⟨out, outs', s₁, hacc, hrest⟩ := MapAccess.performAll_cons hrun
      have hstep := (h.step hm hwf (hin acc List.mem_cons_self) hacc).1
      have := ih _ s₁ s' outs' hstep (fun x hx => hin x (List.mem_cons_of_mem _ hx)) hrest
      simpa using this

/-! ## a remembered byte -/

/-- A remembered byte keeps its value through an access that meets the condition and does not
store it. -/
theorem Follows.byteAt_step {m : PolicyMemoryMap} {p : InputMemoryPolicy} {before : List Access}
    {s s' : PolicyMemoryMap × Option InputMemoryPolicy} {acc : MapAccess} {out : List Byte} {a : Nat}
    (h : Follows m p before s) (hm : m.policy = .input) (hwf : m.WellFormed)
    (hin : acc.access.Within m) (hrun : acc.run s = .ok out s') (hbase : m.base ≤ a)
    (hrem : Remembered before a) (hfresh : LoadsFresh m p.watches before acc.access)
    (hstore : ∀ addr data, acc.access = .store addr data → ¬acc.access.Covers a) :
    s'.1.byteAt a = s.1.byteAt a := by
  obtain ⟨-, houtside, hchanges, -⟩ := h.step hm hwf hin hrun
  by_cases hcov : acc.access.Covers a
  · cases ha : acc.access with
    | store addr data => exact absurd hcov (hstore addr data ha)
    | load addr n =>
        rw [ha] at hcov hchanges hfresh
        apply hchanges
        rcases hfresh with hnot | hall | hnone
        · exact Or.inl hnot
        · exact Or.inr fun a' h1 h2 => (h.written a').mpr (hall a' h1 h2)
        · exact absurd hrem (hnone a hcov.1 hcov.2)
  · exact houtside a hbase hcov

/-- A remembered byte keeps its value through a run that meets the condition and does not store
it. -/
theorem Follows.byteAt_performAll {m : PolicyMemoryMap} {p : InputMemoryPolicy} {a : Nat}
    (hm : m.policy = .input) (hwf : m.WellFormed) (hbase : m.base ≤ a) (accs : List MapAccess) :
    ∀ before s s' outs, Follows m p before s → Remembered before a →
      (∀ acc ∈ accs, acc.access.Within m) →
      AllLoadFresh m p.watches before (accs.map MapAccess.access) →
      (∀ acc ∈ accs, ∀ addr data, acc.access = .store addr data → ¬acc.access.Covers a) →
      MapAccess.performAll accs s = .ok outs s' → s'.1.byteAt a = s.1.byteAt a := by
  induction accs with
  | nil =>
      intro before s s' outs _ _ _ _ _ hrun
      simp only [MapAccess.performAll, run_pure, EStateM.Result.ok.injEq] at hrun
      rw [← hrun.2]
  | cons acc accs ih =>
      intro before s s' outs h hrem hin hall hstore hrun
      obtain ⟨out, outs', s₁, hacc, hrest⟩ := MapAccess.performAll_cons hrun
      have hfirst := hstore acc List.mem_cons_self
      have hwithin := hin acc List.mem_cons_self
      have hrem₁ : Remembered (before ++ [acc.access]) a :=
        hrem.append [acc.access] (by simpa using hfirst)
      have hrest := ih _ s₁ s' outs' (h.step hm hwf hwithin hacc).1 hrem₁
        (fun x hx => hin x (List.mem_cons_of_mem _ hx)) hall.2
        (fun x hx => hstore x (List.mem_cons_of_mem _ hx)) hrest
      exact hrest.trans (h.byteAt_step hm hwf hwithin hacc hbase hrem hall.1 hfirst)

/-- The byte of a loaded range, in the bytes the load returns. -/
theorem getElem?_loaded {m : PolicyMemoryMap} {out : List Byte} {addr n a : Nat}
    (hout : out = (List.range n).map fun i => m.byteAt (addr + i)) (hle : addr ≤ a)
    (hlt : a < addr + n) : out[a - addr]? = some (m.byteAt a) := by
  rw [hout, List.getElem?_map, List.getElem?_range (by omega), Option.map_some,
    show addr + (a - addr) = a by omega]

/-! ## stable inputs -/

/-- **Inputs are stable** in every run whose loads are all watched nowhere, written everywhere, or
cover no byte loaded before and not stored since: two loads of a byte with no store of it between
them return the same value for it. -/
theorem loads_stable {m : PolicyMemoryMap} {p : InputMemoryPolicy} {accs mid : List MapAccess}
    {acc₁ acc₂ : MapAccess} {addr₁ n₁ addr₂ n₂ a : Nat} {outs outs' : List (List Byte)}
    {out₁ out₂ : List Byte} {s₁ s₂ s₃ s₄ : PolicyMemoryMap × Option InputMemoryPolicy}
    (hm : m.policy = .input) (hwf : m.WellFormed) (hacc₁ : acc₁.access = .load addr₁ n₁)
    (hacc₂ : acc₂.access = .load addr₂ n₂)
    (hin : ∀ x ∈ accs ++ acc₁ :: mid ++ [acc₂], x.access.Within m)
    (hall : AllLoadFresh m p.watches []
      ((accs ++ acc₁ :: mid ++ [acc₂]).map MapAccess.access))
    (hrun : MapAccess.performAll accs (m, some p) = .ok outs s₁)
    (hload₁ : acc₁.run s₁ = .ok out₁ s₂) (hmid : MapAccess.performAll mid s₂ = .ok outs' s₃)
    (hload₂ : acc₂.run s₃ = .ok out₂ s₄) (ha₁ : acc₁.access.Covers a) (ha₂ : acc₂.access.Covers a)
    (hstore : ∀ x ∈ mid, ∀ addr data, x.access = .store addr data → ¬x.access.Covers a) :
    ∃ b, out₁[a - addr₁]? = some b ∧ out₂[a - addr₂]? = some b := by
  have hin₁ := hin acc₁ (by simp)
  have hin₂ := hin acc₂ (by simp)
  have hinMid : ∀ x ∈ mid, x.access.Within m := fun x hx => hin x (by simp [hx])
  simp only [List.map_append, List.map_cons, List.map_nil, List.append_assoc, List.cons_append,
    allLoadFresh_append, AllLoadFresh, List.nil_append, and_true] at hall
  obtain ⟨-, -, hallMid, hlast⟩ := hall
  -- after the first load the byte is remembered
  have hf₁ := (follows_nil m p).performAll hm hwf accs [] _ s₁ outs
    (fun x hx => hin x (by simp [hx])) hrun
  rw [List.nil_append] at hf₁
  obtain ⟨hf₂, -, -, hout₁⟩ := hf₁.step hm hwf hin₁ hload₁
  have hrem₂ : Remembered (accs.map MapAccess.access ++ [acc₁.access]) a := by
    rw [remembered_append, hacc₁]
    rw [hacc₁] at ha₁
    exact Or.inl ha₁
  have hbase : m.base ≤ a := by
    rw [hacc₁] at hin₁ ha₁
    exact Nat.le_trans hin₁.1 ha₁.1
  -- so it keeps its value up to the second load, and through it
  have hf₃ := hf₂.performAll hm hwf mid _ s₂ s₃ outs' hinMid hmid
  have hrem₃ := hrem₂.append (mid.map MapAccess.access) (by
    simp only [List.mem_map, forall_exists_index, and_imp, forall_apply_eq_imp_iff₂]
    exact hstore)
  have hkept := hf₂.byteAt_performAll hm hwf hbase mid _ s₂ s₃ outs' hrem₂ hinMid hallMid hstore
    hmid
  obtain ⟨-, -, -, hout₂⟩ := hf₃.step hm hwf hin₂ hload₂
  have hstep := hf₃.byteAt_step hm hwf hin₂ hload₂ hbase hrem₃ (by simpa using hlast)
    (by simp [hacc₂])
  rw [hacc₁] at ha₁
  rw [hacc₂] at ha₂
  refine ⟨s₂.1.byteAt a, getElem?_loaded (hout₁ addr₁ n₁ hacc₁) ha₁.1 ha₁.2, ?_⟩
  rw [getElem?_loaded (hout₂ addr₂ n₂ hacc₂) ha₂.1 ha₂.2, hstep, hkept]

/-- A stored byte, loaded twice with a load of a fresh input in between. -/
theorem loads_stable_byte : ∃ outs s₁ out₁ s₂ outs' s₃ out₂ s₄,
    MapAccess.performAll [.storeUnit .byte 0x1000 [7] rfl] (sampleMap, some samplePolicy) =
      .ok outs s₁ ∧
    (MapAccess.loadUnit .byte 0x1000).run s₁ = .ok out₁ s₂ ∧
    MapAccess.performAll [.loadUnit .dword 0x1004] s₂ = .ok outs' s₃ ∧
    (MapAccess.loadUnit .byte 0x1000).run s₃ = .ok out₂ s₄ ∧
    ∃ b, out₁[0x1000 - 0x1000]? = some b ∧ out₂[0x1000 - 0x1000]? = some b := by
  have hin : ∀ x ∈ [MapAccess.storeUnit .byte 0x1000 [7] rfl] ++ .loadUnit .byte 0x1000 ::
      [.loadUnit .dword 0x1004] ++ [.loadUnit .byte 0x1000], x.access.Within sampleMap := by
    simp [MapAccess.access, Access.Within, sampleMap, PolicyMemoryMap.init, attachPolicy,
      UnitSize.bytes]
  have hwritten (accs : List Access) : LoadsFresh sampleMap samplePolicy.watches
      (.store 0x1000 [7] :: accs) (.load 0x1000 1) :=
    Or.inr (Or.inl fun a h1 h2 => Or.inr ⟨_, List.mem_cons_self, by decide, h1, h2⟩)
  have hfresh : LoadsFresh sampleMap samplePolicy.watches [.store 0x1000 [7], .load 0x1000 1]
      (.load 0x1004 4) := by
    refine Or.inr (Or.inr fun a h1 h2 => ?_)
    simp only [Remembered, List.foldl_cons, List.foldl_nil, Access.remember, Access.Covers,
      List.length_singleton, and_false, or_false]
    omega
  exact ⟨_, _, _, _, _, _, _, _, rfl, rfl, rfl, rfl,
    loads_stable (m := sampleMap) (p := samplePolicy) rfl rfl rfl rfl hin
      ⟨trivial, hwritten _, hfresh, hwritten _, trivial⟩ rfl rfl rfl rfl
      ⟨Nat.le_refl _, by decide⟩ ⟨Nat.le_refl _, by decide⟩ (by simp [MapAccess.access])⟩

/-- **Inputs can change**: a double word loaded twice in a row is two different pointers. -/
theorem loads_unstable : ∃ out₁ out₂ s,
    MapAccess.performAll [.loadUnit .dword 0x1000, .loadUnit .dword 0x1000]
      (sampleMap, some samplePolicy) = .ok [out₁, out₂] s ∧
    out₁[1]? = some 0x80 ∧ out₂[1]? = some 0x84 :=
  ⟨_, _, _, rfl, rfl, rfl⟩

end Microx
