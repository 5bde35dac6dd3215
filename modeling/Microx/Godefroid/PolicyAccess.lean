import Microx.Godefroid.PolicyMap
import Microx.Memory.Flat

/-!
# Microx.Godefroid.PolicyAccess

What an in-range access does to a policy map that has an input policy, and the
runs of such accesses.

* `Loaded`, `Stored`: the effect of one load or store that raises nothing;
* `loadBytes_effect`, `storeBytes_effect`: every in-range access has it;
* `perform`: a run of accesses by the methods of the map.
-/

namespace Microx

namespace PolicyMemoryMap

open Hoare InputMemoryPolicy

/-! ## effects -/

/-- The map is the same up to its bytes and flags. -/
structure SameMap (m m' : PolicyMemoryMap) : Prop where
  base : m'.base = m.base
  limit : m'.limit = m.limit
  policy : m'.policy = m.policy
  length : m'.data.length = m.data.length

theorem SameMap.refl (m : PolicyMemoryMap) : SameMap m m := ⟨rfl, rfl, rfl, rfl⟩

theorem SameMap.trans {m₁ m₂ m₃ : PolicyMemoryMap} (h : SameMap m₁ m₂) (h' : SameMap m₂ m₃) :
    SameMap m₁ m₃ :=
  ⟨h'.base.trans h.base, h'.limit.trans h.limit, h'.policy.trans h.policy,
    h'.length.trans h.length⟩

theorem Contains.of_sameMap {m m' : PolicyMemoryMap} {addr n : Nat} (h : m.Contains addr n)
    (hs : SameMap m m') : m'.Contains addr n where
  wellFormed := by
    have : m.data.length = m.limit - m.base := h.wellFormed
    rw [WellFormed, hs.length, hs.limit, hs.base, this]
  base_le := by rw [hs.base]; exact h.base_le
  le_limit := by rw [hs.limit]; exact h.le_limit

/-- The program has written the byte, as far as the map knows. -/
def Written (m : PolicyMemoryMap) (a : Nat) : Prop := (m.flag a).written = true

/-- The effect of a load: it may replace the bytes it loads, unless the policy does not watch its
address or all of them are marked as written. -/
structure Loaded (m : PolicyMemoryMap) (p : InputMemoryPolicy) (addr n : Nat)
    (s : PolicyMemoryMap × Option InputMemoryPolicy) : Prop where
  same : SameMap m s.1
  policy : ∃ p', s.2 = some p' ∧ Shows p.watches p.knownOutputs p'
  written : ∀ a, s.1.Written a ↔ m.Written a
  outside : ∀ a, m.base ≤ a → ¬(addr ≤ a ∧ a < addr + n) → s.1.byteAt a = m.byteAt a
  kept : (p.watches addr = false ∨ ∀ a, addr ≤ a → a < addr + n → m.Written a) →
    ∀ a, s.1.byteAt a = m.byteAt a

/-- The effect of a store: it replaces the bytes, and is recorded if the policy watches its
address. -/
structure Stored (m : PolicyMemoryMap) (p : InputMemoryPolicy) (addr : Nat) (data : List Byte)
    (s : PolicyMemoryMap × Option InputMemoryPolicy) : Prop where
  same : SameMap m s.1
  policy : ∃ p', s.2 = some p' ∧ Shows p.watches
    (if p.watches addr then p.knownOutputs.set addr data.length else p.knownOutputs) p'
  written : ∀ a, s.1.Written a ↔
    m.Written a ∨ (p.watches addr = true ∧ addr ≤ a ∧ a < addr + data.length)
  byteAt : ∀ a, m.base ≤ a →
    s.1.byteAt a = if addr ≤ a ∧ a < addr + data.length then data.getD (a - addr) 0
      else m.byteAt a

/-! ## flags -/

/-- Reading the flags after a change of a range of them. -/
theorem flag_setFrom (m : PolicyMemoryMap) (addr n : Nat) (g : PolicyFlags → PolicyFlags)
    (a : Nat) :
    flag { m with accessMap := m.accessMap.setFrom addr ((m.flagList addr n).map g) } a =
      if addr ≤ a ∧ a < addr + n then g (m.flag a) else m.flag a := by
  have hlen : ((m.flagList addr n).map g).length = n := by simp [flagList]
  simp only [flag, PyDict.get?_setFrom, hlen]
  by_cases hin : addr ≤ a ∧ a < addr + n
  · rw [if_pos hin, if_pos hin, List.getElem?_map, flagList, List.getElem?_map,
      List.getElem?_range (by omega)]
    simp only [Option.map_some, Option.getD_some, show addr + (a - addr) = a by omega]
    rfl
  · rw [if_neg hin, if_neg hin]

/-- The callback of a load runs only if a byte is not marked as written. -/
theorem any_not_written (m : PolicyMemoryMap) (addr n : Nat) :
    (m.flagList addr n).any (fun x => !x.written) = false ↔
      ∀ a, addr ≤ a → a < addr + n → m.Written a := by
  simp only [flagList, List.any_eq_false, List.mem_map, List.mem_range, Bool.not_eq_true,
    Bool.not_eq_false', Written, forall_exists_index, and_imp, forall_apply_eq_imp_iff₂]
  constructor
  · intro h a h1 h2
    have := h (a - addr) (by omega)
    rwa [show addr + (a - addr) = a by omega] at this
  · exact fun h i hi => h (addr + i) (by omega) (by omega)

/-! ## the callbacks -/

/-- The effect of a callback: the bytes of the range may be replaced. -/
structure Replaced (m : PolicyMemoryMap) (addr n : Nat) (m' : PolicyMemoryMap) : Prop where
  same : SameMap m m'
  accessMap : m'.accessMap = m.accessMap
  outside : ∀ a, m.base ≤ a → ¬(addr ≤ a ∧ a < addr + n) → m'.byteAt a = m.byteAt a

theorem callInput_ok {α : Type} {f : PolicyM α} {m : PolicyMemoryMap} {p : InputMemoryPolicy}
    {a : α} {s : PolicyMemoryMap × Option InputMemoryPolicy}
    (h : callInput f (m, some p) = .ok a s) : ∃ p', f p = .ok a p' ∧ s = (m, some p') := by
  unfold callInput at h
  cases hf : f p with
  | ok b p' =>
      simp only [hf, EStateM.Result.ok.injEq] at h
      exact ⟨p', by rw [h.1], h.2.symm⟩
  | error e p' => simp [hf] at h

/-- `replaceData` with a callback that only changes the policy. -/
theorem replaceData_ok {callback : Nat → Nat → List Byte → PolicyMethod (List Byte)}
    {m : PolicyMemoryMap} {p : InputMemoryPolicy} {addr n : Nat}
    {s : PolicyMemoryMap × Option InputMemoryPolicy} (hc : m.Contains addr n)
    (h : replaceData callback addr n (m, some p) = .ok () s) :
    ∃ new s₁, callback addr n ((List.range n).map fun i => m.byteAt (addr + i)) (m, some p) =
        .ok new s₁ ∧ new.length = n ∧
      s = (s₁.1.setSlice ((addr : Int) - m.base) ((addr : Int) - m.base + n) new, s₁.2) := by
  unfold replaceData at h
  rw [run_get_bind] at h
  simp only [slice_eq hc] at h
  obtain ⟨new, s₁, hcall, h⟩ := bind_eq_ok.mp h
  obtain ⟨u, s₂, hassert, h⟩ := bind_eq_ok.mp h
  by_cases hlen : new.length = n
  · simp only [pyAssert, hlen, beq_self_eq_true, if_true, run_pure, EStateM.Result.ok.injEq,
      true_and] at hassert
    rw [← hassert, run_modify, EStateM.Result.ok.injEq] at h
    exact ⟨new, s₁, hcall, hlen, h.2.symm⟩
  · simp [pyAssert, hlen] at hassert

theorem readBeforeWrite_ok {m : PolicyMemoryMap} {p : InputMemoryPolicy} {addr n : Nat}
    {data new : List Byte} {s : PolicyMemoryMap × Option InputMemoryPolicy}
    (hm : m.policy = .input) (h : readBeforeWrite addr n data (m, some p) = .ok new s) :
    ∃ p', s = (m, some p') ∧ Shows p.watches p.knownOutputs p' := by
  unfold readBeforeWrite at h
  rw [run_get_bind] at h
  simp only [hm] at h
  obtain ⟨p', hrun, hs⟩ := callInput_ok h
  have := readBeforeWrite_frame (w := p.watches) (o := p.knownOutputs) addr n data p ⟨rfl, rfl⟩
  rw [hrun] at this
  exact ⟨p', hs, this⟩

theorem writeBeforeRead_ok {m : PolicyMemoryMap} {p : InputMemoryPolicy} {addr n : Nat}
    {data new : List Byte} {s : PolicyMemoryMap × Option InputMemoryPolicy}
    (hm : m.policy = .input) (h : writeBeforeRead addr n data (m, some p) = .ok new s) :
    new = data ∧ ∃ p', s = (m, some p') ∧ Shows p.watches (p.knownOutputs.set addr n) p' := by
  unfold writeBeforeRead at h
  rw [run_get_bind] at h
  simp only [hm] at h
  obtain ⟨p', hrun, hs⟩ := callInput_ok h
  have := writeBeforeRead_triple (w := p.watches) (o := p.knownOutputs) addr n data p ⟨rfl, rfl⟩
  rw [hrun] at this
  exact ⟨this.1, p', hs, this.2⟩

theorem addOutput_ok {m : PolicyMemoryMap} {p : InputMemoryPolicy} {addr n : Nat}
    {s : PolicyMemoryMap × Option InputMemoryPolicy}
    (hm : m.policy = .input) (h : addOutput addr n (m, some p) = .ok () s) :
    ∃ p', s = (m, some p') ∧ Shows p.watches (p.knownOutputs.set addr n) p' := by
  unfold addOutput at h
  rw [run_get_bind] at h
  simp only [hm] at h
  obtain ⟨p', hrun, hs⟩ := callInput_ok h
  have := addOutput_triple (w := p.watches) (o := p.knownOutputs) addr n p ⟨rfl, rfl⟩
  rw [hrun] at this
  exact ⟨p', hs, this⟩

/-- What replacing a slice does to the map. -/
theorem replaced_setSlice {m : PolicyMemoryMap} {addr n : Nat} {new : List Byte}
    (hc : m.Contains addr n) (hnew : new.length = n) :
    Replaced m addr n (m.setSlice ((addr : Int) - m.base) ((addr : Int) - m.base + n) new) where
  same := ⟨rfl, rfl, rfl, by
    have := PyList.length_setSlice hc.fits hnew
    rw [← hc.offset_eq] at this
    exact this⟩
  accessMap := rfl
  outside a ha hout := by
    have := byteAt_setSlice hc hnew ha
    rwa [if_neg hout] at this

/-- Putting the slice back that is there changes no byte. -/
theorem byteAt_setSlice_self {m : PolicyMemoryMap} {addr n : Nat} (hc : m.Contains addr n) {a : Nat}
    (ha : m.base ≤ a) :
    (m.setSlice ((addr : Int) - m.base) ((addr : Int) - m.base + n)
      ((List.range n).map fun i => m.byteAt (addr + i))).byteAt a = m.byteAt a := by
  rw [byteAt_setSlice hc (by simp) ha]
  by_cases hin : addr ≤ a ∧ a < addr + n
  · rw [if_pos hin, List.getD_eq_getElem?_getD, List.getElem?_map,
      List.getElem?_range (by omega), Option.map_some, Option.getD_some,
      show addr + (a - addr) = a by omega]
  · rw [if_neg hin]

/-- The callback of a load. -/
theorem loadCallback_ok {m : PolicyMemoryMap} {p : InputMemoryPolicy} {addr n : Nat}
    {s : PolicyMemoryMap × Option InputMemoryPolicy} (hm : m.policy = .input)
    (hc : m.Contains addr n)
    (h : loadCallback (m.flagList addr n) addr n (m, some p) = .ok () s) :
    Replaced m addr n s.1 ∧ (∃ p', s.2 = some p' ∧ Shows p.watches p.knownOutputs p') ∧
      ((∀ a, addr ≤ a → a < addr + n → m.Written a) → s.1 = m) := by
  unfold loadCallback at h
  split at h
  case isTrue hany =>
    obtain ⟨new, s₁, hcall, hlen, rfl⟩ := replaceData_ok hc h
    obtain ⟨p', rfl, hp'⟩ := readBeforeWrite_ok hm hcall
    refine ⟨replaced_setSlice hc hlen, ⟨p', rfl, hp'⟩, fun hall => ?_⟩
    rw [(any_not_written m addr n).mpr hall] at hany
    contradiction
  case isFalse hany =>
    simp only [run_pure, EStateM.Result.ok.injEq, true_and] at h
    subst h
    exact ⟨⟨SameMap.refl m, rfl, fun _ _ _ => rfl⟩, ⟨p, rfl, rfl, rfl⟩, fun _ => rfl⟩

/-- The callback of a store: whichever it is, it records the output and changes no byte. -/
theorem storeCallback_ok {m : PolicyMemoryMap} {p : InputMemoryPolicy} {addr n : Nat}
    {s : PolicyMemoryMap × Option InputMemoryPolicy} (hm : m.policy = .input)
    (hc : m.Contains addr n)
    (h : storeCallback (m.flagList addr n) addr n (m, some p) = .ok () s) :
    Replaced m addr n s.1 ∧
      (∃ p', s.2 = some p' ∧ Shows p.watches (p.knownOutputs.set addr n) p') ∧
      ∀ a, m.base ≤ a → s.1.byteAt a = m.byteAt a := by
  unfold storeCallback at h
  split at h
  case isTrue hany =>
    obtain ⟨new, s₁, hcall, hlen, rfl⟩ := replaceData_ok hc h
    obtain ⟨rfl, p', rfl, hp'⟩ := writeBeforeRead_ok hm hcall
    exact ⟨replaced_setSlice hc hlen, ⟨p', rfl, hp'⟩, fun a ha => byteAt_setSlice_self hc ha⟩
  case isFalse hany =>
    obtain ⟨p', rfl, hp'⟩ := addOutput_ok hm h
    exact ⟨⟨SameMap.refl m, rfl, fun _ _ _ => rfl⟩, ⟨p', rfl, hp'⟩, fun _ _ => rfl⟩

/-! ## one access -/

theorem handleLoad_run {m : PolicyMemoryMap} {p : InputMemoryPolicy} {addr : Nat}
    (hm : m.policy = .input) : handleLoad addr (m, some p) = .ok (p.watches addr) (m, some p) := by
  simp [handleLoad, hm, callInput, InputMemoryPolicy.handleLoad]

theorem handleStore_run {m : PolicyMemoryMap} {p : InputMemoryPolicy} {addr : Nat}
    (hm : m.policy = .input) : handleStore addr (m, some p) = .ok (p.watches addr) (m, some p) := by
  simp [handleStore, hm, callInput, InputMemoryPolicy.handleStore]

/-- **The effect of `_load_policy`.** -/
theorem loadPolicy_effect {m : PolicyMemoryMap} {p : InputMemoryPolicy} {addr n : Nat}
    {s : PolicyMemoryMap × Option InputMemoryPolicy} (hm : m.policy = .input)
    (hc : m.Contains addr n) (h : loadPolicy addr n (m, some p) = .ok () s) :
    Loaded m p addr n s := by
  rw [loadPolicy, run_bind_ok (handleLoad_run hm)] at h
  cases hw : p.watches addr with
  | false =>
      simp only [hw, Bool.false_eq_true, if_false, run_pure, EStateM.Result.ok.injEq,
        true_and] at h
      subst h
      exact ⟨SameMap.refl m, ⟨p, rfl, rfl, rfl⟩, fun _ => Iff.rfl, fun _ _ _ => rfl,
        fun _ _ => rfl⟩
  | true =>
      simp only [hw, if_true] at h
      rw [run_get_bind] at h
      obtain ⟨u, s₁, hcall, h⟩ := bind_eq_ok.mp h
      obtain ⟨hrep, ⟨p', hs₁, hp'⟩, hkept⟩ := loadCallback_ok hm hc hcall
      simp only [setFlags, run_modify, EStateM.Result.ok.injEq, true_and] at h
      subst h
      refine ⟨⟨hrep.same.base, hrep.same.limit, hrep.same.policy, hrep.same.length⟩,
        ⟨p', hs₁, hp'⟩, fun a => ?_, hrep.outside, fun hall a => ?_⟩
      · have := flag_setFrom m addr n (fun x => { x with read := true }) a
        rw [Written, Written, flag, hrep.accessMap]
        unfold flag at this
        rw [this]
        split <;> rfl
      · rw [hw] at hall
        have := hkept (hall.resolve_left (by simp))
        change s₁.1.byteAt a = m.byteAt a
        rw [this]

/-- **The effect of a store.** -/
theorem storeBytes_effect {m : PolicyMemoryMap} {p : InputMemoryPolicy} {addr : Nat}
    {data : List Byte} {s : PolicyMemoryMap × Option InputMemoryPolicy} (hm : m.policy = .input)
    (hc : m.Contains addr data.length) (h : storeBytes addr data (m, some p) = .ok () s) :
    Stored m p addr data s := by
  obtain ⟨u, s₁, hpol, h⟩ := bind_eq_ok.mp h
  -- what `_store_policy` leaves
  have hpolicy : SameMap m s₁.1 ∧ (∃ p', s₁.2 = some p' ∧ Shows p.watches
      (if p.watches addr then p.knownOutputs.set addr data.length else p.knownOutputs) p') ∧
      (∀ a, s₁.1.Written a ↔
        m.Written a ∨ (p.watches addr = true ∧ addr ≤ a ∧ a < addr + data.length)) ∧
      ∀ a, m.base ≤ a → s₁.1.byteAt a = m.byteAt a := by
    rw [storePolicy, run_bind_ok (handleStore_run hm)] at hpol
    cases hw : p.watches addr with
    | false =>
        simp only [hw, Bool.false_eq_true, if_false, run_pure, EStateM.Result.ok.injEq,
          true_and] at hpol
        subst hpol
        exact ⟨SameMap.refl m, ⟨p, rfl, rfl, rfl⟩, by simp, fun _ _ => rfl⟩
    | true =>
        simp only [hw, if_true] at hpol
        rw [run_get_bind] at hpol
        obtain ⟨v, s₂, hcall, hpol⟩ := bind_eq_ok.mp hpol
        obtain ⟨hrep, ⟨p', hs₂, hp'⟩, hbytes⟩ := storeCallback_ok hm hc hcall
        simp only [setFlags, run_modify, EStateM.Result.ok.injEq, true_and] at hpol
        subst hpol
        refine ⟨⟨hrep.same.base, hrep.same.limit, hrep.same.policy, hrep.same.length⟩,
          ⟨p', hs₂, hp'⟩, fun a => ?_, hbytes⟩
        have := flag_setFrom m addr data.length (fun x => { x with written := true }) a
        rw [Written, Written, flag, hrep.accessMap]
        unfold flag at this
        rw [this]
        by_cases hin : addr ≤ a ∧ a < addr + data.length
        · simp [hin]
        · rw [if_neg hin]
          constructor
          · exact Or.inl
          · rintro (hwr | ⟨-, hin'⟩)
            · exact hwr
            · exact absurd hin' hin
  obtain ⟨hsame, ⟨p', hs₁, hp'⟩, hwritten, hbytes⟩ := hpolicy
  obtain ⟨m₁, q₁⟩ := s₁
  subst hs₁
  have hc₁ := hc.of_sameMap hsame
  rw [storeBytesRaw_ok _ hc₁] at h
  simp only [EStateM.Result.ok.injEq, true_and] at h
  subst h
  refine ⟨hsame.trans ⟨rfl, rfl, rfl, PyList.length_writeFrom _ _ _⟩, ⟨p', rfl, hp'⟩,
    hwritten, fun a ha => ?_⟩
  have ha₁ : m₁.base ≤ a := by rw [hsame.base]; exact ha
  rw [byteAt_putBytes hc₁ ha₁, hbytes a ha]

/-- **The effect of a load**, and what it returns: the bytes it leaves. -/
theorem loadBytes_effect {m : PolicyMemoryMap} {p : InputMemoryPolicy} {addr n : Nat}
    {out : List Byte} {s : PolicyMemoryMap × Option InputMemoryPolicy} (hm : m.policy = .input)
    (hc : m.Contains addr n) (h : loadBytes addr n (m, some p) = .ok out s) :
    Loaded m p addr n s ∧ out = (List.range n).map fun i => s.1.byteAt (addr + i) := by
  obtain ⟨u, s₁, hpol, h⟩ := bind_eq_ok.mp h
  have heff := loadPolicy_effect hm hc hpol
  rw [readData, run_get_bind] at h
  simp only [run_pure, EStateM.Result.ok.injEq] at h
  obtain ⟨rfl, rfl⟩ := h
  exact ⟨heff, slice_eq (hc.of_sameMap heff.same)⟩

end PolicyMemoryMap

/-! ## runs -/

/-- The sizes that have methods of their own. -/
inductive UnitSize where
  | byte
  | word
  | dword
  | qword
  deriving DecidableEq, Repr

def UnitSize.bytes : UnitSize → Nat
  | .byte => 1
  | .word => 2
  | .dword => 4
  | .qword => 8

/-- A call of a load or store method of a map; a unit store gets as many bytes as it stores. -/
inductive MapAccess where
  | loadUnit (size : UnitSize) (addr : Nat)
  | loadBytes (addr numBytes : Nat)
  | storeUnit (size : UnitSize) (addr : Nat) (data : List Byte) (h : data.length = size.bytes)
  | storeBytes (addr : Nat) (data : List Byte)

namespace MapAccess

open PolicyMemoryMap Hoare

/-- The access a call makes. -/
def access : MapAccess → Access
  | loadUnit size addr => .load addr size.bytes
  | loadBytes addr n => .load addr n
  | storeUnit _ addr data _ => .store addr data
  | storeBytes addr data => .store addr data

/-- Make the call; a store returns nothing. -/
def run : MapAccess → PolicyMethod (List Byte)
  | loadUnit size addr => PolicyMemoryMap.loadUnit addr size.bytes
  | loadBytes addr n => PolicyMemoryMap.loadBytes addr n
  | storeUnit size addr data _ => do
      PolicyMemoryMap.storeUnit addr size.bytes data
      return []
  | storeBytes addr data => do
      PolicyMemoryMap.storeBytes addr data
      return []

/-- Unit methods do what the methods for any number of bytes do. -/
theorem run_eq (acc : MapAccess) : acc.run = match acc.access with
    | .load addr n => PolicyMemoryMap.loadBytes addr n
    | .store addr data => do
        PolicyMemoryMap.storeBytes addr data
        return [] := by
  cases acc with
  | loadUnit size addr => rfl
  | loadBytes addr n => rfl
  | storeUnit size addr data h =>
      simp only [run, access, PolicyMemoryMap.storeUnit, PolicyMemoryMap.storeBytes, ← h,
        List.take_length]
  | storeBytes addr data => rfl

theorem run_load {acc : MapAccess} {addr n : Nat} (h : acc.access = .load addr n) :
    acc.run = PolicyMemoryMap.loadBytes addr n := by
  rw [run_eq, h]

theorem run_store {acc : MapAccess} {addr : Nat} {data out : List Byte}
    {s s' : PolicyMemoryMap × Option InputMemoryPolicy} (h : acc.access = .store addr data)
    (hrun : acc.run s = .ok out s') : PolicyMemoryMap.storeBytes addr data s = .ok () s' := by
  rw [run_eq, h] at hrun
  obtain ⟨u, s₁, hs, hr⟩ := bind_eq_ok.mp hrun
  simp only [run_pure, EStateM.Result.ok.injEq] at hr
  rw [hs, hr.2]

/-- Make one call after the other. -/
def performAll : List MapAccess → PolicyMethod (List (List Byte))
  | [] => pure []
  | acc :: accs => do
      let out ← acc.run
      let outs ← performAll accs
      return out :: outs

theorem performAll_cons {acc : MapAccess} {accs : List MapAccess} {outs : List (List Byte)}
    {s s' : PolicyMemoryMap × Option InputMemoryPolicy}
    (h : performAll (acc :: accs) s = .ok outs s') :
    ∃ out outs' s₁, acc.run s = .ok out s₁ ∧ performAll accs s₁ = .ok outs' s' := by
  obtain ⟨out, s₁, hrun, h⟩ := bind_eq_ok.mp h
  obtain ⟨outs', s₂, hrest, h⟩ := bind_eq_ok.mp h
  simp only [run_pure, EStateM.Result.ok.injEq] at h
  exact ⟨out, outs', s₁, hrun, by rw [hrest, h.2]⟩

end MapAccess

/-- The access lies inside the map. -/
def Access.Within (m : PolicyMemoryMap) : Access → Prop
  | load addr n => m.base ≤ addr ∧ addr + n ≤ m.limit
  | store addr data => m.base ≤ addr ∧ addr + data.length ≤ m.limit

/-- The start address of an access. -/
def Access.addr : Access → Nat
  | load addr _ => addr
  | store addr _ => addr

/-! ## a small map -/

/-- A map of 16 bytes with an input policy over all of it. -/
def sampleMap : PolicyMemoryMap :=
  PolicyMemoryMap.attachPolicy <|
    PolicyMemoryMap.init 0x1000 0x1010 samplePolicy.start_lt_stop ⟨true, true, false⟩ .default
      "[stack]"

end Microx
