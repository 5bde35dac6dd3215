import Mathlib

/-!
# Triples for state with exceptions

Hoare triples over `EStateM ε σ`, one execution (`Triple`) and two executions
side by side (`RelTriple`).  An `EStateM` computation that raises keeps the
state it had reached, so a triple has two postconditions, one for a result and
one for an exception; both speak about the state left behind.

A relational triple relates two runs that end the same way: both return, or
both raise.  The rules follow the syntax of `do` blocks; the loop rules carry
an invariant through `List.forM`.
-/

namespace Hoare

variable {ε σ α β : Type}

/-! ## running a `do` block -/

theorem run_bind_ok {m : EStateM ε σ α} {f : α → EStateM ε σ β} {s s' : σ} {a : α}
    (h : m s = .ok a s') : (m >>= f) s = f a s' := by
  change EStateM.bind m f s = _
  rw [EStateM.bind, h]

theorem run_bind_error {m : EStateM ε σ α} {f : α → EStateM ε σ β} {s s' : σ} {e : ε}
    (h : m s = .error e s') : (m >>= f) s = .error e s' := by
  change EStateM.bind m f s = _
  rw [EStateM.bind, h]

/-- A block that returns went through both its parts. -/
theorem bind_eq_ok {m : EStateM ε σ α} {f : α → EStateM ε σ β} {s s' : σ} {b : β} :
    (m >>= f) s = .ok b s' ↔ ∃ a s₁, m s = .ok a s₁ ∧ f a s₁ = .ok b s' := by
  constructor
  · intro h
    cases hm : m s with
    | ok a s₁ => rw [run_bind_ok hm] at h; exact ⟨a, s₁, rfl, h⟩
    | error e s₁ => rw [run_bind_error hm] at h; contradiction
  · rintro ⟨a, s₁, hm, hf⟩
    rw [run_bind_ok hm, hf]

@[simp] theorem run_pure (a : α) (s : σ) : (pure a : EStateM ε σ α) s = .ok a s := rfl

@[simp] theorem run_throw (e : ε) (s : σ) : (throw e : EStateM ε σ α) s = .error e s := rfl

@[simp] theorem run_get (s : σ) : (get : EStateM ε σ σ) s = .ok s s := rfl

@[simp] theorem run_map_get (f : σ → α) (s : σ) :
    (f <$> get : EStateM ε σ α) s = .ok (f s) s := rfl

@[simp] theorem run_map_throw (f : α → β) (e : ε) (s : σ) :
    (f <$> throw e : EStateM ε σ β) s = .error e s := rfl

@[simp] theorem run_modify (f : σ → σ) (s : σ) :
    (modify f : EStateM ε σ PUnit) s = .ok ⟨⟩ (f s) := rfl

@[simp] theorem run_get_bind (f : σ → EStateM ε σ β) (s : σ) :
    (get >>= f) s = f s s := rfl

@[simp] theorem run_modify_bind (g : σ → σ) (f : PUnit → EStateM ε σ β) (s : σ) :
    (modify g >>= f) s = f ⟨⟩ (g s) := rfl

@[simp] theorem run_throw_bind (e : ε) (f : α → EStateM ε σ β) (s : σ) :
    ((throw e : EStateM ε σ α) >>= f) s = .error e s := rfl

/-- Rounds that do nothing can be left out of a loop. -/
theorem forM_filter {p : α → Bool} {f : α → EStateM ε σ PUnit}
    (h : ∀ a, p a = false → f a = pure ⟨⟩) (l : List α) : l.forM f = (l.filter p).forM f := by
  have hcons (a : α) (l : List α) : (a :: l).forM f = f a >>= fun _ => l.forM f := rfl
  induction l with
  | nil => rfl
  | cons a l ih =>
      cases hp : p a with
      | true =>
          rw [List.filter_cons, if_pos hp, hcons, hcons, ih]
      | false =>
          rw [List.filter_cons, if_neg (by simp [hp]), hcons, h a hp, ← ih]
          rfl

/-! ## one execution -/

/-- A result meets its postcondition: `Q` when it returned, `E` when it raised. -/
def Meets (Q : α → σ → Prop) (E : ε → σ → Prop) : EStateM.Result ε σ α → Prop
  | .ok a s => Q a s
  | .error e s => E e s

@[simp] theorem meets_ok {Q : α → σ → Prop} {E : ε → σ → Prop} {a : α} {s : σ} :
    Meets Q E (.ok a s) ↔ Q a s := Iff.rfl

@[simp] theorem meets_error {Q : α → σ → Prop} {E : ε → σ → Prop} {e : ε} {s : σ} :
    Meets Q E (.error e s : EStateM.Result ε σ α) ↔ E e s := Iff.rfl

/-- `{P} m {Q | E}`. -/
def Triple (P : σ → Prop) (m : EStateM ε σ α) (Q : α → σ → Prop) (E : ε → σ → Prop) : Prop :=
  ∀ s, P s → Meets Q E (m s)

section Unary

variable {P P' : σ → Prop} {Q Q' : α → σ → Prop} {R : β → σ → Prop} {E E' : ε → σ → Prop}

/-- The rule of consequence. -/
theorem Triple.conseq {m : EStateM ε σ α} (h : Triple P m Q E) (hp : ∀ s, P' s → P s)
    (hq : ∀ a s, Q a s → Q' a s) (he : ∀ e s, E e s → E' e s) : Triple P' m Q' E' := by
  intro s hs
  have hm := h s (hp s hs)
  cases hr : m s with
  | ok a s' => rw [hr] at hm; exact hq a s' hm
  | error e s' => rw [hr] at hm; exact he e s' hm

theorem Triple.pre {m : EStateM ε σ α} (h : Triple P m Q E) (hp : ∀ s, P' s → P s) :
    Triple P' m Q E :=
  h.conseq hp (fun _ _ hq => hq) fun _ _ he => he

theorem Triple.post {m : EStateM ε σ α} (h : Triple P m Q E) (hq : ∀ a s, Q a s → Q' a s) :
    Triple P m Q' E :=
  h.conseq (fun _ hp => hp) hq fun _ _ he => he

/-- Two triples for one computation. -/
theorem Triple.and {m : EStateM ε σ α} (h : Triple P m Q E) (h' : Triple P' m Q' E') :
    Triple (fun s => P s ∧ P' s) m (fun a s => Q a s ∧ Q' a s) fun e s => E e s ∧ E' e s := by
  intro s hs
  have hm := h s hs.1
  have hm' := h' s hs.2
  cases hr : m s with
  | ok a s' => rw [hr] at hm hm'; exact ⟨hm, hm'⟩
  | error e s' => rw [hr] at hm hm'; exact ⟨hm, hm'⟩

/-- What does not speak of the state stays. -/
theorem Triple.and_const {m : EStateM ε σ α} (h : Triple P m Q E) (p : Prop) :
    Triple (fun s => P s ∧ p) m (fun a s => Q a s ∧ p) fun e s => E e s ∧ p := by
  rintro s ⟨hs, hp⟩
  have hm := h s hs
  cases hr : m s with
  | ok a s' => rw [hr] at hm; exact ⟨hm, hp⟩
  | error e s' => rw [hr] at hm; exact ⟨hm, hp⟩

theorem Triple.pure {a : α} (h : ∀ s, P s → Q a s) : Triple P (Pure.pure a) Q E :=
  fun s hs => h s hs

theorem Triple.throw {e : ε} (h : ∀ s, P s → E e s) : Triple P (throw e) Q E :=
  fun s hs => h s hs

/-- A change of the state that keeps an assertion. -/
theorem Triple.update {f : σ → σ} (h : ∀ s, P s → P (f s)) :
    Triple P (modify f) (fun _ => P) E :=
  fun s hs => h s hs

theorem Triple.modify {f : σ → σ} {Q : PUnit → σ → Prop} (h : ∀ s, P s → Q ⟨⟩ (f s)) :
    Triple P (modify f) Q E :=
  fun s hs => h s hs

/-- Sequencing, with the intermediate assertion `Q`. -/
theorem Triple.bind {m : EStateM ε σ α} {f : α → EStateM ε σ β} (hm : Triple P m Q E)
    (hf : ∀ a, Triple (Q a) (f a) R E) : Triple P (m >>= f) R E := by
  intro s hs
  have h := hm s hs
  cases hr : m s with
  | ok a s' =>
      rw [hr] at h
      rw [run_bind_ok hr]
      exact hf a s' h
  | error e s' =>
      rw [hr] at h
      rw [run_bind_error hr]
      exact h

/-- Reading the state fixes it for the rest of the block. -/
theorem Triple.get {f : σ → EStateM ε σ β} (h : ∀ s, P s → Triple (· = s) (f s) R E) :
    Triple P (MonadState.get >>= f) R E :=
  fun s hs => h s hs s rfl

/-- Reading the state, where the rest of the block is fine for any state read. -/
theorem Triple.read {f : σ → EStateM ε σ β} (h : ∀ s, Triple P (f s) R E) :
    Triple P (MonadState.get >>= f) R E :=
  fun s hs => h s s hs

theorem Triple.ite {c : Prop} [Decidable c] {m m' : EStateM ε σ α}
    (ht : c → Triple P m Q E) (hf : ¬c → Triple P m' Q E) :
    Triple P (if c then m else m') Q E := by
  by_cases h : c
  · rw [if_pos h]; exact ht h
  · rw [if_neg h]; exact hf h

/-- A loop keeps an invariant that every round keeps. -/
theorem Triple.forM {l : List α} {f : α → EStateM ε σ PUnit}
    (h : ∀ a ∈ l, Triple P (f a) (fun _ => P) E) : Triple P (l.forM f) (fun _ => P) E := by
  induction l with
  | nil => exact Triple.pure fun _ hs => hs
  | cons a l ih =>
      refine Triple.bind (h a List.mem_cons_self) fun _ => ?_
      exact ih fun b hb => h b (List.mem_cons_of_mem a hb)

end Unary

/-! ## one execution that returns -/

/-- From `s` the computation returns, with a result that meets `Q`. -/
def Returns (m : EStateM ε σ α) (s : σ) (Q : α → σ → Prop) : Prop :=
  ∃ a s', m s = .ok a s' ∧ Q a s'

section Total

variable {m : EStateM ε σ α} {f : α → EStateM ε σ β} {s : σ} {Q Q' : α → σ → Prop}
  {R : β → σ → Prop}

theorem Returns.bind (hm : Returns m s Q) (hf : ∀ a s', Q a s' → Returns (f a) s' R) :
    Returns (m >>= f) s R := by
  obtain ⟨a, s', hrun, hq⟩ := hm
  obtain ⟨b, s'', hrun', hr⟩ := hf a s' hq
  exact ⟨b, s'', by rw [run_bind_ok hrun, hrun'], hr⟩

/-- The first part of a block, run. -/
theorem Returns.bind_ok {a : α} {s' : σ} (hrun : m s = .ok a s') (hf : Returns (f a) s' R) :
    Returns (m >>= f) s R := by
  unfold Returns
  rw [run_bind_ok hrun]
  exact hf

theorem Returns.post (h : Returns m s Q) (hq : ∀ a s', Q a s' → Q' a s') : Returns m s Q' := by
  obtain ⟨a, s', hrun, h⟩ := h
  exact ⟨a, s', hrun, hq a s' h⟩

theorem Returns.pure {a : α} (h : Q a s) : Returns (Pure.pure a : EStateM ε σ α) s Q :=
  ⟨a, s, rfl, h⟩

end Total

/-! ## two executions -/

/-- Two results end the same way and meet the postcondition of that way. -/
def RelMeets (Q : α → α → σ → σ → Prop) (E : ε → ε → σ → σ → Prop) :
    EStateM.Result ε σ α → EStateM.Result ε σ α → Prop
  | .ok a s, .ok b t => Q a b s t
  | .error e s, .error f t => E e f s t
  | _, _ => False

/-- `{P} m₁ ~ m₂ {Q | E}`. -/
def RelTriple (P : σ → σ → Prop) (m₁ m₂ : EStateM ε σ α) (Q : α → α → σ → σ → Prop)
    (E : ε → ε → σ → σ → Prop) : Prop :=
  ∀ s t, P s t → RelMeets Q E (m₁ s) (m₂ t)

section Relational

variable {P P' : σ → σ → Prop} {Q Q' : α → α → σ → σ → Prop} {R : β → β → σ → σ → Prop}
  {E E' : ε → ε → σ → σ → Prop} {m₁ m₂ : EStateM ε σ α}

theorem RelTriple.conseq (h : RelTriple P m₁ m₂ Q E) (hp : ∀ s t, P' s t → P s t)
    (hq : ∀ a b s t, Q a b s t → Q' a b s t) (he : ∀ e f s t, E e f s t → E' e f s t) :
    RelTriple P' m₁ m₂ Q' E' := by
  intro s t hst
  have hm := h s t (hp s t hst)
  cases h₁ : m₁ s with
  | ok a s' =>
      cases h₂ : m₂ t with
      | ok b t' => rw [h₁, h₂] at hm; exact hq a b s' t' hm
      | error f t' => rw [h₁, h₂] at hm; exact hm.elim
  | error e s' =>
      cases h₂ : m₂ t with
      | ok b t' => rw [h₁, h₂] at hm; exact hm.elim
      | error f t' => rw [h₁, h₂] at hm; exact he e f s' t' hm

theorem RelTriple.pure {a b : α} (h : ∀ s t, P s t → Q a b s t) :
    RelTriple P (Pure.pure a) (Pure.pure b) Q E :=
  fun s t hst => h s t hst

theorem RelTriple.throw {e f : ε} (h : ∀ s t, P s t → E e f s t) :
    RelTriple P (throw e : EStateM ε σ α) (MonadExcept.throw f) Q E :=
  fun s t hst => h s t hst

theorem RelTriple.modify {f g : σ → σ} {Q : PUnit → PUnit → σ → σ → Prop}
    (h : ∀ s t, P s t → Q ⟨⟩ ⟨⟩ (f s) (g t)) : RelTriple P (modify f) (modify g) Q E :=
  fun s t hst => h s t hst

theorem RelTriple.bind {f₁ f₂ : α → EStateM ε σ β} (hm : RelTriple P m₁ m₂ Q E)
    (hf : ∀ a b, RelTriple (Q a b) (f₁ a) (f₂ b) R E) :
    RelTriple P (m₁ >>= f₁) (m₂ >>= f₂) R E := by
  intro s t hst
  have h := hm s t hst
  cases h₁ : m₁ s with
  | ok a s' =>
      cases h₂ : m₂ t with
      | ok b t' =>
          rw [h₁, h₂] at h
          rw [run_bind_ok h₁, run_bind_ok h₂]
          exact hf a b s' t' h
      | error f t' => rw [h₁, h₂] at h; exact h.elim
  | error e s' =>
      cases h₂ : m₂ t with
      | ok b t' => rw [h₁, h₂] at h; exact h.elim
      | error f t' =>
          rw [h₁, h₂] at h
          rw [run_bind_error h₁, run_bind_error h₂]
          exact h

/-- Both executions take the same branch. -/
theorem RelTriple.ite {c d : Prop} [Decidable c] [Decidable d] {n₁ n₂ : EStateM ε σ α}
    (hcd : c ↔ d) (ht : c → RelTriple P m₁ m₂ Q E) (hf : ¬c → RelTriple P n₁ n₂ Q E) :
    RelTriple P (if c then m₁ else n₁) (if d then m₂ else n₂) Q E := by
  by_cases h : c
  · rw [if_pos h, if_pos (hcd.mp h)]; exact ht h
  · rw [if_neg h, if_neg fun hd => h (hcd.mpr hd)]; exact hf h

/-- Two loops over one list keep a relation that every pair of rounds keeps. -/
theorem RelTriple.forM {l : List α} {f₁ f₂ : α → EStateM ε σ PUnit}
    (h : ∀ a ∈ l, RelTriple P (f₁ a) (f₂ a) (fun _ _ => P) E) :
    RelTriple P (l.forM f₁) (l.forM f₂) (fun _ _ => P) E := by
  induction l with
  | nil => exact RelTriple.pure fun _ _ hst => hst
  | cons a l ih =>
      refine RelTriple.bind (h a List.mem_cons_self) fun _ _ => ?_
      exact ih fun b hb => h b (List.mem_cons_of_mem a hb)

end Relational

end Hoare
