import Microx.Lib.Triple

/-!
# Languages of logs

What a computation adds to a log, as a language of words.

`Emits` is a triple with two languages, one for the computations that return
and one for each exception.  Its rules follow the syntax of `do` blocks, and
the languages compose by the operations of Mathlib's `Language`: a block emits
a product, a loop over a list a product of what its rounds emit, and a body
that is repeated a power.
-/

namespace Hoare

variable {ε σ τ α β : Type}

/-! ## languages -/

/-- The words of one letter that satisfy `p`. -/
def letter (p : τ → Prop) : Language τ := {l | ∃ e, p e ∧ l = [e]}

theorem mem_letter {p : τ → Prop} {e : τ} (h : p e) : [e] ∈ letter p := ⟨e, h, rfl⟩

/-- A language for one exception, and nothing for the others. -/
def only [DecidableEq ε] (e₀ : ε) (L : Language τ) (e : ε) : Language τ := if e = e₀ then L else 0

theorem mul_only [DecidableEq ε] (e₀ : ε) (L F : Language τ) (e : ε) :
    L * only e₀ F e = only e₀ (L * F) e := by
  unfold only
  split
  · rfl
  · exact mul_zero L

/-- The words of a loop that was left in one of its rounds: `L` is for the rounds that were
finished, `F` for the one that was not. -/
def cut (L F : α → Language τ) : List α → Language τ
  | [] => 0
  | a :: l => F a + L a * cut L F l

theorem cut_append (L F : α → Language τ) (l l' : List α) :
    cut L F (l ++ l') = cut L F l + (l.map L).prod * cut L F l' := by
  induction l with
  | nil => simp [cut]
  | cons a l ih =>
      rw [List.cons_append, cut, ih, cut, List.map_cons, List.prod_cons, mul_add, ← add_assoc,
        ← mul_assoc]

/-- Nothing may happen in a loop whose rounds are optional. -/
theorem one_le_optionals (L : α → Language τ) (l : List α) :
    1 ≤ (l.map fun a => 1 + L a).prod := by
  induction l with
  | nil => exact le_rfl
  | cons a l ih =>
      rw [List.map_cons, List.prod_cons]
      exact ih.trans (le_mul_of_one_le_left' le_self_add)

/-- The words of fewer than `n` repetitions, and then a last one. -/
def fewer (n : Nat) (L F : Language τ) : Language τ := ⨆ k < n, L ^ k * F

theorem mem_fewer {n : Nat} {L F : Language τ} {l : List τ} :
    l ∈ fewer n L F ↔ ∃ k < n, l ∈ L ^ k * F := by
  simp [fewer, Language.mem_iSup]

theorem fewer_succ (n : Nat) (L F : Language τ) : F + L * fewer n L F ≤ fewer (n + 1) L F := by
  rintro l (hl | hl)
  · exact mem_fewer.mpr ⟨0, n.succ_pos, by rwa [pow_zero, one_mul]⟩
  · obtain ⟨a, ha, b, hb, rfl⟩ := hl
    obtain ⟨k, hk, hb⟩ := mem_fewer.mp hb
    refine mem_fewer.mpr ⟨k + 1, Nat.succ_lt_succ hk, ?_⟩
    rw [pow_succ', mul_assoc]
    exact Language.append_mem_mul ha hb

/-! ## emitting -/

/-- `log s'` is `log s` and a word of the language. -/
def Extends (log : σ → List τ) (L : Language τ) (s s' : σ) : Prop := ∃ l ∈ L, log s' = log s ++ l

/-- `{P} m {Q}`, where `m` adds a word of `L` to the log if it returns, and one of `E e` if it
raises `e`. -/
def Emits (log : σ → List τ) (P : σ → Prop) (m : EStateM ε σ α) (L : Language τ)
    (Q : α → σ → Prop) (E : ε → Language τ) : Prop :=
  ∀ s, P s → Meets (fun a s' => Q a s' ∧ Extends log L s s') (fun e s' => Extends log (E e) s s') (m s)

section

variable {log : σ → List τ} {P P' : σ → Prop} {Q Q' : α → σ → Prop} {R : β → σ → Prop}
  {L L' L₁ L₂ F : Language τ} {E E' E₁ E₂ : ε → Language τ} {m : EStateM ε σ α}

theorem Extends.refl (s : σ) : Extends log 1 s s := ⟨[], rfl, (List.append_nil _).symm⟩

theorem Extends.mono {s s' : σ} (h : Extends log L s s') (hl : L ≤ L') : Extends log L' s s' :=
  h.imp fun _ hw => ⟨hl hw.1, hw.2⟩

theorem Extends.trans {s s₁ s₂ : σ} (h : Extends log L₁ s s₁) (h' : Extends log L₂ s₁ s₂) :
    Extends log (L₁ * L₂) s s₂ := by
  obtain ⟨l₁, hl₁, hs₁⟩ := h
  obtain ⟨l₂, hl₂, hs₂⟩ := h'
  exact ⟨l₁ ++ l₂, Language.append_mem_mul hl₁ hl₂, by rw [hs₂, hs₁, List.append_assoc]⟩

/-- The rule of consequence. -/
theorem Emits.conseq (h : Emits log P m L Q E) (hp : ∀ s, P' s → P s) (hl : L ≤ L')
    (hq : ∀ a s, Q a s → Q' a s) (he : ∀ e, E e ≤ E' e) : Emits log P' m L' Q' E' := by
  intro s hs
  have hm := h s (hp s hs)
  cases hr : m s with
  | ok a s' => rw [hr] at hm; exact ⟨hq a s' hm.1, hm.2.mono hl⟩
  | error e s' => rw [hr] at hm; exact hm.mono (he e)

theorem Emits.pre (h : Emits log P m L Q E) (hp : ∀ s, P' s → P s) : Emits log P' m L Q E :=
  h.conseq hp le_rfl (fun _ _ hq => hq) fun _ => le_rfl

theorem Emits.mono (h : Emits log P m L Q E) (hl : L ≤ L') (he : ∀ e, E e ≤ E' e) :
    Emits log P m L' Q E' :=
  h.conseq (fun _ hp => hp) hl (fun _ _ hq => hq) he

theorem Emits.pure {a : α} (h : ∀ s, P s → Q a s) : Emits log P (Pure.pure a) 1 Q E :=
  fun s hs => ⟨h s hs, .refl s⟩

theorem Emits.throw [DecidableEq ε] (e : ε) :
    Emits log P (throw e : EStateM ε σ α) L Q (only e 1) := by
  intro s _
  rw [run_throw, meets_error, only, if_pos rfl]
  exact .refl s

/-- A change of the state that is not logged. -/
theorem Emits.modify {f : σ → σ} {Q : PUnit → σ → Prop} (hlog : ∀ s, log (f s) = log s)
    (h : ∀ s, P s → Q ⟨⟩ (f s)) : Emits log P (modify f) 1 Q E :=
  fun s hs => ⟨h s hs, [], rfl, by rw [hlog, List.append_nil]⟩

/-- Sequencing. -/
theorem Emits.bind {f : α → EStateM ε σ β} (hm : Emits log P m L₁ Q E₁)
    (hf : ∀ a, Emits log (Q a) (f a) L₂ R E₂) :
    Emits log P (m >>= f) (L₁ * L₂) R fun e => E₁ e + L₁ * E₂ e := by
  intro s hs
  have h := hm s hs
  cases hr : m s with
  | ok a s₁ =>
      rw [hr] at h
      rw [run_bind_ok hr]
      have h' := hf a s₁ h.1
      cases hr' : f a s₁ with
      | ok b s₂ => rw [hr'] at h'; exact ⟨h'.1, h.2.trans h'.2⟩
      | error e s₂ => rw [hr'] at h'; exact (h.2.trans h').mono le_add_self
  | error e s₁ =>
      rw [hr] at h
      rw [run_bind_error hr]
      exact Extends.mono h le_self_add

/-- A first part that logs nothing. -/
theorem Emits.quiet {f : α → EStateM ε σ β} (hm : Emits log P m 1 Q fun _ => 0)
    (hf : ∀ a, Emits log (Q a) (f a) L R E) : Emits log P (m >>= f) L R E :=
  (hm.bind hf).mono (one_mul L).le fun e => by rw [zero_add, one_mul]

/-- A last part that logs nothing. -/
theorem Emits.quiet_last {f : α → EStateM ε σ β} (hm : Emits log P m L Q E)
    (hf : ∀ a, Emits log (Q a) (f a) 1 R fun _ => 0) : Emits log P (m >>= f) L R E :=
  (hm.bind hf).mono (mul_one L).le fun e => by rw [mul_zero, add_zero]

/-- Sequencing, where the rest of the block depends on what the first part returned. -/
theorem Emits.bind_iSup {p : α → Prop} {L₂ : α → Language τ} {E₂ : α → ε → Language τ}
    {f : α → EStateM ε σ β} (hm : Emits log P m L₁ (fun a s => p a ∧ Q a s) E₁)
    (hf : ∀ a, p a → Emits log (Q a) (f a) (L₂ a) R (E₂ a)) :
    Emits log P (m >>= f) (L₁ * ⨆ (a) (_ : p a), L₂ a) R
      fun e => E₁ e + L₁ * ⨆ (a) (_ : p a), E₂ a e := by
  refine hm.bind fun a s hs => ?_
  exact (hf a hs.1).mono (le_iSup₂ (f := fun a _ => L₂ a) a hs.1)
    (fun e => le_iSup₂ (f := fun a _ => E₂ a e) a hs.1) s hs.2

/-- What is emitted depends on something about the state. -/
theorem Emits.iSup {γ : Type} {g : σ → γ} {L : γ → Language τ} {E : γ → ε → Language τ}
    (h : ∀ c, Emits log (fun s => P s ∧ g s = c) m (L c) Q (E c)) :
    Emits log P m (⨆ c, L c) Q fun e => ⨆ c, E c e :=
  fun s hs => (h (g s)).mono (le_iSup L (g s)) (fun e => le_iSup (fun c => E c e) (g s)) s ⟨hs, rfl⟩

/-- A triple for the same computation. -/
theorem Emits.and {E' : ε → σ → Prop} (h : Emits log P m L Q E) (ht : Triple P m Q' E') :
    Emits log P m L (fun a s => Q a s ∧ Q' a s) E := by
  intro s hs
  have hm := h s hs
  have hm' := ht s hs
  cases hr : m s with
  | ok a s' => rw [hr] at hm hm'; exact ⟨⟨hm.1, hm'⟩, hm.2⟩
  | error e s' => rw [hr] at hm; exact hm

theorem Emits.ite {c : Prop} [Decidable c] {m' : EStateM ε σ α} (ht : c → Emits log P m L Q E)
    (hf : ¬c → Emits log P m' L Q E) : Emits log P (if c then m else m') L Q E := by
  by_cases h : c
  · rw [if_pos h]; exact ht h
  · rw [if_neg h]; exact hf h

/-! ### answers -/

/-- `m` returns, and what it logs depends on the answer it got. -/
def Answered (log : σ → List τ) (P : σ → Prop) (m : EStateM ε σ α) (ok : α → Bool)
    (L F : Language τ) (Q : α → σ → Prop) : Prop :=
  ∀ s, P s → Returns m s fun a s' => Q a s' ∧ Extends log (if ok a then L else F) s s'

theorem Answered.bind {ok : α → Bool} {f : α → EStateM ε σ β} (hm : Answered log P m ok L F Q)
    (ht : ∀ a, ok a = true → Emits log (Q a) (f a) L₁ R E₁)
    (hf : ∀ a, ok a = false → Emits log (Q a) (f a) L₂ R E₂) :
    Emits log P (m >>= f) (L * L₁ + F * L₂) R fun e => L * E₁ e + F * E₂ e := by
  intro s hs
  obtain ⟨a, s₁, hr, hq, hlog⟩ := hm s hs
  rw [run_bind_ok hr]
  cases hok : ok a with
  | true =>
      rw [hok, if_pos rfl] at hlog
      have h := ht a hok s₁ hq
      cases hr' : f a s₁ with
      | ok b s₂ => rw [hr'] at h; exact ⟨h.1, (hlog.trans h.2).mono le_self_add⟩
      | error e s₂ => rw [hr'] at h; exact (hlog.trans h).mono le_self_add
  | false =>
      rw [hok, if_neg Bool.false_ne_true] at hlog
      have h := hf a hok s₁ hq
      cases hr' : f a s₁ with
      | ok b s₂ => rw [hr'] at h; exact ⟨h.1, (hlog.trans h.2).mono le_add_self⟩
      | error e s₂ => rw [hr'] at h; exact (hlog.trans h).mono le_add_self

/-- An answer that is checked: the block goes on, or ends with an exception. -/
theorem Answered.check [DecidableEq ε] {e : ε} {F₁ : Language τ} {ok : α → Bool}
    {f : α → EStateM ε σ β} (hm : Answered log P m ok L F Q)
    (ht : ∀ a, ok a = true → Emits log (Q a) (f a) L₁ R (only e F₁))
    (hf : ∀ a, ok a = false → Emits log (Q a) (f a) 0 R (only e 1)) :
    Emits log P (m >>= f) (L * L₁) R (only e (F + L * F₁)) := by
  refine (hm.bind ht hf).mono ?_ fun e' => ?_
  · rw [mul_zero, add_zero]
  · unfold only
    split
    · rw [mul_one, add_comm]
    · rw [mul_zero, mul_zero, add_zero]

/-- The same, where the block has nothing more to log. -/
theorem Answered.check_last [DecidableEq ε] {e : ε} {ok : α → Bool} {f : α → EStateM ε σ β}
    (hm : Answered log P m ok L F Q)
    (ht : ∀ a, ok a = true → Emits log (Q a) (f a) 1 R fun _ => 0)
    (hf : ∀ a, ok a = false → Emits log (Q a) (f a) 0 R (only e 1)) :
    Emits log P (m >>= f) L R (only e F) := by
  have hgood (a : α) (ha : ok a = true) : Emits log (Q a) (f a) 1 R (only e 0) :=
    (ht a ha).mono le_rfl fun _ => bot_le
  exact (hm.check hgood hf).mono (mul_one L).le fun _ => by rw [mul_zero, add_zero]

/-- An answer that ends the block, or has it go on. -/
theorem Answered.retry [DecidableEq ε] {e : ε} {F₂ : Language τ} {ok : α → Bool}
    {f : α → EStateM ε σ β} (hm : Answered log P m ok L F Q)
    (ht : ∀ a, ok a = true → Emits log (Q a) (f a) 1 R fun _ => 0)
    (hf : ∀ a, ok a = false → Emits log (Q a) (f a) L₂ R (only e F₂)) :
    Emits log P (m >>= f) (L + F * L₂) R (only e (F * F₂)) := by
  refine (hm.bind ht hf).mono ?_ fun e' => ?_
  · rw [mul_one]
  · unfold only
    split
    · rw [mul_zero, zero_add]
    · rw [mul_zero, mul_zero, zero_add]

/-! ### loops -/

/-- A loop over a list, whose rounds end in one exception only. -/
theorem Emits.forM [DecidableEq ε] {e : ε} {L F : α → Language τ} {f : α → EStateM ε σ PUnit}
    {l : List α} (h : ∀ a ∈ l, Emits log P (f a) (L a) (fun _ => P) (only e (F a))) :
    Emits log P (l.forM f) (l.map L).prod (fun _ => P) (only e (cut L F l)) := by
  induction l with
  | nil => exact Emits.pure fun _ hs => hs
  | cons a l ih =>
      have hrest := ih fun b hb => h b (List.mem_cons_of_mem a hb)
      refine ((h a List.mem_cons_self).bind fun _ => hrest).mono ?_ fun e' => ?_
      · rw [List.map_cons, List.prod_cons]
      · unfold only
        split
        · rfl
        · rw [mul_zero, add_zero]

/-- A body that is repeated `n` times. -/
theorem Emits.repeated {m : EStateM ε σ PUnit} {loop : Nat → EStateM ε σ PUnit}
    (hzero : loop 0 = Pure.pure ⟨⟩) (hsucc : ∀ n, loop (n + 1) = m >>= fun _ => loop n)
    (hm : Emits log P m L (fun _ => P) E) (n : Nat) :
    Emits log P (loop n) (L ^ n) (fun _ => P) fun e => fewer n L (E e) := by
  induction n with
  | zero =>
      rw [hzero, pow_zero]
      exact Emits.pure fun _ hs => hs
  | succ n ih =>
      rw [hsucc, pow_succ']
      exact (hm.bind fun _ => ih).mono le_rfl fun e => fewer_succ n L (E e)

end

end Hoare
