import Microx.CallbackValues
import Microx.Executor.Traffic

/-!
# Microx.Rejected

What becomes of an instruction when the binding rejects the result of a
callback.

The Python object keeps a log of the calls of its methods (`PyMethods.logged`).
A rejected result sets `has_error` or ends the instruction at once, and from
`has_error` on no callback is made and each one fails, the write of the program
counter at the end included.  The one rejection that does neither is that of a
`compute_address` result of a type that `ReadValue` cannot convert: it sets
`error`, and the instruction goes on with a fallback address.
-/

namespace Microx

open Hoare

variable {ρ α : Type}

/-! ## calls of the methods -/

/-- A call of a method of the Python object; what it returned, `none` if it raised. -/
inductive PyCall where
  | computeAddress (hint : MemRequestHint) (outcome : Option PyValue)
  | readRegister (name : RegName) (outcome : Option PyValue)
  | readMemory (numBytes : Nat) (hint : MemRequestHint) (outcome : Option PyValue)
  | readFPU
  | writeRegister
  | writeMemory
  | writeFPU

/-- The value is of a type that `ReadValue` converts. -/
def PyValue.Convertible : PyValue → Prop
  | .bytes _ | .int _ | .float _ _ => True
  | _ => False

/-- `ReadValue` accepts the value for a number of bits. -/
def PyValue.AcceptedFor (numBits : Nat) : PyValue → Prop
  | .bytes bs => bs.length = Binding.numBytes numBits
  | .int i => 0 ≤ i ∧ i < 2 ^ 512
  | .float _ _ => True
  | _ => False

namespace PyCall

/-- A method that was to return a value raised, or `ReadValue` rejects the value. -/
def Refused (numBits : Nat) (outcome : Option PyValue) : Prop :=
  ∀ res, outcome = some res → ¬res.AcceptedFor numBits

/-- The result of the call is rejected; reads of instruction bytes are not counted. -/
def Rejected {σ : Type} (ex : Executor σ) : PyCall → Prop
  | computeAddress _ outcome => Refused ex.addrSize.bits outcome
  | readRegister name outcome => Refused (ex.requestSize name) outcome
  | readMemory n hint outcome => hint ≠ .readExecutable ∧ Refused (8 * n) outcome
  | _ => False

/-- A `compute_address` that returned a value of a type that cannot be converted. -/
def Unconvertible : PyCall → Prop
  | computeAddress _ (some res) => ¬res.Convertible
  | _ => False

/-- A call that writes. -/
def IsWrite : PyCall → Prop
  | writeRegister | writeMemory | writeFPU => True
  | _ => False

end PyCall

/-- A method, with the call noted in a log. -/
def PyMethods.noting (m : EStateM PyExc ρ α) (entry : Option α → PyCall) :
    EStateM PyExc (ρ × List PyCall) α := fun s =>
  match m s.1 with
  | .ok a s' => .ok a (s', s.2 ++ [entry (some a)])
  | .error e s' => .error e (s', s.2 ++ [entry none])

/-- A Python object that keeps a log of the calls. -/
def PyMethods.logged (py : PyMethods ρ) : PyMethods (ρ × List PyCall) where
  computeAddress seg base index scale disp size hint :=
    noting (py.computeAddress seg base index scale disp size hint) (.computeAddress hint)
  readRegister name hint := noting (py.readRegister name hint) (.readRegister name)
  writeRegister name bs := noting (py.writeRegister name bs) fun _ => .writeRegister
  readMemory addr n hint := noting (py.readMemory addr n hint) (.readMemory n hint)
  writeMemory addr bs := noting (py.writeMemory addr bs) fun _ => .writeMemory
  readFPU := noting py.readFPU fun _ => .readFPU
  writeFPU bs := noting (py.writeFPU bs) fun _ => .writeFPU

/-! ## one callback -/

namespace Binding

/-- `ReadValue` accepts a value or rejects it, and then either there is an error or the value is of
no type that it converts. -/
theorem readValue_cases {b : Binding ρ} (hb : b.hasError = false) (res : PyValue) (numBits : Nat)
    (val : Data) (usage : Usage) :
    let r := b.readValue res numBits val usage
    (r.1 = true ∧ res.AcceptedFor numBits ∧ r.2.2 = b) ∨
      (r.1 = false ∧ ¬res.AcceptedFor numBits ∧ (r.2.2.hasError = true ↔ res.Convertible)) := by
  intro r
  cases res with
  | bytes bs =>
      by_cases hlen : bs.length = numBytes numBits
      · exact .inl (by simp [r, readValue, hb, hlen, PyValue.AcceptedFor])
      · exact .inr (by simp [r, readValue, hb, hlen, Ne.symm hlen, PyValue.AcceptedFor,
          PyValue.Convertible])
  | int i =>
      by_cases hneg : i < 0
      · exact .inr (by simp [r, readValue, hb, hneg, PyValue.AcceptedFor, PyValue.Convertible])
      · by_cases hfits : i < 2 ^ 512
        · refine .inl ?_
          simp only [r, readValue, hb, Bool.false_eq_true, if_false, if_neg hneg, if_pos hfits]
          exact ⟨trivial, ⟨not_lt.mp hneg, hfits⟩, trivial⟩
        · refine .inr ?_
          simp only [r, readValue, hb, Bool.false_eq_true, if_false, if_neg hneg, if_neg hfits]
          exact ⟨trivial, fun h => hfits h.2, ⟨fun _ => trivial, fun _ => trivial⟩⟩
  | float d f => exact .inl (by simp [r, readValue, hb, PyValue.AcceptedFor])
  | bytearray | str | other =>
      exact .inr (by simp [r, readValue, hb, PyValue.AcceptedFor, PyValue.Convertible])

variable {py : PyMethods ρ} {b : Binding (ρ × List PyCall)}

/-- A noted method adds one call to the log. -/
theorem call_noting (m : EStateM PyExc ρ α) (entry : Option α → PyCall)
    (b : Binding (ρ × List PyCall)) :
    ∃ outcome b', b.call (PyMethods.noting m entry) = (outcome, b') ∧
      b'.self.2 = b.self.2 ++ [entry outcome] ∧ b'.hasError = b.hasError := by
  unfold call PyMethods.noting
  cases m b.self.1 with
  | ok a s => exact ⟨some a, _, rfl, rfl, rfl⟩
  | error e s => exact ⟨none, _, rfl, rfl, rfl⟩

/-- With an error a callback does nothing; else it makes one call. -/
def Makes (b b' : Binding (ρ × List PyCall)) (entry : α → PyCall) (P : α → Prop) : Prop :=
  (b.hasError = true ∧ b' = b) ∨
    (b.hasError = false ∧ ∃ outcome, b'.self.2 = b.self.2 ++ [entry outcome] ∧ P outcome)

/-- What `ReadReg` and `ReadMem` make of the outcome of a call. -/
def receive (r : Option PyValue × Binding ρ) (numBits : Nat) (val : Data) (usage : Usage) :
    Bool × Data × Binding ρ :=
  match r with
  | (some res, b) => b.readValue res numBits val usage
  | (none, b) => (false, val, b)

/-- A result that was received was accepted. -/
theorem receive_noting (hb : b.hasError = false) (m : EStateM PyExc ρ PyValue)
    (entry : Option PyValue → PyCall) (numBits : Nat) (val : Data) (usage : Usage) :
    let r := receive (b.call (PyMethods.noting m entry)) numBits val usage
    (r.1 = true → r.2.2.hasError = false) ∧ ∃ outcome, r.2.2.self.2 = b.self.2 ++ [entry outcome] ∧
      (r.1 = true → ¬PyCall.Refused numBits outcome) := by
  intro r
  obtain ⟨outcome, b', hcall, hlog, herr⟩ := call_noting m entry b
  have hb' := herr.trans hb
  simp only [r, hcall]
  cases outcome with
  | none => exact ⟨fun h => (by cases h), none, hlog, fun h => (by cases h)⟩
  | some res =>
      have hself := congrArg Prod.snd (self_readValue res numBits val usage b')
      obtain ⟨-, haccepted, hsame⟩ | ⟨hno, -⟩ := readValue_cases hb' res numBits val usage
      · refine ⟨fun _ => ?_, some res, hself.trans hlog, fun _ hrefused => hrefused res rfl haccepted⟩
        rw [receive, hsame, hb']
      · refine ⟨fun hok => ?_, some res, hself.trans hlog, fun hok => ?_⟩
        · cases hno.symm.trans hok
        · cases hno.symm.trans hok

theorem readReg_makes (name : RegName) (size : Nat) (hint : RegRequestHint) (val : Data)
    (b : Binding (ρ × List PyCall)) :
    let r := readReg py.logged name size hint val b
    (r.1 = true → r.2.2.hasError = false) ∧ Makes b r.2.2 (.readRegister name) fun outcome =>
      r.1 = true → ¬PyCall.Refused size outcome := by
  intro r
  cases hb : b.hasError with
  | true =>
      have hrun : r = (false, val, b) := by simp [r, readReg, hb]
      exact ⟨fun h => (by rw [hrun] at h; cases h), .inl ⟨hb, by rw [hrun]⟩⟩
  | false =>
      have hrun : r = receive (b.call (py.logged.readRegister name hint)) size val
          (.readRegister name) := by
        simp only [r, readReg, hb, Bool.false_eq_true, if_false]
        rfl
      have hreceived := receive_noting hb (py.readRegister name hint) (.readRegister name) size val
        (.readRegister name)
      rw [hrun]
      exact ⟨hreceived.1, .inr ⟨hb, hreceived.2⟩⟩

theorem readMem_makes (addr : Word) (size : Nat) (hint : MemRequestHint) (val : Data)
    (b : Binding (ρ × List PyCall)) :
    let r := readMem py.logged addr size hint val b
    (r.1 = true → r.2.2.hasError = false) ∧ Makes b r.2.2 (.readMemory (size / 8) hint) fun outcome =>
      r.1 = true → ¬PyCall.Refused size outcome := by
  intro r
  cases hb : b.hasError with
  | true =>
      have hrun : r = (false, val, b) := by simp [r, readMem, hb]
      exact ⟨fun h => (by rw [hrun] at h; cases h), .inl ⟨hb, by rw [hrun]⟩⟩
  | false =>
      have hrun : r = receive (b.call (py.logged.readMemory addr.toNat (size / 8) hint)) size val
          (.readMemory addr (size / 8) hint) := by
        simp only [r, readMem, hb, Bool.false_eq_true, if_false]
        rfl
      have hreceived := receive_noting hb (py.readMemory addr.toNat (size / 8) hint)
        (.readMemory (size / 8) hint) size val (.readMemory addr (size / 8) hint)
      rw [hrun]
      exact ⟨hreceived.1, .inr ⟨hb, hreceived.2⟩⟩

/-- **A rejected address** sets `has_error` unless it is of a type that cannot be converted. -/
theorem computeAddress_makes (addrSize : AddressSize) (seg : RegName)
    (base index scale disp : Word) (size : Nat) (hint : MemRequestHint)
    (b : Binding (ρ × List PyCall)) :
    Makes b (computeAddress py.logged addrSize seg base index scale disp size hint b).2
      (.computeAddress hint) fun outcome => PyCall.Refused addrSize.bits outcome →
        ((computeAddress py.logged addrSize seg base index scale disp size hint b).2.hasError = true ↔
          ¬(PyCall.computeAddress hint outcome).Unconvertible) := by
  cases hb : b.hasError with
  | true => exact .inl ⟨hb, by simp [computeAddress, hb]⟩
  | false =>
      obtain ⟨outcome, b', hcall, hlog, herr⟩ :=
        call_noting (py.computeAddress seg base.toNat index.toNat scale.toNat disp.toNat (size / 8)
          hint) (.computeAddress hint) b
      have hb' := herr.trans hb
      have hcalled : b.call (py.logged.computeAddress seg base.toNat index.toNat scale.toNat
          disp.toNat (size / 8) hint) = (outcome, b') := hcall
      refine .inr ⟨hb, outcome, ?_⟩
      simp only [computeAddress, hb, Bool.false_eq_true, if_false, hcalled]
      cases outcome with
      | none => exact ⟨hlog, fun _ => ⟨fun _ h => h, fun _ => rfl⟩⟩
      | some res =>
          obtain ⟨hok, haccepted, hsame⟩ | ⟨hno, -, hconvertible⟩ :=
            readValue_cases hb' res addrSize.bits 0
              (.computeAddress seg base index scale disp (size / 8) hint)
          · simp only [hok, if_true, hsame]
            exact ⟨hlog, fun hrefused => absurd haccepted (hrefused res rfl)⟩
          · simp only [hno, Bool.false_eq_true, if_false, self_readValue, hconvertible]
            exact ⟨hlog, fun _ => not_not.symm⟩

theorem readFPU_makes (val : FPU) (b : Binding (ρ × List PyCall)) :
    let r := readFPU py.logged val b
    (r.1 = true → r.2.2.hasError = false) ∧
      Makes b r.2.2 (fun _ : Option PyValue => .readFPU) fun _ => True := by
  intro r
  cases hb : b.hasError with
  | true =>
      have hrun : r = (false, val, b) := by simp [r, readFPU, hb]
      exact ⟨fun h => (by rw [hrun] at h; cases h), .inl ⟨hb, by rw [hrun]⟩⟩
  | false =>
      obtain ⟨outcome, b', hcall, hlog, herr⟩ := call_noting py.readFPU (fun _ => .readFPU) b
      have hcalled : b.call py.logged.readFPU = (outcome, b') := hcall
      simp only [r, readFPU, hb, Bool.false_eq_true, if_false, hcalled]
      cases outcome with
      | none => exact ⟨fun h => (by cases h), .inr ⟨hb, none, hlog, trivial⟩⟩
      | some res =>
          cases res with
          | bytes bs =>
              dsimp only
              split
              · exact ⟨fun h => (by cases h), .inr ⟨hb, none, hlog, trivial⟩⟩
              · exact ⟨fun _ => herr.trans hb, .inr ⟨hb, none, hlog, trivial⟩⟩
          | _ => exact ⟨fun h => (by cases h), .inr ⟨hb, none, hlog, trivial⟩⟩

/-- A callback that writes. -/
theorem writeReg_makes (name : RegName) (size : Nat) (val : Data) (b : Binding (ρ × List PyCall)) :
    let r := writeReg py.logged name size val b
    (r.1 = true → b.hasError = false) ∧
      Makes b r.2 (fun _ : Option Unit => .writeRegister) fun _ => r.2.hasError = false := by
  intro r
  cases hb : b.hasError with
  | true =>
      have hrun : r = (false, b) := by simp [r, writeReg, hb]
      exact ⟨fun h => (by rw [hrun] at h; cases h), .inl ⟨hb, by rw [hrun]⟩⟩
  | false =>
      obtain ⟨outcome, b', hcall, hlog, herr⟩ := call_noting
        (py.writeRegister name (Bits.toBytes ((size + 7) / 8) val)) (fun _ => .writeRegister) b
      have hcalled : b.call (py.logged.writeRegister name (Bits.toBytes ((size + 7) / 8) val)) =
          (outcome, b') := hcall
      refine ⟨fun _ => rfl, .inr ⟨hb, outcome, ?_⟩⟩
      simp only [r, writeReg, hb, Bool.false_eq_true, if_false, hcalled]
      exact ⟨hlog, herr.trans hb⟩

theorem writeMem_makes (addr : Word) (size : Nat) (val : Data) (b : Binding (ρ × List PyCall)) :
    let r := writeMem py.logged addr size val b
    Makes b r.2 (fun _ : Option Unit => .writeMemory) fun _ => r.2.hasError = false := by
  intro r
  cases hb : b.hasError with
  | true => exact .inl ⟨hb, by simp [r, writeMem, hb]⟩
  | false =>
      obtain ⟨outcome, b', hcall, hlog, herr⟩ := call_noting
        (py.writeMemory addr.toNat (Bits.toBytes (size / 8) val)) (fun _ => .writeMemory) b
      have hcalled : b.call (py.logged.writeMemory addr.toNat (Bits.toBytes (size / 8) val)) =
          (outcome, b') := hcall
      refine .inr ⟨hb, outcome, ?_⟩
      simp only [r, writeMem, hb, Bool.false_eq_true, if_false, hcalled]
      exact ⟨hlog, herr.trans hb⟩

/-- `WriteFPU` does not ask for `has_error`. -/
theorem writeFPU_makes (val : FPU) (b : Binding (ρ × List PyCall)) :
    let r := writeFPU py.logged val b
    r.2.self.2 = b.self.2 ++ [.writeFPU] ∧ r.2.hasError = b.hasError := by
  intro r
  obtain ⟨outcome, b', hcall, hlog, herr⟩ := call_noting
    (py.writeFPU (Bits.toBytes 512 val)) (fun _ => .writeFPU) b
  have hcalled : b.call (py.logged.writeFPU (Bits.toBytes 512 val)) = (outcome, b') := hcall
  simp only [r, writeFPU, hcalled]
  exact ⟨hlog, herr⟩

end Binding

/-- Every `compute_address` result is of a type that can be converted, and some result is
rejected. -/
def Noticed {σ : Type} (ex : Executor σ) (calls : List PyCall) : Prop :=
  (∀ c ∈ calls, ¬c.Unconvertible) ∧ ∃ c ∈ calls, c.Rejected ex

/-- One call more. -/
theorem Noticed.of_snoc {σ : Type} {ex : Executor σ} {calls : List PyCall} {c : PyCall}
    (h : Noticed ex (calls ++ [c])) : ¬c.Unconvertible ∧ (Noticed ex calls ∨ c.Rejected ex) := by
  obtain ⟨hconvertible, d, hd, hrejected⟩ := h
  simp only [List.mem_append, List.mem_singleton] at hconvertible hd
  refine ⟨hconvertible c (.inr rfl), ?_⟩
  cases hd with
  | inl hold => exact .inl ⟨fun c' hc' => hconvertible c' (.inl hc'), d, hold, hrejected⟩
  | inr hnew => exact .inr (hnew ▸ hrejected)

section

variable {ex : Executor (Binding (ρ × List PyCall))} {log : List PyCall}
  {b b' : Binding (ρ × List PyCall)} {entry : α → PyCall} {P : α → Prop}

/-- Since the log nothing was written, and a rejection that is noticed has left an error. -/
def OnlyRead (ex : Executor (Binding (ρ × List PyCall))) (log : List PyCall)
    (b : Binding (ρ × List PyCall)) : Prop :=
  ∃ calls, b.self.2 = log ++ calls ∧ (∀ c ∈ calls, ¬c.IsWrite) ∧
    (Noticed ex calls → b.hasError = true)

/-- Since the log nothing was written after a rejection, and there is an error then. -/
def Stopped (ex : Executor (Binding (ρ × List PyCall))) (log : List PyCall)
    (b : Binding (ρ × List PyCall)) : Prop :=
  ∃ calls, b.self.2 = log ++ calls ∧
    (Noticed ex calls → b.hasError = true ∧ ∀ c ∈ calls, ¬c.IsWrite)

/-- Since the log nothing was written if there was a rejection. -/
def Spared (ex : Executor (Binding (ρ × List PyCall))) (log : List PyCall)
    (b : Binding (ρ × List PyCall)) : Prop :=
  ∃ calls, b.self.2 = log ++ calls ∧ (Noticed ex calls → ∀ c ∈ calls, ¬c.IsWrite)

theorem OnlyRead.stopped (h : OnlyRead ex log b) : Stopped ex log b := by
  obtain ⟨calls, hlog, hquiet, herr⟩ := h
  exact ⟨calls, hlog, fun hn => ⟨herr hn, hquiet⟩⟩

theorem Stopped.spared (h : Stopped ex log b) : Spared ex log b := by
  obtain ⟨calls, hlog, hstopped⟩ := h
  exact ⟨calls, hlog, fun hn => (hstopped hn).2⟩

theorem forall_snoc_not_isWrite {calls : List PyCall} (h : ∀ c ∈ calls, ¬c.IsWrite) {c : PyCall}
    (hc : ¬c.IsWrite) : ∀ d ∈ calls ++ [c], ¬d.IsWrite := by
  intro d hd
  simp only [List.mem_append, List.mem_singleton] at hd
  cases hd with
  | inl hold => exact h d hold
  | inr hnew => exact hnew ▸ hc

/-- A callback that reads, and notices when it is rejected. -/
theorem OnlyRead.makes (h : OnlyRead ex log b) (hm : Binding.Makes b b' entry P)
    (hread : ∀ o, ¬(entry o).IsWrite)
    (hnoticed : ∀ o, P o → (entry o).Rejected ex → ¬(entry o).Unconvertible → b'.hasError = true) :
    OnlyRead ex log b' := by
  obtain ⟨-, rfl⟩ | ⟨hb, o, hlog', ho⟩ := hm
  · exact h
  · obtain ⟨calls, hlog, hquiet, herr⟩ := h
    refine ⟨calls ++ [entry o], by rw [hlog', hlog, List.append_assoc],
      forall_snoc_not_isWrite hquiet (hread o), fun hn => ?_⟩
    obtain ⟨hconvertible, hold | hnew⟩ := hn.of_snoc
    · cases hb.symm.trans (herr hold)
    · exact hnoticed o ho hnew hconvertible

/-- A callback that reads does not write. -/
theorem OnlyRead.spared_makes (h : OnlyRead ex log b) (hm : Binding.Makes b b' entry P)
    (hread : ∀ o, ¬(entry o).IsWrite) : Spared ex log b' := by
  obtain ⟨-, rfl⟩ | ⟨-, o, hlog', -⟩ := hm
  · exact h.stopped.spared
  · obtain ⟨calls, hlog, hquiet, -⟩ := h
    exact ⟨calls ++ [entry o], by rw [hlog', hlog, List.append_assoc], fun _ =>
      forall_snoc_not_isWrite hquiet (hread o)⟩

/-- A call that writes where there was no error. -/
theorem Stopped.write (h : Stopped ex log b) (hb : b.hasError = false) {c : PyCall}
    (hlog' : b'.self.2 = b.self.2 ++ [c]) (hwrite : c.IsWrite) : Stopped ex log b' := by
  obtain ⟨calls, hlog, hstopped⟩ := h
  refine ⟨calls ++ [c], by rw [hlog', hlog, List.append_assoc], fun hn => ?_⟩
  obtain ⟨-, hold | hnew⟩ := hn.of_snoc
  · cases hb.symm.trans (hstopped hold).1
  · cases c <;> first | exact hnew.elim | exact hwrite.elim

/-- A callback that writes. -/
theorem Stopped.makes (h : Stopped ex log b) (hm : Binding.Makes b b' entry P)
    (hwrite : ∀ o, (entry o).IsWrite) : Stopped ex log b' := by
  obtain ⟨-, rfl⟩ | ⟨hb, o, hlog', -⟩ := hm
  · exact h
  · exact h.write hb hlog' (hwrite o)

end

/-! ## one instruction -/

/-- XED lists no instruction that generates an address (`LEA` and its like) and names a register of
the FPU. -/
def Xed.AgenWithoutFPU (xed : Xed) : Prop :=
  ∀ addrSize bytes inst, xed.decode addrSize bytes = some inst → inst.HasAgen → ¬inst.NamesFPU

namespace Binding

/-- The executor of a Python object that keeps a log. -/
def loggedExecutor (py : PyMethods ρ) (xed : Xed) (cpu : Cpu) (isInitialized : Bool)
    (addrSize : AddressSize) : Executor (Binding (ρ × List PyCall)) :=
  executor py.logged xed cpu isInitialized addrSize

section

variable (py : PyMethods ρ) (xed : Xed) (cpu : Cpu) (isInitialized : Bool)
  (addrSize : AddressSize) (log : List PyCall)

/-- The fetch: with the decoded instruction there is no error. -/
theorem fetchRules_logged :
    let ex := loggedExecutor py xed cpu isInitialized addrSize
    FetchRules ex (fun u b _ => OnlyRead ex log b ∧ b.hasError = false ∧ u = false)
      (fun u b _ => OnlyRead ex log b ∧ u = false) fun _ b _ => Spared ex log b := by
  intro ex
  refine ⟨⟨fun name hint data hb => ?_⟩, fun seg base index scale disp size hb => ?_,
    fun addr size data hb => ?_, fun hb => hb, fun hb => hb.1.stopped.spared,
    fun hb => hb.1.stopped.spared⟩
  · obtain ⟨hok, hmakes⟩ := readReg_makes name (ex.requestSize name) hint data _
    refine ⟨fun h => ⟨hb.1.makes hmakes (fun _ hw => hw) ?_, hok h, hb.2.2⟩, fun _ _ _ =>
      hb.1.spared_makes hmakes fun _ hw => hw⟩
    exact fun o ho hrejected => absurd hrejected (ho h)
  · refine ⟨hb.1.makes (computeAddress_makes addrSize seg base index scale disp size _ _)
      (fun _ hw => hw) fun o ho hrejected => (ho hrejected).mpr, hb.2.2⟩
  · obtain ⟨hok, hmakes⟩ := readMem_makes addr size .readExecutable data _
    have hread := hb.1.makes hmakes (fun _ hw => hw) fun o _ hrejected => absurd rfl hrejected.1
    exact ⟨fun h => ⟨hread, hok h, hb.2⟩, fun _ => ⟨hread, hb.2⟩⟩

/-- The reading half between two operands: there is an error only if an address was generated. -/
def HalfRead (ex : Executor (Binding (ρ × List PyCall))) (inst : Inst) (log : List PyCall) :
    PhaseObservation (Binding (ρ × List PyCall)) :=
  fun u b _ => OnlyRead ex log b ∧ (b.hasError = true → inst.HasAgen) ∧ (u = true → inst.NamesFPU)

theorem readRules_logged (inst : Inst) :
    let ex := loggedExecutor py xed cpu isInitialized addrSize
    ReadRules ex inst (HalfRead ex inst log)
      (fun u b _ => OnlyRead ex log b ∧ (u = true → inst.NamesFPU))
      fun _ b _ => Spared ex log b := by
  intro ex
  have hnone {b : Binding (ρ × List PyCall)} (h : b.hasError = false) :
      b.hasError = true → inst.HasAgen := fun h' => by cases h.symm.trans h'
  refine
    { readReg := fun name hint data hb => ?_
      ends := fun _ _ hb => hb.1.stopped.spared
      usesFPU := fun hfpu _ _ _ hb => ⟨hb.1, hb.2.1, fun _ => hfpu⟩
      computeAddress := fun seg base index scale disp size hint hb => ?_
      generated := fun hagen _ _ _ hb => ⟨hb.1, fun _ => hagen, hb.2⟩
      readMem := fun addr bytes hint data hhint hb => ?_
      readFPU := fun fpu hb => ?_ }
  · obtain ⟨hok, hmakes⟩ := readReg_makes name (ex.requestSize name) hint data _
    refine ⟨fun h => ⟨hb.1.makes hmakes (fun _ hw => hw) ?_, hnone (hok h), hb.2.2⟩, fun _ _ _ =>
      hb.1.spared_makes hmakes fun _ hw => hw⟩
    exact fun o ho hrejected => absurd hrejected (ho h)
  · exact ⟨hb.1.makes (computeAddress_makes addrSize seg base index scale disp size hint _)
      (fun _ hw => hw) fun o ho hrejected => (ho hrejected).mpr, hb.2.2⟩
  · obtain ⟨hok, hmakes⟩ := readMem_makes addr (8 * bytes) hint data _
    rw [Nat.mul_div_cancel_left bytes (by decide)] at hmakes
    refine ⟨fun h => ⟨hb.1.makes hmakes (fun _ hw => hw) ?_, hnone (hok h), hb.2⟩, fun _ _ _ =>
      hb.1.spared_makes hmakes fun _ hw => hw⟩
    exact fun o ho hrejected => absurd hrejected.2 (ho h)
  · obtain ⟨hok, hmakes⟩ := readFPU_makes fpu _
    refine ⟨fun h => ⟨hb.1.makes hmakes (fun _ hw => hw) ?_, hnone (hok h), hb.2.2⟩, fun _ _ _ =>
      hb.1.spared_makes hmakes fun _ hw => hw⟩
    exact fun o _ hrejected => hrejected.elim

/-- The writing half of an instruction whose FPU is in use only without an error. -/
def HalfWritten (ex : Executor (Binding (ρ × List PyCall))) (log : List PyCall) :
    PhaseObservation (Binding (ρ × List PyCall)) :=
  fun u b _ => Stopped ex log b ∧ (u = true → b.hasError = false)

theorem HalfWritten.makes {ex : Executor (Binding (ρ × List PyCall))} {log : List PyCall} {u : Bool}
    {b b' : Binding (ρ × List PyCall)} {t t' : List Event} {entry : α → PyCall}
    (h : HalfWritten ex log u b t) (hm : Makes b b' entry fun _ => b'.hasError = false)
    (hwrite : ∀ o, (entry o).IsWrite) : HalfWritten ex log u b' t' := by
  refine ⟨h.1.makes hm hwrite, fun hu => ?_⟩
  obtain ⟨-, rfl⟩ | ⟨-, -, -, herr⟩ := hm
  · exact h.2 hu
  · exact herr

theorem writeMemory_logged :
    let ex := loggedExecutor py xed cpu isInitialized addrSize
    Stays (HalfWritten ex log) (fun _ b _ => Spared ex log b) ex.writeMemory := by
  intro ex
  exact writeMemory_stays (fun addr size data hb =>
    hb.makes (writeMem_makes addr size data _) fun _ => trivial) fun hb => hb.1.spared

theorem commitRules_logged :
    let ex := loggedExecutor py xed cpu isInitialized addrSize
    CommitRules ex (HalfWritten ex log) fun _ b _ => Spared ex log b := by
  intro ex
  refine ⟨fun name size data hb => ?_, fun fpu hb => ?_, fun _ _ hb => hb.1.spared⟩
  · exact hb.makes (writeReg_makes name size data _).2 fun _ => trivial
  · obtain ⟨hlog, herr⟩ := writeFPU_makes fpu _
    have hb' := hb.2 rfl
    exact ⟨hb.1.write hb' hlog trivial, fun _ => herr.trans hb'⟩

/-- If a register was written last, there is no error. -/
theorem invariant_cleanEnd :
    Invariant (loggedExecutor py xed cpu isInitialized addrSize) fun b t =>
      ∀ name size data, t.getLast? = some (.writeReg name size data true) → b.hasError = false where
  reads :=
    { computeAddress := fun _ _ _ _ _ _ _ _ _ _ _ h => by simp at h
      readReg := fun _ _ _ _ _ _ _ _ h => by simp at h
      readMem := fun _ _ _ _ _ _ _ _ h => by simp at h
      readFPU := fun _ _ _ _ _ h => by simp at h
      clearError := fun hb => hb }
  commits :=
    { writeReg := fun {b _} name size data _ _ _ _ h => by
        obtain ⟨hok, hmakes⟩ := writeReg_makes name size data b
        simp only [List.getLast?_concat, Option.some.injEq, Event.writeReg.injEq] at h
        have hb := hok h.2.2.2
        obtain ⟨herr, -⟩ | ⟨-, -, -, herr⟩ := hmakes
        · cases hb.symm.trans herr
        · exact herr
      writeFPU := fun _ _ _ _ _ h => by simp at h }
  writeMem _ _ _ _ _ _ _ h := by simp at h

/-- An instruction that ends well leaves no error. -/
theorem executeInstruction_clean {w w' : World (Binding (ρ × List PyCall))} {u : Unit}
    (hw : w.env.hasError = false)
    (h : (loggedExecutor py xed cpu isInitialized addrSize).executeInstruction w = .ok u w') :
    w'.env.hasError = false := by
  have htraffic := executeInstruction_traffic
    (loggedExecutor py xed cpu isInitialized addrSize) w w rfl
  have hclean := (invariant_cleanEnd py xed cpu isInitialized addrSize).executeInstruction w
    fun _ _ _ _ => hw
  rw [h] at htraffic hclean
  obtain ⟨-, _, _, _, _, _, before, -, -, -, htrace⟩ := htraffic
  exact hclean _ _ _ (by rw [htrace, List.getLast?_concat])

variable {xed} (hxed : xed.AgenWithoutFPU)

include hxed

/-- From the fetch to the last register, nothing is written after a rejection. -/
theorem executeInstruction_stopped :
    let ex := loggedExecutor py xed cpu isInitialized addrSize
    Triple (fun w => w.env.hasError = false ∧ w.env.self.2 = log) ex.executeInstruction
      (fun _ w => Stopped ex log w.env) fun _ w => Spared ex log w.env := by
  intro ex
  have hcommit := commitRules_logged py xed cpu isInitialized addrSize log
  have hfetch := (fetchRules_logged py xed cpu isInitialized addrSize log).fetch
  refine Triple.bind (hfetch.pre fun w hw => ?_) fun inst => ?_
  · exact ⟨⟨[], by simp [hw.2], by simp, fun hn => by simpa using hn.2⟩, hw.1, rfl⟩
  · -- What was decoded decides whether an address may be generated with the FPU in use.
    intro w hw
    obtain ⟨⟨hread, herr, hfpu⟩, bytes, hdecode⟩ := hw
    have hrules := readRules_logged py xed cpu isInitialized addrSize log inst
    have hwriting {u : Bool} {b : Binding (ρ × List PyCall)} {t : List Event}
        (h : HalfRead ex inst log u b t) : HalfWritten ex log u b t := by
      refine ⟨h.1.stopped, fun hu => Bool.eq_false_iff.mpr fun herror => ?_⟩
      exact hxed _ _ _ hdecode (h.2.1 herror) (h.2.2 hu)
    have hperform : Triple (Seen (HalfRead ex inst log)) (ex.perform inst)
        (fun _ => Seen (HalfWritten ex log)) fun _ w => Spared ex log w.env := by
      refine triple_readGlobals fun g => Triple.ite (fun _ => Triple.pure fun _ h => hwriting h)
        fun _ => Triple.bind hrules.readOperands fun _ => ?_
      refine Triple.bind (carryOut_stays ex (I := HalfRead ex inst log) hrules.ends inst _) fun nextPC => ?_
      refine Triple.bind (Q := fun _ => Seen (HalfWritten ex log)) ?_ fun _ => Triple.pure fun _ h => h
      refine Triple.pre ?_ fun _ h => hwriting h
      refine (writeMemory_logged py xed cpu isInitialized addrSize log).bind fun _ => ?_
      refine hcommit.writeFPUState.bind fun _ => Stays.onGlobals (whenMMX_unseen ?_)
      exact copyMMXStateFromFPU_unseen unseen_usesFPU
    refine Triple.bind hrules.readState (fun _ => Triple.bind hperform fun nextPC => ?_) w
      ⟨hread, fun h => ?_, fun h => ?_⟩
    · exact (hcommit.commit nextPC).conseq (fun _ h => h) (fun _ _ h => h.1) fun _ _ h => h
    · cases herr.symm.trans h
    · cases hfpu.symm.trans h

/-- **A rejected callback result fails the instruction**, if no `compute_address` returned a value
of a type that cannot be converted: after any number of instructions, the next one does not end
well, and none of its writes reaches the object. -/
theorem rejected_fails {k : Nat} {w w₁ : World (Binding (ρ × List PyCall))}
    (hw : w.env.hasError = false)
    (hsteps : (loggedExecutor py xed cpu isInitialized addrSize).Steps k w w₁) :
    let ex := loggedExecutor py xed cpu isInitialized addrSize
    Meets
      (fun _ w₂ => ∃ calls, w₂.env.self.2 = w₁.env.self.2 ++ calls ∧
        ((∀ c ∈ calls, ¬c.Unconvertible) → ∀ c ∈ calls, ¬c.Rejected ex))
      (fun _ w₂ => ∃ calls, w₂.env.self.2 = w₁.env.self.2 ++ calls ∧
        ((∀ c ∈ calls, ¬c.Unconvertible) → (∃ c ∈ calls, c.Rejected ex) → ∀ c ∈ calls, ¬c.IsWrite))
      (ex.execute 1 w₁) := by
  intro ex
  cases hinit : isInitialized with
  | false =>
      have hnot : ex.isInitialized = false := hinit
      rw [Executor.execute_of_not_initialized hnot one_ne_zero]
      exact ⟨[], by simp, by simp⟩
  | true =>
      have hclean (k : Nat) : ∀ {w : World (Binding (ρ × List PyCall))}, w.env.hasError = false →
          ex.Steps k w w₁ → w₁.env.hasError = false := by
        induction k with
        | zero => rintro w hw rfl; exact hw
        | succ k ih =>
            rintro w hw ⟨w', hone, hrest⟩
            rw [Executor.execute_one hinit] at hone
            exact ih (executeInstruction_clean py xed cpu isInitialized addrSize hw hone) hrest
      have herr := hclean k hw hsteps
      have hstopped := executeInstruction_stopped py cpu isInitialized addrSize w₁.env.self.2 hxed w₁
        ⟨herr, rfl⟩
      rw [Executor.execute_one hinit]
      cases hrun : ex.executeInstruction w₁ with
      | ok u w₂ =>
          rw [hrun] at hstopped
          obtain ⟨calls, hlog, hnoticed⟩ := hstopped
          have herr₂ := executeInstruction_clean py xed cpu isInitialized addrSize herr hrun
          refine ⟨calls, hlog, fun hconvertible c hc hrejected => ?_⟩
          cases herr₂.symm.trans (hnoticed ⟨hconvertible, c, hc, hrejected⟩).1
      | error status w₂ =>
          rw [hrun] at hstopped
          obtain ⟨calls, hlog, hspared⟩ := hstopped
          exact ⟨calls, hlog, fun hconvertible hrejected => hspared ⟨hconvertible, hrejected⟩⟩

end

/-! ### samples -/

/-- An object whose memory holds code, and whose addresses are all this value. -/
def addressing (address : PyValue) : PyMethods Unit where
  computeAddress _ _ _ _ _ _ _ := pure address
  readRegister _ _ := pure (.int 0)
  writeRegister _ _ := pure ()
  readMemory _ n _ := pure (.bytes (List.replicate n 0))
  writeMemory _ _ := pure ()
  readFPU := pure (.bytes [])
  writeFPU _ := pure ()

/-- A library that decodes everything as `NOP`. -/
def nopXed : Xed := Xed.ofDecoder (fun _ _ => some nopInst) fun _ => false

theorem nopXed_agenWithoutFPU : nopXed.AgenWithoutFPU := by
  rintro addrSize bytes inst hdecode ⟨op, hop, -⟩
  cases hdecode
  cases hop

/-- A processor that does nothing. -/
def idleCpu : Cpu where
  native _ s := (.none, s)
  stackPointer := 0
  fpu := 0

/-- An address of the wrong length. -/
theorem rejected_fails_shortAddress :
    let ex := loggedExecutor (addressing (.bytes [])) nopXed idleCpu true .x64
    let w : World (Binding (Unit × List PyCall)) := World.start (start ((), []))
    Meets
      (fun _ w₂ => ∃ calls, w₂.env.self.2 = w.env.self.2 ++ calls ∧
        ((∀ c ∈ calls, ¬c.Unconvertible) → ∀ c ∈ calls, ¬c.Rejected ex))
      (fun _ w₂ => ∃ calls, w₂.env.self.2 = w.env.self.2 ++ calls ∧
        ((∀ c ∈ calls, ¬c.Unconvertible) → (∃ c ∈ calls, c.Rejected ex) → ∀ c ∈ calls, ¬c.IsWrite))
      (ex.execute 1 w) := by
  intro ex w
  have hw : w.env.hasError = false := rfl
  have hsteps : ex.Steps 0 w w := rfl
  clear_value w
  exact rejected_fails (addressing (.bytes [])) idleCpu true .x64 nopXed_agenWithoutFPU hw hsteps

/-- The call is a `compute_address` that returned an object of another type. -/
def returnedOther : PyCall → Bool
  | .computeAddress _ (some .other) => true
  | _ => false

/-- The log of an instruction that ended well. -/
def loggedOk (r : EStateM.Result ExecutorStatus (World (Binding (Unit × List PyCall))) Unit) :
    List PyCall :=
  match r with
  | .ok _ w => w.env.self.2
  | .error _ _ => []

/-- **An address of a type that cannot be converted**: the instruction ends well. -/
theorem rejected_ignored :
    ¬∀ (py : PyMethods Unit) (xed : Xed), xed.AgenWithoutFPU →
      ∀ (cpu : Cpu) (isInitialized : Bool) (addrSize : AddressSize) (k : Nat)
        (w w₁ : World (Binding (Unit × List PyCall))), w.env.hasError = false →
        (loggedExecutor py xed cpu isInitialized addrSize).Steps k w w₁ →
        let ex := loggedExecutor py xed cpu isInitialized addrSize
        Meets
          (fun _ w₂ => ∃ calls, w₂.env.self.2 = w₁.env.self.2 ++ calls ∧
            ∀ c ∈ calls, ¬c.Rejected ex)
          (fun _ w₂ => ∃ calls, w₂.env.self.2 = w₁.env.self.2 ++ calls ∧
            ((∃ c ∈ calls, c.Rejected ex) → ∀ c ∈ calls, ¬c.IsWrite))
          (ex.execute 1 w₁) := by
  intro h
  let w : World (Binding (Unit × List PyCall)) := World.start (start ((), []))
  have hlogged : (loggedOk ((loggedExecutor (addressing .other) nopXed idleCpu true .x64).execute 1
      w)).any returnedOther = true := by decide +kernel
  have hw : w.env.hasError = false := rfl
  have hsteps : (loggedExecutor (addressing .other) nopXed idleCpu true .x64).Steps 0 w w := rfl
  have hempty : w.env.self.2 = [] := rfl
  clear_value w
  have hmeets := h (addressing .other) nopXed nopXed_agenWithoutFPU idleCpu true .x64 0 w w hw hsteps
  cases hrun : (loggedExecutor (addressing .other) nopXed idleCpu true .x64).execute 1 w with
  | error status w₂ => rw [hrun] at hlogged; cases hlogged
  | ok u w₂ =>
      rw [hrun] at hlogged
      simp only [hrun] at hmeets
      obtain ⟨calls, hlog, hnone⟩ := hmeets
      obtain ⟨c, hc, hother⟩ := List.any_eq_true.mp hlogged
      have hmem : c ∈ calls := by
        rw [loggedOk, hlog, hempty] at hc
        exact hc
      refine hnone c hmem ?_
      cases c with
      | computeAddress hint outcome =>
          rintro res rfl
          cases res <;> first | exact fun hno => hno | cases hother
      | _ => cases hother

end Binding

end Microx
