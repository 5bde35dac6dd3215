import Microx.Executor.Guard
import Microx.Memory.Confined
import Microx.Memory.Flat
import Microx.Process

/-!
# Microx.WriteSafety

Write permission is never bypassed, although `write_memory` checks nothing.

The executor writes back only what it read with a write hint in the same
instruction, `read_memory` checks every byte for such a hint, and `store` touches
no other byte.  `Guarded` joins the three: the permission for a write is that
its bytes are `Writable`, which nothing that happens between the read and the
write can change.
-/

namespace Microx

open Hoare

variable {τ α : Type}

/-! ## the methods of a process -/

/-- The page table is closed and an assertion on the memory holds. -/
def Proc.Good (P : Memory.Core → Prop) (p : Proc τ) : Prop :=
  Memory.Closed p.memory ∧ P p.memory

namespace Proc

variable {P : Memory.Core → Prop}

theorem threadFree_good : ThreadFree (Good P : Proc τ → Prop) := fun _ _ h => h

/-! ### `read_memory` and `write_memory` -/

/-- A checked byte that is to be written is writable. -/
theorem checkByte_grants (hP : Memory.Stable P) (hint : MemRequestHint) (a : Nat) :
    Triple (fun m => Memory.Closed m ∧ P m) (checkByte hint a)
      (fun _ m => (Memory.Closed m ∧ P m) ∧ (isWriteHint hint = true → Memory.Writable m a))
      fun _ m => Memory.Closed m ∧ P m := by
  have hrequire {P' : Memory.Core → Prop} (check : Bool) {perm : EStateM PyExc Memory.Core Bool}
      (h : Memory.Survives P' perm) (fault : AccessFault) :
      Memory.Survives P' (require check perm fault) := by
    refine Triple.ite (fun _ => Triple.bind h fun ok => ?_) fun _ => Triple.pure fun _ h => h
    exact Triple.ite (fun _ => Triple.pure fun _ h => h) fun _ => Triple.throw fun _ h => h
  refine Triple.bind (hrequire _ (Memory.canRead_survives hP a) _) fun _ => ?_
  by_cases hw : isWriteHint hint = true
  · refine Triple.bind
      (Q := fun _ m => Memory.Closed m ∧ P m ∧ Memory.Writable m a) ?_ fun _ => ?_
    · unfold require
      rw [if_pos hw]
      refine Triple.bind (Memory.canWrite_survives hP a) fun ok => ?_
      refine Triple.ite (fun hok => Triple.pure fun m hm => ?_) fun _ => Triple.throw fun m hm => hm.1
      exact ⟨hm.1.1, hm.1.2, hm.2 hok⟩
    · have hP' := hP.and (Memory.stable_writable a)
      exact (hrequire _ (Memory.canExecute_survives hP' a) _).conseq (fun _ hm => hm)
        (fun _ _ hm => ⟨⟨hm.1, hm.2.1⟩, fun _ => hm.2.2⟩) fun _ _ hm => ⟨hm.1, hm.2.1⟩
  · refine Triple.bind (hrequire _ ?_ _) fun _ => ?_
    · exact (Memory.canWrite_survives hP a).post fun _ _ hm => hm.1
    · refine (hrequire _ (Memory.canExecute_survives hP a) _).post fun _ _ hm => ⟨hm, fun h => ?_⟩
      exact absurd h hw

/-- So are all bytes of a checked range. -/
theorem checkBytes_grants (hint : MemRequestHint) (addr : Nat) (l : List Nat) :
    ∀ {P : Memory.Core → Prop}, Memory.Stable P →
      Triple (fun m => Memory.Closed m ∧ P m) (l.forM fun i => checkByte hint (addr + i))
        (fun _ m => (Memory.Closed m ∧ P m) ∧
          (isWriteHint hint = true → ∀ i ∈ l, Memory.Writable m (addr + i)))
        fun _ m => Memory.Closed m ∧ P m := by
  induction l with
  | nil => exact fun _ => Triple.pure fun _ h => ⟨h, by simp⟩
  | cons i l ih =>
      intro P hP
      refine Triple.bind (checkByte_grants hP hint (addr + i)) fun _ => ?_
      -- What was granted for the first byte is one more assertion that survives the rest.
      have hP' : Memory.Stable fun m =>
          P m ∧ (isWriteHint hint = true → Memory.Writable m (addr + i)) :=
        fun m m' hm hc h => ⟨hP m m' hm hc h.1, fun hw => (h.2 hw).of_confined hm hc⟩
      refine (ih hP').conseq (fun m hm => ⟨hm.1.1, hm.1.2, hm.2⟩) (fun _ m hm => ?_)
        fun _ m hm => ⟨hm.1, hm.2.1⟩
      refine ⟨⟨hm.1.1, hm.1.2.1⟩, fun hw j hj => ?_⟩
      cases List.mem_cons.mp hj with
      | inl h => rw [h]; exact hm.1.2.2 hw
      | inr h => exact hm.2 hw j h

theorem readMemory_grants (hP : Memory.Stable P) (addr n : Nat) (hint : MemRequestHint) :
    Triple (Good P) (readMemory addr n hint : EStateM PyExc (Proc τ) PyValue)
      (fun _ p => Good P p ∧
        (isWriteHint hint = true → ∀ i < n, Memory.Writable p.memory (addr + i)))
      fun _ => Good P := by
  refine Triple.bind (onMemory_triple (checkBytes_grants hint addr (List.range n) hP)) fun _ => ?_
  have hP' : Memory.Stable fun m =>
      P m ∧ (isWriteHint hint = true → ∀ i < n, Memory.Writable m (addr + i)) :=
    fun m m' hm hc h => ⟨hP m m' hm hc h.1, fun hw i hi => (h.2 hw i hi).of_confined hm hc⟩
  refine Triple.bind ((onMemory_triple (Memory.load_survives hP' addr n)).conseq
    (fun p hp => ⟨hp.1.1, hp.1.2, fun hw i hi => hp.2 hw i (List.mem_range.mpr hi)⟩)
    (fun _ _ hp => hp) fun _ p hp => ⟨hp.1, hp.2.1⟩) fun bs => ?_
  exact Triple.pure fun p hp => ⟨⟨hp.1, hp.2.1⟩, hp.2.2⟩

theorem writeMemory_survives (hP : Memory.Stable P) (addr : Nat) (data : List Byte) :
    Triple (fun p : Proc τ => Good P p ∧ ∀ i < data.length, Memory.Writable p.memory (addr + i))
      (writeMemory addr data) (fun _ => Good P) fun _ => Good P :=
  onMemory_triple (Memory.store_survives hP)

end Proc

/-! ## the callbacks of the binding -/

namespace Binding

variable {P : Memory.Core → Prop}

variable (thread : Thread τ) {b : Binding (Proc τ)}

theorem computeAddress_good (hb : Proc.Good P b.self) (addrSize : AddressSize) (seg : RegName)
    (base index scale disp : Word) (size : Nat) (hint : MemRequestHint) :
    Proc.Good P (computeAddress (Proc.methods thread) addrSize seg base index scale disp size hint
      b).2.self :=
  computeAddress_survives addrSize
    (Triple.bind (Proc.computeAddress_survives thread Proc.threadFree_good _ _ _ _ _ _ _) fun _ =>
      Triple.pure fun _ h => h) hb

theorem readReg_good (hb : Proc.Good P b.self) (name : RegName) (size : Nat)
    (hint : RegRequestHint) (val : Data) :
    Proc.Good P (readReg (Proc.methods thread) name size hint val b).2.2.self := by
  have hread : Survives (Proc.Good P) ((Proc.methods thread).readRegister name hint) :=
    Triple.bind (Proc.readRegister_survives thread Proc.threadFree_good _ _) fun _ =>
      Triple.pure fun _ h => h
  exact readReg_survives hread hb size val

theorem writeReg_good (hb : Proc.Good P b.self) (name : RegName) (size : Nat) (val : Data) :
    Proc.Good P (writeReg (Proc.methods thread) name size val b).2.self :=
  writeReg_survives (Proc.writeRegister_survives thread Proc.threadFree_good _ _) hb

theorem readFPU_good (hb : Proc.Good P b.self) (val : FPU) :
    Proc.Good P (readFPU (Proc.methods thread) val b).2.2.self :=
  readFPU_survives (Proc.readFPU_survives thread Proc.threadFree_good) hb val

theorem writeFPU_good (hb : Proc.Good P b.self) (val : FPU) :
    Proc.Good P (writeFPU (Proc.methods thread) val b).2.self :=
  writeFPU_survives (Proc.onThread_survives Proc.threadFree_good _) hb

/-- A read keeps the memory good; one that succeeds for a write hint grants its bytes. -/
theorem readMem_good (hP : Memory.Stable P) (hb : Proc.Good P b.self) (addr : Word) (size : Nat)
    (hint : MemRequestHint) (val : Data) :
    Proc.Good P (readMem (Proc.methods thread) addr size hint val b).2.2.self ∧
      (Proc.isWriteHint hint = true →
        (readMem (Proc.methods thread) addr size hint val b).1 = true →
        ∀ i < size / 8, Memory.Writable
          (readMem (Proc.methods thread) addr size hint val b).2.2.self.memory
          (addr.toNat + i)) := by
  unfold readMem
  split
  · exact ⟨hb, by simp⟩
  · obtain ⟨a, b', hc, hgood⟩ | ⟨e, b', hc, hgood⟩ := call_cases
      (Proc.readMemory_grants hP addr.toNat (size / 8) hint) hb
    · simp only [Proc.methods, hc, self_readValue]
      exact ⟨hgood.1, fun hw _ => hgood.2 hw⟩
    · simp only [Proc.methods, hc]
      exact ⟨hgood, by simp⟩

/-- A write to bytes that may be written keeps the memory good. -/
theorem writeMem_good (hP : Memory.Stable P) (hb : Proc.Good P b.self) (addr : Word) (size : Nat)
    (val : Data) (hw : ∀ i < size / 8, Memory.Writable b.self.memory (addr.toNat + i)) :
    Proc.Good P (writeMem (Proc.methods thread) addr size val b).2.self := by
  unfold writeMem
  split
  · exact hb
  · have hm := Proc.writeMemory_survives hP addr.toNat (Bits.toBytes (size / 8) val) b.self
      ⟨hb, by simpa using hw⟩
    unfold call
    simp only [Proc.methods]
    cases hr : Proc.writeMemory addr.toNat (Bits.toBytes (size / 8) val) b.self with
    | ok a s => rw [hr] at hm; exact hm
    | error e s => rw [hr] at hm; exact hm

end Binding

/-! ## the order of callbacks -/

/-- The request for the program counter, with which every instruction begins. -/
def Event.startsInstruction : Event → Bool
  | .readReg _ _ .programCounter _ => true
  | _ => false

/-- The last instruction among these callbacks read `size` bits at `addr` with a write hint, and
the read succeeded. -/
def CheckedBy (events : List Event) (addr : Word) (size : Nat) : Prop :=
  ∃ before between hint, events = before ++ .readMem addr size hint true :: between ∧
    hint.isWrite = true ∧ ∀ e ∈ between, e.startsInstruction = false

/-- Every `WriteMem` is preceded, in the same instruction, by a successful `ReadMem` of the same
address and size with a write hint. -/
def WritesChecked (events : List Event) : Prop :=
  ∀ before addr size data ok after,
    events = before ++ .writeMem addr size data ok :: after → CheckedBy before addr size

theorem CheckedBy.snoc {events : List Event} {addr : Word} {size : Nat} {e : Event}
    (h : CheckedBy events addr size) (he : e.startsInstruction = false) :
    CheckedBy (events ++ [e]) addr size := by
  obtain ⟨before, between, hint, rfl, hw, hb⟩ := h
  refine ⟨before, between ++ [e], hint, by simp, hw, ?_⟩
  simpa [or_imp, forall_and] using ⟨hb, he⟩

theorem checkedBy_readMem (events : List Event) (addr : Word) (size : Nat) {hint : MemRequestHint}
    (h : hint.isWrite = true) : CheckedBy (events ++ [.readMem addr size hint true]) addr size :=
  ⟨events, [], hint, rfl, h, by simp⟩

/-- One more callback: a write must have been checked. -/
theorem WritesChecked.snoc {events : List Event} {e : Event} (h : WritesChecked events)
    (he : ∀ addr size data ok, e = .writeMem addr size data ok → CheckedBy events addr size) :
    WritesChecked (events ++ [e]) := by
  intro before addr size data ok after heq
  cases List.eq_nil_or_concat after with
  | inl hnil =>
      subst hnil
      obtain ⟨rfl, hlast⟩ := List.append_inj' heq rfl
      exact he addr size data ok (by simpa using hlast)
  | inr hsnoc =>
      obtain ⟨after', e', rfl⟩ := hsnoc
      refine h before addr size data ok after' ?_
      rw [List.concat_eq_append, ← List.cons_append, ← List.append_assoc] at heq
      exact (List.append_inj' heq rfl).1

/-! ## the guard -/

namespace Process

/-- The memory is confined to what `m₀` permits, and all writes since `t₀` were checked. -/
def Safe (m₀ : Memory.Core) (t₀ : List Event) : Observation (Binding (Proc τ)) := fun b t =>
  Proc.Good (Memory.Confined m₀) b.self ∧ ∃ events, t = t₀ ++ events ∧ WritesChecked events

/-- The bytes of a write are writable, and the write was checked in this instruction. -/
def Permitted (t₀ : List Event) (addr : Word) (size : Nat) : Observation (Binding (Proc τ)) :=
  fun b t => (∀ i < size / 8, Memory.Writable b.self.memory (addr.toNat + i)) ∧
    ∃ events, t = t₀ ++ events ∧ CheckedBy events addr size

section

variable {m₀ : Memory.Core} {t₀ t : List Event} {b b' : Binding (Proc τ)} {addr : Word} {size : Nat}
  {e : Event}

/-- A callback that is no `WriteMem`. -/
theorem Safe.snoc (h : Safe m₀ t₀ b t) (hb : Proc.Good (Memory.Confined m₀) b'.self)
    (he : ∀ addr size data ok, e ≠ .writeMem addr size data ok) : Safe m₀ t₀ b' (t ++ [e]) := by
  obtain ⟨-, events, rfl, hchecked⟩ := h
  refine ⟨hb, events ++ [e], by simp, hchecked.snoc fun a n d ok heq => ?_⟩
  exact absurd heq (he a n d ok)

/-- A callback within an instruction. -/
theorem Permitted.snoc (h : Permitted t₀ addr size b t)
    (hb : ∀ i < size / 8, Memory.Writable b'.self.memory (addr.toNat + i))
    (he : e.startsInstruction = false) : Permitted t₀ addr size b' (t ++ [e]) := by
  obtain ⟨-, events, rfl, hchecked⟩ := h
  exact ⟨hb, events ++ [e], by simp, hchecked.snoc he⟩

/-- What is writable survives together with the confinement. -/
theorem stable_permitted (m₀ : Memory.Core) (addr n : Nat) :
    Memory.Stable fun m => Memory.Confined m₀ m ∧ ∀ i < n, Memory.Writable m (addr + i) :=
  (Memory.stable_confined m₀).and (Memory.Stable.forall_lt fun i _ =>
    Memory.stable_writable (addr + i))

theorem Permitted.good (h : Permitted t₀ addr size b t) (hs : Safe m₀ t₀ b t) :
    Proc.Good (fun m => Memory.Confined m₀ m ∧
      ∀ i < size / 8, Memory.Writable m (addr.toNat + i)) b.self :=
  ⟨hs.1.1, hs.1.2, h.1⟩

end

/-- The reading callbacks of a process keep it safe. -/
theorem safe_reads (process : Process) (thread : Thread τ) (m₀ : Memory.Core) (t₀ : List Event) :
    ReadInvariant (process.executor thread) (Safe m₀ t₀) where
  computeAddress seg base index scale disp size hint h :=
    h.snoc (Binding.computeAddress_good thread h.1 _ seg base index scale disp size hint)
      fun _ _ _ _ => Event.noConfusion
  readReg name size hint data h :=
    h.snoc (Binding.readReg_good thread h.1 name size hint data) fun _ _ _ _ => Event.noConfusion
  readMem addr size hint data h :=
    h.snoc (Binding.readMem_good thread (Memory.stable_confined m₀) h.1 addr size hint data).1
      fun _ _ _ _ => Event.noConfusion
  readFPU fpu h :=
    h.snoc (Binding.readFPU_good thread h.1 fpu) fun _ _ _ _ => Event.noConfusion
  clearError h := h

/-- The executor of a process writes only what is permitted. -/
theorem guarded (process : Process) (thread : Thread τ) (m₀ : Memory.Core) (t₀ : List Event) :
    Guarded (process.executor thread) (Safe m₀ t₀) (Permitted t₀) where
  reads := safe_reads process thread m₀ t₀
  ok_computeAddress seg base index scale disp size hint hok hs :=
    hok.snoc (Binding.computeAddress_good thread (hok.good hs) _ seg base index scale disp size
      hint).2.2 rfl
  ok_readMem addr size hint data hok hs :=
    hok.snoc (Binding.readMem_good thread (stable_permitted m₀ _ _) (hok.good hs) addr size hint
      data).1.2.2 rfl
  grant := by
    intro b t addr len hint data hs hlen hhint hread
    have hwrite : Proc.isWriteHint hint = true := by
      cases hint <;> first | rfl | contradiction
    refine ⟨(Binding.readMem_good thread (Memory.stable_confined m₀) hs.1 addr (8 * len) hint
      data).2 hwrite hread, ?_⟩
    obtain ⟨events, rfl, -⟩ := hs.2
    exact ⟨events ++ [.readMem addr (8 * len) hint true], by simp,
      checkedBy_readMem events addr (8 * len) hhint⟩
  writeMem := by
    intro b t addr size data hs hok
    refine ⟨Binding.writeMem_good thread (Memory.stable_confined m₀) hs.1 addr size data hok.1, ?_⟩
    obtain ⟨events, rfl, hchecked⟩ := hs.2
    obtain ⟨events', heq, hby⟩ := hok.2
    obtain rfl := List.append_cancel_left heq
    refine ⟨events ++ [_], by simp; rfl, hchecked.snoc fun a n d ok he => ?_⟩
    cases he
    exact hby
  ok_writeMem addr size data hok' hs hok :=
    hok'.snoc (Binding.writeMem_good thread (stable_permitted m₀ _ _) (hok'.good hs) addr size data
      hok.1).2.2 rfl
  writeReg name size data hs :=
    hs.snoc (Binding.writeReg_good thread hs.1 name size data) fun _ _ _ _ => Event.noConfusion
  writeFPU fpu hs :=
    hs.snoc (Binding.writeFPU_good thread hs.1 fpu) fun _ _ _ _ => Event.noConfusion

/-! ## runs -/

section

variable {ρ : Type} {G : ρ → List Event → Prop}

/-- A call of `Executor.execute` keeps what it says of the object and the callbacks. -/
theorem execute_keeps {ex : Executor (Binding ρ)} {n : Nat}
    (h : Keeps (fun b => G b.self) (ex.execute n)) :
    Triple (Sat fun b => G b.self) (Binding.execute ex n) (fun _ => Sat fun b => G b.self) fun _ =>
      Sat fun b => G b.self := by
  intro w hw
  have hkeeps := h { w with env := w.env.resetErrors } hw
  unfold Binding.execute
  cases hrun : ex.execute n { w with env := w.env.resetErrors } with
  | ok u w' =>
      rw [hrun] at hkeeps
      dsimp only
      cases w'.env.pending with
      | none => exact hkeeps
      | some e => exact hkeeps
  | error status w' => rw [hrun] at hkeeps; exact hkeeps

/-- So does a method of the object itself. -/
theorem callSelf_keeps {m : EStateM PyExc ρ α} (h : ∀ t, Binding.Survives (G · t) m) :
    Triple (Sat fun b => G b.self) (callSelf m) (fun _ => Sat fun b => G b.self) fun _ =>
      Sat fun b => G b.self := by
  intro w hw
  have hm := h w.trace w.env.self hw
  unfold callSelf
  cases hr : m w.env.self with
  | ok a p => rw [hr] at hm; exact hm
  | error e p => rw [hr] at hm; exact hm

end

section

variable {m₀ : Memory.Core} {t₀ : List Event}

variable (process : Process)

/-- Whatever the library decodes, no `AGEN` operand is written and memory operands have at most 64
bytes. -/
def PlainMemory : Prop :=
  ∀ bytes inst, process.xed.decode process.addrSize bytes = some inst → inst.PlainMemory

variable {process}

/-- A call of `Process.execute` keeps the observation, however it ends. -/
theorem execute_safe (hplain : process.PlainMemory) (thread : Thread τ) (n : Nat) :
    Triple (Sat (Safe m₀ t₀)) (process.execute thread n) (fun _ => Sat (Safe m₀ t₀)) fun _ =>
      Sat (Safe m₀ t₀) := by
  let G : Proc τ → List Event → Prop := fun p t =>
    Proc.Good (Memory.Confined m₀) p ∧ ∃ events, t = t₀ ++ events ∧ WritesChecked events
  refine Triple.ite (fun _ => ?_) fun _ => Triple.throw fun _ h => h
  refine Triple.bind (execute_keeps (G := G) ((guarded process thread m₀ t₀).execute hplain n))
    fun _ => ?_
  exact callSelf_keeps (G := G) fun t =>
    (addToTSC_survives thread Proc.threadFree_good n).and_const _

end

/-- The state after some calls of `execute`, each of which may have raised. -/
def run (process : Process) : List (Thread τ × Nat) → State τ → State τ
  | [], w => w
  | (thread, n) :: calls, w =>
      match process.execute thread n w with
      | .ok _ w => run process calls w
      | .error _ w => run process calls w

theorem run_safe {process : Process} (hplain : process.PlainMemory) {m₀ : Memory.Core}
    {t₀ : List Event} (calls : List (Thread τ × Nat)) :
    ∀ w : State τ, Sat (Safe m₀ t₀) w → Sat (Safe m₀ t₀) (process.run calls w) := by
  induction calls with
  | nil => exact fun w hw => hw
  | cons call calls ih =>
      intro w hw
      have hcall := execute_safe hplain call.1 call.2 w hw
      unfold run
      cases hrun : process.execute call.1 call.2 w with
      | ok u w' => rw [hrun] at hcall; exact ih w' hcall
      | error e w' => rw [hrun] at hcall; exact ih w' hcall

/-- **Write permission is never bypassed.**  Over any calls of `execute` a byte changes only if its
page resolves to the map it belongs to and that map grants writing it; every `WriteMem` was
preceded in its instruction by a successful read of the same bytes with a write hint; and a store
to writable bytes touches no others. -/
theorem run_write_permitted {process : Process} (hplain : process.PlainMemory) {w : State τ}
    (hfilled : Memory.Filled w.env.self.memory) (calls : List (Thread τ × Nat)) :
    (∀ r < w.env.self.memory.numObjs, ∀ p, (w.env.self.memory.objs r).range? = some p →
      ∀ a, p.base ≤ a →
        ((process.run calls w).env.self.memory.objs r).byteAt a ≠
          (w.env.self.memory.objs r).byteAt a →
        w.env.self.memory.resolve a = some r ∧ (w.env.self.memory.objs r).canWrite a = true) ∧
    (∃ events, (process.run calls w).trace = w.trace ++ events ∧ WritesChecked events) ∧
    ∀ (m : Memory.Core) (addr : Nat) (data : List Byte),
      (∀ i < data.length, Memory.Writable m (addr + i)) →
        Meets (fun _ m' => Memory.Touches m m' addr data.length)
          (fun _ m' => Memory.Touches m m' addr data.length) (Memory.store addr data m) := by
  have hstart : Sat (Safe w.env.self.memory w.trace) w :=
    ⟨⟨Memory.closed_of_filled hfilled, Memory.Confined.refl _⟩, [], by simp, by
      intro before addr size data ok after h
      simp at h⟩
  obtain ⟨⟨-, hconfined⟩, hevents⟩ := run_safe hplain calls w hstart
  exact ⟨hconfined.byteAt, hevents, fun m addr data hw =>
    Memory.store_touches fun i hi => (hw i hi).inRange⟩

/-- A page of code, which may not be written. -/
def codePage : PermissionedMemoryMap := ⟨0, 2, true, false, true, Nat.two_pos⟩

/-- Code, and four bytes of data behind it, not yet in the page table. -/
def codeAndData : Memory.Core :=
  { Memory.twoBytePages with
    objs := fun r => .array (ArrayMemoryMap.init (if r = 0 then codePage else Memory.fourBytes))
    numObjs := 2 }

/-- The same memory after `add_map` of both. -/
def codeAndDataAdded : Memory.Core :=
  match ([0, 1].forM Memory.addMap : EStateM PyExc Memory.Core PUnit) codeAndData with
  | .ok _ m => m
  | .error _ m => m

theorem filled_codeAndDataAdded : Memory.Filled codeAndDataAdded := by
  refine ⟨codeAndData, [0, 1], rfl, fun r hr => ?_, rfl⟩
  obtain rfl | rfl : r = 0 ∨ r = 1 := by simpa using hr
  · exact ⟨Nat.two_pos, rfl⟩
  · exact ⟨Nat.one_lt_two, rfl⟩

/-- `INC byte [3]`. -/
def incByte : Inst :=
  .scalar (.other 0) 1 8 [⟨.mem0, true, true, false, .explicit⟩] (fun _ => .invalid)
    (fun _ => ⟨.seg .ds, .invalid, .invalid, 1, 3, 32, 1⟩) 0

/-- A processor on which every instruction is that one. -/
def incrementing : Process where
  xed := Xed.ofDecoder (fun _ _ => some incByte) fun _ => true
  cpu := { native := fun _ s => (.none, { s with cell := s.cell + 1 }), stackPointer := 0, fpu := 0 }
  isInitialized := true
  addrSize := .x32

/-- The process before its first call. -/
def beforeIncrements : State Unit := World.start (Binding.start ⟨codeAndDataAdded, ()⟩)

/-- Three increments in two calls. -/
def incremented : State Unit :=
  incrementing.run [(zeroThread, 2), (zeroThread, 1)] beforeIncrements

/-- The byte that is incremented three times lies in the map that grants writing it, and the store
of its first value was checked. -/
theorem run_write_permitted_increments :
    ((codeAndDataAdded.objs 1).byteAt 3 = 0 ∧ (incremented.env.self.memory.objs 1).byteAt 3 = 3) ∧
      codeAndDataAdded.resolve 3 = some 1 ∧ (codeAndDataAdded.objs 1).canWrite 3 = true ∧
      ∃ before after, incremented.trace = before ++ .writeMem 3 8 1 true :: after ∧
        CheckedBy before 3 8 := by
  have hplain : incrementing.PlainMemory := by
    rintro bytes inst ⟨⟩
    refine ⟨fun op hop hagen => ?_, fun i => show 1 ≤ 64 by decide⟩
    obtain rfl := List.mem_singleton.mp hop
    cases hagen
  have hold : (codeAndDataAdded.objs 1).byteAt 3 = 0 := by decide +kernel
  have hnew : (incremented.env.self.memory.objs 1).byteAt 3 = 3 := by decide +kernel
  have hstore : Event.writeMem 3 8 1 true ∈ incremented.trace := by decide +kernel
  have hchanged : (incremented.env.self.memory.objs 1).byteAt 3 ≠
      (codeAndDataAdded.objs 1).byteAt 3 := by
    rw [hnew, hold]
    decide
  have hpermitted := run_write_permitted (w := beforeIncrements) hplain filled_codeAndDataAdded
    [(zeroThread, 2), (zeroThread, 1)]
  rw [show incrementing.run _ beforeIncrements = incremented from rfl] at hpermitted
  obtain ⟨hbyte, ⟨events, htrace, hchecked⟩, -⟩ := hpermitted
  obtain ⟨hres, hwrite⟩ := hbyte 1 Nat.one_lt_two Memory.fourBytes rfl 3 (by decide) hchanged
  obtain ⟨before, after, hsplit⟩ := List.append_of_mem hstore
  exact ⟨⟨hold, hnew⟩, hres, hwrite, before, after, hsplit,
    hchecked before 3 8 1 true after (htrace.symm.trans hsplit)⟩

end Process

end Microx
