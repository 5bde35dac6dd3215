import Microx.Executor.Invariant
import Microx.Godefroid.Evolution
import Microx.Godefroid.PolicyAccess
import Microx.Godefroid.Process
import Microx.Godefroid.Sections
import Microx.LinearAddress
import Microx.Memory.Shared
import Microx.WriteSafety

/-!
# Microx.Godefroid.Addresses

The input addresses that a 32-bit Godefroid process records.

`compute_address` adds up the parts of an address as unbounded integers, the
displacement as an unsigned 64-bit one, and classifies the sum; the executor
masks what it gets back down to the address size.  The two agree exactly when
the sum is below that size (`classified_eq_accessed_iff`), which a negative
displacement never is, and as long as it is for every address of a run, the
recorded inputs are addresses of the 32-bit space (`godefroidRun_inputsFit`).
-/

namespace Microx

open Hoare

/-! ## recorded inputs -/

namespace InputMemoryPolicy

variable {n : Nat}

/-- Accesses whose inputs lie below `n`. -/
def Accesses.below (n : Nat) : Accesses := ⟨(· < n), fun _ _ => True, fun _ => True⟩

/-- Both ways out of a method keep the inputs below `n`. -/
abbrev KeepsBelow {α : Type} (n : Nat) (m : PolicyM α) : Prop :=
  Triple (InputsBelow n) m (fun _ => InputsBelow n) fun _ => InputsBelow n

theorem EvolvesThrough.below {α : Type} {m : PolicyM α} (h : EvolvesThrough (.below n) m) :
    KeepsBelow n m :=
  h.keeps fun _ _ hstep => hstep.inputsBelow fun _ hlt => hlt

/-- `handle_compute` hands the address back as it got it. -/
theorem handleCompute_returns {result base scale index disp size addr : Nat}
    {p p' : InputMemoryPolicy}
    (h : handleCompute result base scale index disp size p = .ok addr p') : addr = result := by
  unfold handleCompute at h
  obtain ⟨known, p₁, _, h⟩ := bind_eq_ok.mp h
  split at h
  · exact (EStateM.Result.ok.inj h).1.symm
  · rw [run_get_bind] at h
    dsimp only at h
    split at h <;> exact (EStateM.Result.ok.inj h).1.symm

end InputMemoryPolicy

/-! ## accesses of policy maps -/

namespace PolicyMemoryMap

open InputMemoryPolicy Memory

variable {n : Nat}

/-- The shared policy, if there is one, has its inputs below `n`. -/
def PolicyBelow (n : Nat) (policy : Option InputMemoryPolicy) : Prop :=
  ∀ p, policy = some p → p.InputsBelow n

theorem callInput_below {α : Type} {f : PolicyM α} (h : KeepsBelow n f) :
    MethodKeeps (PolicyBelow n) (callInput f) := by
  intro s hs
  unfold callInput
  cases hp : s.2 with
  | none => exact hs
  | some p =>
      have hf := h p (hs p hp)
      dsimp only
      cases hr : f p with
      | ok a p' => rw [hr] at hf; rintro _ ⟨⟩; exact hf
      | error e p' => rw [hr] at hf; rintro _ ⟨⟩; exact hf

/-- A callback of the map keeps the inputs below `n`, at an address. -/
abbrev CallbackBelow (n addr : Nat) (callback : Nat → Nat → List Byte → PolicyMethod (List Byte)) :
    Prop :=
  ∀ size data, MethodKeeps (PolicyBelow n) (callback addr size data)

theorem readBeforeWrite_callback {addr : Nat} (h : addr < n) :
    CallbackBelow n addr readBeforeWrite := by
  intro size data
  refine Triple.read fun s => ?_
  split
  · exact Triple.pure fun _ hs => hs
  · exact callInput_below (readBeforeWrite_evolves (A := .below n) h trivial data).below

theorem writeBeforeRead_callback (addr : Nat) : CallbackBelow n addr writeBeforeRead := by
  intro size data
  refine Triple.read fun s => ?_
  split
  · exact Triple.pure fun _ hs => hs
  · exact callInput_below
      (writeBeforeRead_evolves (A := .below n) (fun _ _ _ => trivial) data).below

theorem replaceData_below {callback : Nat → Nat → List Byte → PolicyMethod (List Byte)} {addr : Nat}
    (h : CallbackBelow n addr callback) (size : Nat) :
    MethodKeeps (PolicyBelow n) (replaceData callback addr size) := by
  refine Triple.read fun s => Triple.bind (h _ _) fun new => ?_
  exact Triple.bind (pyAssert_triple _) fun _ => Triple.update fun _ hs => hs

theorem setFlags_below (addr : Nat) (flags : List PolicyFlags) :
    MethodKeeps (PolicyBelow n) (setFlags addr flags) :=
  Triple.update fun _ hs => hs

/-- Whether the policy handles a load; it only handles addresses it watches. -/
theorem handleLoad_below (addr : Nat) :
    Triple (fun s => PolicyBelow n s.2) (handleLoad addr)
      (fun handled s => PolicyBelow n s.2 ∧ (handled = true → addr < n))
      fun _ s => PolicyBelow n s.2 := by
  refine Triple.read fun s => ?_
  split
  · exact Triple.pure fun _ hs => ⟨hs, by simp⟩
  · intro s hs
    unfold callInput
    cases hp : s.2 with
    | none => exact hs
    | some p =>
        refine ⟨?_, (hs p hp).watches addr⟩
        rintro _ ⟨⟩
        exact hs p hp

theorem loadPolicy_below (addr size : Nat) :
    MethodKeeps (PolicyBelow n) (loadPolicy addr size) := by
  refine Triple.bind (handleLoad_below addr) fun handled => ?_
  refine Triple.ite (fun hhandled => ?_) fun _ => Triple.pure fun _ hs => hs.1
  rintro s ⟨hs, hlt⟩
  have haddr := hlt hhandled
  refine Triple.read (P := fun s => PolicyBelow n s.2) (fun t => ?_) s hs
  dsimp only
  refine Triple.bind (Q := fun _ s => PolicyBelow n s.2) ?_ fun _ => setFlags_below addr _
  unfold loadCallback
  split
  · exact replaceData_below (readBeforeWrite_callback haddr) size
  · exact Triple.pure fun _ hs => hs

theorem storePolicy_below (addr size : Nat) :
    MethodKeeps (PolicyBelow n) (storePolicy addr size) := by
  refine Triple.bind (Q := fun _ s => PolicyBelow n s.2) ?_ fun handled => ?_
  · refine Triple.read fun s => ?_
    split
    · exact Triple.pure fun _ hs => hs
    · exact callInput_below (Triple.read fun _ => Triple.pure fun _ hp => hp)
  · refine Triple.ite (fun _ => ?_) fun _ => Triple.pure fun _ hs => hs
    refine Triple.read fun s => ?_
    dsimp only
    refine Triple.bind (Q := fun _ s => PolicyBelow n s.2) ?_ fun _ => setFlags_below addr _
    unfold storeCallback
    split
    · exact replaceData_below (writeBeforeRead_callback addr) size
    · refine Triple.read fun s => ?_
      split
      · exact Triple.throw fun _ hs => hs
      · exact callInput_below (addOutput_evolves (A := .below n) fun _ _ _ => trivial).below

theorem storeBytesRaw_below (addr : Nat) (data : List Byte) :
    MethodKeeps (PolicyBelow n) (storeBytesRaw addr data) := by
  intro s hs
  unfold storeBytesRaw
  dsimp only
  split <;> exact hs

theorem loadUnit_below (addr size : Nat) : MethodKeeps (PolicyBelow n) (loadUnit addr size) :=
  Triple.bind (loadPolicy_below addr size) fun _ => Triple.read fun _ => Triple.pure fun _ hs => hs

theorem storeUnit_below (addr size : Nat) (data : List Byte) :
    MethodKeeps (PolicyBelow n) (storeUnit addr size data) :=
  Triple.bind (storePolicy_below addr size) fun _ => storeBytesRaw_below addr _

end PolicyMemoryMap

namespace GodefroidMap

open PolicyMemoryMap Memory

variable {n : Nat}

theorem onPolicy_below {α : Type} {f : PolicyMethod α} (h : MethodKeeps (PolicyBelow n) f)
    (exc : PyExc) : MethodKeeps (PolicyBelow n) (onPolicy exc f) := by
  intro s hs
  unfold onPolicy
  cases hm : s.1 with
  | memoryMap => exact hs
  | policy m =>
      have hf := h (m, s.2) hs
      dsimp only
      cases hr : f (m, s.2) with
      | ok a t => rw [hr] at hf; exact hf
      | error e t => rw [hr] at hf; exact hf

/-- **Every method of the maps** keeps the inputs below `n`. -/
theorem mapsKeep_below (n : Nat) : MapsKeep GodefroidMap (PolicyBelow n) where
  loadByte addr := onPolicy_below (loadUnit_below addr 1) _
  loadWord addr := onPolicy_below (loadUnit_below addr 2) _
  loadDword addr := onPolicy_below (loadUnit_below addr 4) _
  loadQword addr := onPolicy_below (loadUnit_below addr 8) _
  loadBytes addr size := onPolicy_below (loadUnit_below addr size) _
  storeByte addr data := onPolicy_below (storeUnit_below addr 1 data) _
  storeWord addr data := onPolicy_below (storeUnit_below addr 2 data) _
  storeDword addr data := onPolicy_below (storeUnit_below addr 4 data) _
  storeQword addr data := onPolicy_below (storeUnit_below addr 8 data) _
  storeBytes addr data := onPolicy_below
    (Triple.bind (storePolicy_below addr _) fun _ => storeBytesRaw_below addr data) _

end GodefroidMap

/-! ## methods of the process -/

namespace GodefroidProc

open InputMemoryPolicy PolicyMemoryMap Memory Binding

variable {τ : Type} {n : Nat}

/-- The inputs of the process lie below `n`. -/
def Below (n : Nat) (p : GodefroidProc τ) : Prop := Shares (PolicyBelow n) p.memory

theorem threadFree_below : Proc.ThreadFree (Below n : GodefroidProc τ → Prop) := fun _ _ h => h

theorem callPolicy_below {α : Type} {m : PolicyM α} (h : KeepsBelow n m) :
    Survives (Below n) (callPolicy m : EStateM PyExc (GodefroidProc τ) α) := by
  intro p hp
  unfold callPolicy
  cases hs : p.memory.shared with
  | none => exact hp
  | some policy =>
      have hm := h policy (hp policy hs)
      dsimp only
      cases hr : m policy with
      | ok a policy' => rw [hr] at hm; rintro _ ⟨⟩; exact hm
      | error e policy' => rw [hr] at hm; rintro _ ⟨⟩; exact hm

/-- All segments start at zero, as far as the thread knows them. -/
def ZeroSegments (thread : Thread τ) : Prop :=
  ∀ seg hint s v s', thread.readRegister (.base seg) hint s = .ok v s' → convertToInteger v = .ok 0

variable {thread : Thread τ}

/-- What `Process.compute_address` adds up to, over segments that start at zero. -/
theorem computeAddress_sum (hz : ZeroSegments thread) {G : GodefroidProc τ → Prop}
    (hG : Proc.ThreadFree G) (seg : RegName) (base index scale disp size : Nat)
    (hint : MemRequestHint) :
    Triple G (Proc.computeAddress thread seg base index scale disp size hint)
      (fun i p => G p ∧ i = ((base + index * scale + disp : Nat) : Int)) fun _ => G := by
  refine Triple.bind (Q := fun b p => G p ∧ b = 0) ?_ fun b => ?_
  · refine Triple.ite (fun _ => ?_) fun _ => Triple.pure fun _ h => ⟨h, rfl⟩
    refine Triple.bind (Q := fun b p => G p ∧ b = 0) ?_ fun b => ?_
    · refine Triple.bind (Q := fun v p => G p ∧ convertToInteger v = .ok 0) ?_ fun v => ?_
      · intro p hp
        unfold Proc.onThread
        cases hr : thread.readRegister (.base seg) .memorySegmentAddress p.thread with
        | ok v t => exact ⟨hG p t hp, hz _ _ _ _ _ hr⟩
        | error e t => exact hG p t hp
      · rintro p ⟨hp, hv⟩
        rw [hv]
        exact ⟨hp, rfl⟩
    · exact Triple.read fun p => Triple.pure fun _ h => ⟨h.1, by rw [h.2, Int.zero_emod]⟩
  · refine Triple.pure fun p h => ⟨h.1, ?_⟩
    rw [h.2]
    push_cast
    rw [Int.zero_add]

/-- `compute_address` with a sum below `n`. -/
theorem computeAddress_below (hz : ZeroSegments thread) {base index scale disp : Nat}
    (h : base + index * scale + disp < n) (seg : RegName) (size : Nat) (hint : MemRequestHint) :
    Survives (Below n) (computeAddress thread seg base index scale disp size hint) := by
  refine Triple.bind (computeAddress_sum hz threadFree_below _ _ _ _ _ _ _) fun i => ?_
  rintro p ⟨hp, rfl⟩
  have hbelow : ((base + index * scale + disp : Nat) : Int).toNat < n := by
    rw [Int.toNat_natCast]
    exact h
  have hevolves := handleCompute_evolves (A := .below n) hbelow base index scale disp size
  refine Triple.bind (callPolicy_below hevolves.below) (fun addr => ?_) p hp
  exact Triple.pure fun _ hq => hq

/-- `read_memory` -/
theorem readMemory_below (addr numBytes : Nat) (hint : MemRequestHint) :
    Survives (Below n)
      (Proc.readMemory addr numBytes hint : EStateM PyExc (GodefroidProc τ) PyValue) := by
  have hrequire (check : Bool) {perm : EStateM PyExc (Memory GodefroidMap _) Bool}
      (h : SharesThrough (PolicyBelow n) perm) (fault : AccessFault) :
      SharesThrough (PolicyBelow n) (Proc.require check perm fault) := by
    refine Triple.ite (fun _ => Triple.bind h fun ok => ?_) fun _ => Triple.pure fun _ h => h
    exact Triple.ite (fun _ => Triple.pure fun _ h => h) fun _ => Triple.throw fun _ h => h
  have hcheck (a : Nat) : SharesThrough (PolicyBelow n)
      (Proc.checkByte hint a : EStateM PyExc (Memory GodefroidMap _) Unit) := by
    refine Triple.bind (hrequire _ (canRead_shares a) _) fun _ => ?_
    exact Triple.bind (hrequire _ (canWrite_shares a) _) fun _ =>
      hrequire _ (canExecute_shares a) _
  refine Triple.bind (Proc.onMemory_triple (Triple.forM fun i _ => hcheck (addr + i))) fun _ => ?_
  refine Triple.bind (Proc.onMemory_triple (load_shares (GodefroidMap.mapsKeep_below n) _ _))
    fun bs => ?_
  exact Triple.pure fun _ hp => hp

theorem writeMemory_below (addr : Nat) (data : List Byte) :
    Survives (Below n)
      (Proc.writeMemory addr data : EStateM PyExc (GodefroidProc τ) Unit) :=
  Proc.onMemory_triple (store_shares (GodefroidMap.mapsKeep_below n) addr data)

end GodefroidProc

/-! ## memory operands -/

/-- The sum of a cell's parts, as Python computes it: the address that is classified. -/
def Cell.classified (c : Cell) : Nat :=
  c.base.toNat + c.index.toNat * c.scale.toNat + c.displacement.toNat

/-- The executor truncates the sum to the width of the address. -/
theorem toNat_truncateAddress {aw : Nat} (haw : aw = 16 ∨ aw = 32) (base index scale disp : Word) :
    (Executor.truncateAddress aw (base + index * scale + disp)).toNat =
      (base.toNat + index.toNat * scale.toNat + disp.toNat) % 2 ^ aw := by
  rcases haw with rfl | rfl
  all_goals
    simp [Executor.truncateAddress, BitVec.toNat_add, BitVec.toNat_mul]
    omega

namespace Binding

open GodefroidProc

variable {τ : Type}

/-- `compute_address` of a Godefroid process hands the address back as it got it. -/
theorem computeAddress_returns {thread : Thread τ} (hz : ZeroSegments thread) (seg : RegName)
    (base index scale disp size : Nat) (hint : MemRequestHint) :
    Triple (fun _ => True) (GodefroidProc.computeAddress thread seg base index scale disp size hint)
      (fun i _ => i = ((base + index * scale + disp : Nat) : Int)) fun _ _ => True := by
  refine Triple.bind (Q := fun i _ => i = ((base + index * scale + disp : Nat) : Int)) ?_ fun i => ?_
  · exact (GodefroidProc.computeAddress_sum hz (G := fun _ => True) (fun _ _ h => h) seg base index
      scale disp size hint).post fun _ _ h => h.2
  · rintro p rfl
    refine Triple.bind (P := fun _ => True)
      (Q := fun addr _ => addr = base + index * scale + disp) ?_ (fun addr => ?_) p trivial
    · intro p _
      unfold callPolicy
      cases p.memory.shared with
      | none => trivial
      | some policy =>
          dsimp only
          rw [Int.toNat_natCast]
          cases hr : InputMemoryPolicy.handleCompute (base + index * scale + disp) base index scale
              disp size policy with
          | ok addr policy' => exact InputMemoryPolicy.handleCompute_returns hr
          | error e policy' => trivial
    · exact Triple.pure fun _ h => by rw [h]

/-- A sum that fits Python's conversion is the one the executor would compute. -/
theorem setWidth_ofInt_sum (base index scale disp : Word) :
    (BitVec.ofInt 512 ((base.toNat + index.toNat * scale.toNat + disp.toNat : Nat) : Int)).setWidth
      64 = base + index * scale + disp := by
  apply BitVec.eq_of_toNat_eq
  have hle : 64 ≤ 512 := by omega
  rw [BitVec.toNat_setWidth, BitVec.ofInt_natCast, BitVec.toNat_ofNat, Nat.mod_mod_of_dvd _ (Nat.pow_dvd_pow 2 hle),
    BitVec.toNat_add, BitVec.toNat_add, BitVec.toNat_mul]
  generalize index.toNat * scale.toNat = product
  omega

/-- **The address that `ComputeAddress` returns**, unless an error makes all callbacks fail. -/
theorem computeAddress_value {thread : Thread τ} (hz : ZeroSegments thread)
    {addrSize : AddressSize} {seg : RegName} {base index scale disp : Word} {size : Nat}
    {hint : MemRequestHint} {b : Binding (GodefroidProc τ)} (hb : b.hasError = false) :
    (computeAddress (GodefroidProc.methods thread) addrSize seg base index scale disp size hint
      b).1 = base + index * scale + disp := by
  have hreturns : Triple (fun _ => True)
      ((GodefroidProc.methods thread).computeAddress seg base.toNat index.toNat scale.toNat
        disp.toNat (size / 8) hint)
      (fun v _ => v = .int ((base.toNat + index.toNat * scale.toNat + disp.toNat : Nat) : Int))
      fun _ _ => True := by
    refine Triple.bind (computeAddress_returns hz _ _ _ _ _ _ _) fun i => ?_
    exact Triple.pure fun _ hi => by rw [hi]
  unfold computeAddress
  simp only [hb, Bool.false_eq_true, if_false]
  obtain ⟨v, b', hc, rfl⟩ | ⟨e, b', hc, -⟩ := call_cases hreturns (b := b) trivial
  · simp only [hc]
    split
    · next hread =>
      rw [value_readValue_int hread]
      exact setWidth_ofInt_sum base index scale disp
    · rfl
  · simp only [hc]

end Binding

/-! ## runs -/

/-- The sum of an address, as Python computes it, is below `n`. -/
def Event.SumBelow (n : Nat) : Event → Prop
  | .computeAddress _ base index scale disp _ _ =>
      base.toNat + index.toNat * scale.toNat + disp.toNat < n
  | _ => True

instance (n : Nat) (e : Event) : Decidable (e.SumBelow n) :=
  match e with
  | .computeAddress .. => inferInstanceAs (Decidable (_ < _))
  | .readReg .. | .writeReg .. | .readMem .. | .writeMem .. | .readFPU .. | .writeFPU .. =>
      inferInstanceAs (Decidable True)

namespace Process

open GodefroidProc Binding Memory Section

variable {τ : Type} {n : Nat}

/-- The inputs lie below `n` if all sums did. -/
def InputsFit (n : Nat) : Observation (Binding (GodefroidProc τ)) := fun b t =>
  (∀ e ∈ t, e.SumBelow n) → Below n b.self

theorem InputsFit.snoc {b b' : Binding (GodefroidProc τ)} {t : List Event} {e : Event}
    (h : InputsFit n b t) (hb : e.SumBelow n → Below n b.self → Below n b'.self) :
    InputsFit n b' (t ++ [e]) := by
  intro hall
  simp only [List.mem_append, List.mem_singleton, or_imp, forall_and, forall_eq] at hall
  exact hb hall.2 (h hall.1)

/-- Every callback of a Godefroid process keeps its inputs below `n`. -/
theorem invariant_inputsFit (process : Process) {thread : Thread τ} (hz : ZeroSegments thread) :
    Invariant (process.godefroidExecutor thread) (InputsFit n) where
  reads :=
    { computeAddress := fun seg base index scale disp size hint h =>
        h.snoc fun hsum hb => computeAddress_survives _
          (Triple.bind (computeAddress_below hz hsum _ _ _) fun _ => Triple.pure fun _ h => h) hb
      readReg := fun name size hint data h => h.snoc fun _ hb => by
        have hread : Survives (Below n) ((GodefroidProc.methods thread).readRegister name hint) :=
          Triple.bind (Proc.readRegister_survives thread threadFree_below _ _) fun _ =>
            Triple.pure fun _ h => h
        exact readReg_survives hread hb size data
      readMem := fun addr size hint data h => h.snoc fun _ hb =>
        readMem_survives (readMemory_below _ _ _) hb data
      readFPU := fun fpu h => h.snoc fun _ hb =>
        readFPU_survives (Proc.readFPU_survives thread threadFree_below) hb fpu
      clearError := fun h => h }
  commits :=
    { writeReg := fun name size data h => h.snoc fun _ hb =>
        writeReg_survives (Proc.writeRegister_survives thread threadFree_below _ _) hb
      writeFPU := fun fpu h => h.snoc fun _ hb =>
        writeFPU_survives (Proc.onThread_survives threadFree_below _) hb }
  writeMem addr size data h := h.snoc fun _ hb => writeMem_survives (writeMemory_below _ _) hb

/-- A call of `execute` keeps the inputs below `n`, however it ends. -/
theorem godefroidExecute_inputsFit (process : Process) {thread : Thread τ}
    (hz : ZeroSegments thread) (k : Nat) :
    Triple (Sat (InputsFit n)) (process.godefroidExecute thread k) (fun _ => Sat (InputsFit n))
      fun _ => Sat (InputsFit n) := by
  let G : GodefroidProc τ → List Event → Prop := fun p t =>
    (∀ e ∈ t, e.SumBelow n) → Below n p
  refine Triple.ite (fun _ => ?_) fun _ => Triple.throw fun _ h => h
  refine Triple.bind (execute_keeps (G := G) ((invariant_inputsFit process hz).execute k))
    fun _ => ?_
  refine callSelf_keeps (G := G) fun t p hp => ?_
  have hadd (hall : ∀ e ∈ t, e.SumBelow n) :=
    addToTSC_survives thread threadFree_below k p (hp hall)
  cases hr : addToTSC thread k p with
  | ok a p' => rw [hr] at hadd; exact hadd
  | error e p' => rw [hr] at hadd; exact hadd

theorem godefroidRun_inputsFit (process : Process) (calls : List (Thread τ × Nat)) :
    ∀ w : GodefroidState τ, (∀ call ∈ calls, ZeroSegments call.1) → Sat (InputsFit n) w →
      Sat (InputsFit n) (process.godefroidRun calls w) := by
  induction calls with
  | nil => exact fun w _ hw => hw
  | cons call calls ih =>
      intro w hz hw
      have hcall := godefroidExecute_inputsFit process (hz call List.mem_cons_self) call.2 w hw
      have hrest := fun w' => ih w' fun x hx => hz x (List.mem_cons_of_mem _ hx)
      unfold godefroidRun
      cases hrun : process.godefroidExecute call.1 call.2 w with
      | ok u w' => rw [hrun] at hcall; exact hrest w' hcall
      | error e w' => rw [hrun] at hcall; exact hrest w' hcall

/-- **The address of a memory operand**: what is classified is what is accessed exactly when the
sum is below the size of the address. -/
theorem classified_eq_accessed_iff (process : Process) {thread : Thread τ} (hz : ZeroSegments thread)
    {inst : Inst} {op : Operand} {i : Fin 2} {w : GodefroidState τ}
    (haw : (inst.memOperand i).addressWidth = 16 ∨ (inst.memOperand i).addressWidth = 32)
    (herr : w.env.hasError = false) :
    let ex := process.godefroidExecutor thread
    let c := ex.describedCellAt inst op i w
    c.classified = (ex.operandAddress inst op i w).toNat ↔
      c.classified < 2 ^ (inst.memOperand i).addressWidth := by
  intro ex c
  have hvalue : (ex.askedAddress inst op i w).1 = c.base + c.index * c.scale + c.displacement :=
    computeAddress_value hz herr
  have haddr : (ex.operandAddress inst op i w).toNat =
      c.classified % 2 ^ (inst.memOperand i).addressWidth := by
    rw [Executor.operandAddress, hvalue]
    exact toNat_truncateAddress haw _ _ _ _
  have hpos : 0 < 2 ^ (inst.memOperand i).addressWidth := Nat.two_pow_pos _
  constructor
  · intro heq
    calc c.classified
        = c.classified % 2 ^ (inst.memOperand i).addressWidth := heq.trans haddr
      _ < 2 ^ (inst.memOperand i).addressWidth := Nat.mod_lt _ hpos
  · intro hlt
    exact (haddr.trans (Nat.mod_eq_of_lt hlt)).symm

/-- The address of an instruction is the one that is classified, and a 32-bit one. -/
theorem fetch_classified {process : Process} (h32 : process.addrSize = .x32) {thread : Thread τ}
    (hz : ZeroSegments thread) (g : Globals) (b : Binding (GodefroidProc τ)) :
    let ex := process.godefroidExecutor thread
    let r := ex.computeAddress (.reg (.seg .cs)) (ex.getPC g) 0 0 0 8 .readExecutable b
    (b.hasError = false → r.1 = ex.getPC g) ∧ (ex.getPC g).toNat < 2 ^ 32 := by
  intro ex r
  refine ⟨fun h => ?_, ?_⟩
  · have hvalue : r.1 = ex.getPC g + 0 * 0 + 0 := computeAddress_value hz h
    rw [hvalue]
    simp
  · change (ex.truncatePC _).toNat < _
    have hex : ex.addrSize = .x32 := h32
    simp only [Executor.truncatePC, hex, BitVec.toNat_setWidth]
    omega

/-- **Recorded input addresses are real addresses** where sums fit: an operand is read and written
back at one address, and what is classified is that address exactly when the sum is below the size
of the address; an instruction's own address always fits; and over any run whose sums are all below
`2 ^ 32`, so are the recorded inputs. -/
theorem recorded_addresses_real {process : Process} (h32 : process.addrSize = .x32)
    {calls : List (Thread τ × Nat)} (hz : ∀ call ∈ calls, ZeroSegments call.1)
    {w : GodefroidState τ} (hstart : Below (2 ^ 32) w.env.self) :
    (∀ call ∈ calls, ∀ inst op i (w₁ : GodefroidState τ), op.name ≠ .agen →
      ((inst.memOperand i).addressWidth = 16 ∨ (inst.memOperand i).addressWidth = 32) →
      w₁.env.hasError = false →
      let ex := process.godefroidExecutor call.1
      let c := ex.describedCellAt inst op i w₁
      let address := ex.operandAddress inst op i w₁
      ex.ReadsAt inst op i w₁ address ∧
      (∀ w₂, ex.readMemoryOperand inst op i w₁ = .ok () w₂ → ex.WritesAt inst i w₂ address) ∧
      (c.classified = address.toNat ↔ c.classified < 2 ^ (inst.memOperand i).addressWidth)) ∧
    (∀ call ∈ calls, ∀ g (b : Binding (GodefroidProc τ)),
      let ex := process.godefroidExecutor call.1
      let r := ex.computeAddress (.reg (.seg .cs)) (ex.getPC g) 0 0 0 8 .readExecutable b
      (b.hasError = false → r.1 = ex.getPC g) ∧ (ex.getPC g).toNat < 2 ^ 32) ∧
    ((∀ e ∈ (process.godefroidRun calls w).trace, e.SumBelow (2 ^ 32)) →
      ∀ policy, (process.godefroidRun calls w).env.self.memory.shared = some policy →
        ∀ a, (policy.knownInputs.get? a).isSome = true → a < 2 ^ 32) := by
  refine ⟨fun call hcall inst op i w₁ hop haw herr => ?_, fun call hcall g b => ?_,
    fun hsums policy hpolicy => ?_⟩
  · exact ⟨Executor.readsAt_operandAddress _ hop w₁,
      fun w₂ h => Executor.writesAt_operandAddress _ hop h,
      classified_eq_accessed_iff process (hz call hcall) haw herr⟩
  · exact fetch_classified h32 (hz call hcall) g b
  · have hrun := godefroidRun_inputsFit (n := 2 ^ 32) process calls w hz fun _ => hstart
    exact (hrun hsums policy hpolicy).knownInputs

/-! ### samples -/

/-- A page of code, and the map of the sample policy behind it. -/
def argumentMemory : GodefroidMemory :=
  match (do
    loadSections [⟨".text", 0, 1, ⟨true, false, true⟩, none⟩] none
    let r ← alloc (.policy sampleMap)
    addMap r : EStateM PyExc GodefroidMemory Unit) newMemory with
  | .ok _ m | .error _ m => holding m m.objs (some samplePolicy)

/-- A thread whose stack pointer is `0x1000`; all other registers are zero. -/
def stackThread : Thread Unit where
  readRegister name _ := pure (.int (if name = .name (.reg (.gpr32 .rsp)) then 0x1000 else 0))
  writeRegister _ _ := pure ()
  readFPU := pure (.bytes [])
  writeFPU _ := pure ()

/-- `mov eax, [esp + 4]`, the first argument of a function. -/
def movArgument : Inst :=
  .scalar (.other 0) 2 32
    [⟨.reg .reg0, false, true, false, .explicit⟩, ⟨.mem0, true, false, false, .explicit⟩]
    (fun _ => .gpr32 .rax) (fun _ => ⟨.seg .ss, .gpr32 .rsp, .invalid, 1, 4, 32, 4⟩) 0

/-- A processor on which every instruction is that one. -/
def movArguments : Process where
  xed := Xed.ofDecoder (fun _ _ => some movArgument) fun _ => true
  cpu := { native := fun _ s => (.none, s), stackPointer := 0, fpu := 0 }
  isInitialized := true
  addrSize := .x32

/-- The process before its first call. -/
def beforeArgument : GodefroidState Unit := World.start (Binding.start ⟨argumentMemory, ()⟩)

/-- The process with the registers read that the instruction needs. -/
def duringArgument : GodefroidState Unit :=
  match (movArguments.godefroidExecutor stackThread).readRegisters movArgument beforeArgument with
  | .ok _ w | .error _ w => w

/-- The process after a call for that instruction. -/
def afterArgument : GodefroidState Unit :=
  movArguments.godefroidRun [(stackThread, 1)] beforeArgument

theorem zeroSegments_stackThread : ZeroSegments stackThread := by
  rintro seg hint s v s' ⟨⟩
  rfl

theorem below_argumentMemory : Below (2 ^ 32) (⟨argumentMemory, ()⟩ : GodefroidProc Unit) := by
  rintro _ ⟨⟩
  refine ⟨fun a ha => ?_, fun a ha => by simp [samplePolicy, InputMemoryPolicy.init] at ha⟩
  have hrange : (0x1000 ≤ a ∧ a ≤ 0x1010) ∨ (0x8000 ≤ a ∧ a ≤ 0x10000) := by
    simp only [InputMemoryPolicy.watches, Bool.or_eq_true, Bool.and_eq_true,
      decide_eq_true_eq] at ha
    exact ha
  omega

-- Applied to a closed state, theorems about these would have Lean run the operand.
attribute [local irreducible] Executor.ReadsAt Executor.WritesAt

/-- The address of the argument is classified, recorded and read. -/
theorem recorded_addresses_real_argument :
    let ex := movArguments.godefroidExecutor stackThread
    (ex.ReadsAt movArgument readMem0 0 duringArgument 0x1004 ∧
      (ex.describedCellAt movArgument readMem0 0 duringArgument).classified = 0x1004) ∧
    .readMem 0x1004 32 .readOnly true ∈ afterArgument.trace ∧
    ∃ policy, afterArgument.env.self.memory.shared = some policy ∧
      (policy.knownInputs.get? 0x1004).isSome = true ∧
      ∀ a, (policy.knownInputs.get? a).isSome = true → a < 2 ^ 32 := by
  intro ex
  have hz : ∀ call ∈ [(stackThread, 1)], ZeroSegments call.1 := by
    intro call hcall
    rw [List.mem_singleton.mp hcall]
    exact zeroSegments_stackThread
  obtain ⟨hoperand, -, hrun⟩ := recorded_addresses_real
    (show movArguments.addrSize = .x32 from rfl) hz (w := beforeArgument) below_argumentMemory
  rw [show movArguments.godefroidRun _ beforeArgument = afterArgument from rfl] at hrun
  have hread : Event.readMem 0x1004 32 .readOnly true ∈ afterArgument.trace := by decide +kernel
  have hsums : afterArgument.trace.all (fun e => decide (e.SumBelow (2 ^ 32))) = true := by decide +kernel
  have hrecorded : (afterArgument.env.self.memory.shared.map fun p => (p.knownInputs.get? 0x1004).isSome) =
      some true := by decide +kernel
  have hclassified : (ex.describedCellAt movArgument readMem0 0 duringArgument).classified =
      0x1004 := by decide +kernel
  have hquiet : duringArgument.env.hasError = false := by decide +kernel
  obtain ⟨hreads, -, hiff⟩ := hoperand (stackThread, 1) (List.mem_singleton_self _) movArgument
    readMem0 0 duringArgument (by decide) (.inr rfl) hquiet
  have haddress : ex.operandAddress movArgument readMem0 0 duringArgument = 0x1004 := by
    refine BitVec.eq_of_toNat_eq ?_
    rw [← hiff.mpr (by rw [hclassified]; decide), hclassified]
    rfl
  obtain ⟨policy, hpolicy, hsome⟩ := Option.map_eq_some_iff.mp hrecorded
  rw [haddress] at hreads
  exact ⟨⟨hreads, hclassified⟩, hread, policy, hpolicy, hsome,
    hrun (by simpa using hsums) policy hpolicy⟩

/-- **A negative displacement** is classified and recorded as an address beyond `2 ^ 64`, while the
executor accesses the one below the base: `[0x1000]` is recorded, then `[0x1000 - 4]`. -/
theorem classified_ne_accessed :
    let address := Binding.computeAddress (GodefroidProc.methods zeroThread) .x32 (.reg (.seg .ds))
      0x1000
    let b₁ := (address 0 1 0 32 .readOnly beforeArgument.env).2
    let r := address 0 1 (-4) 32 .readOnly b₁
    Executor.truncateAddress 32 r.1 = 0xFFC ∧
      (r.2.self.memory.shared.bind fun p => p.knownInputs.get? (2 ^ 64 + 0xFFC)) = some 4 := by
  decide +kernel

end Process

end Microx
