import Microx.CallbackValues
import Microx.Executor.NoTrace
import Microx.Memory.Confined
import Microx.ReadMemory

/-!
# Microx.Fetch

The fetch loop of `Execute` over `Process.read_memory`: which bytes the decoder
gets.

The loop asks for 15 bytes, then 14, and so on.  An attempt succeeds if every
byte of it may be read and executed, so the first one that succeeds is as long
as the longest prefix that may.  An attempt that fails can enter default maps,
which grant nothing, and leaves the buffer as it was.
-/

namespace Microx

open Hoare

namespace Memory

variable {m m' m₀ : Core}

/-- The lengths up to `n` of code that can be fetched at an address. -/
def fetchable (m : Core) (pc n : Nat) : Set Nat :=
  {len | len ≤ n ∧ ∀ i < len, m.Permitted .readExecutable (pc + i)}

/-- The bytes at an address. -/
def bytesAt (m : Core) (addr n : Nat) : List Byte := (List.range n).map fun i => m.byteAt (addr + i)

/-! ## probing -/

/-- What probing makes of a memory: pages may have got default maps. -/
structure Probed (m m' : Core) : Prop where
  closed : m'.Closed
  ofArrays : m'.OfArrays
  backed : ∀ a r arr, m'.Backed a r arr ↔ m.Backed a r arr

theorem Probed.refl (hc : m.Closed) (ha : m.OfArrays) : Probed m m := ⟨hc, ha, fun _ _ _ => Iff.rfl⟩

/-- Permissions stay as they are. -/
theorem Probed.permitted (h : Probed m m') (hint : MemRequestHint) (a : Nat) :
    m'.Permitted hint a ↔ m.Permitted hint a := by
  simp only [Permitted, h.backed]

/-- A byte that is permitted stays as it is. -/
theorem Probed.byteAt (h : Probed m m') {hint : MemRequestHint} {a : Nat}
    (ha : m.Permitted hint a) : m'.byteAt a = m.byteAt a := by
  obtain ⟨r, arr, hb, -⟩ := ha
  rw [hb.byteAt_eq, ((h.backed a r arr).mpr hb).byteAt_eq]

/-- A default map for a page that was absent backs nothing. -/
theorem backed_entered (hm : m.Closed) {a : Nat} (ha : m.resolve a = none) (b r : Nat)
    (arr : ArrayMemoryMap) :
    Backed { m with
      memoryMaps := m.memoryMaps.set (m.page a) m.numObjs
      objs := Function.update m.objs m.numObjs MemoryMap.new
      numObjs := m.numObjs + 1 } b r arr ↔ m.Backed b r arr := by
  have hget {q : Nat} : (m.memoryMaps.set (m.page a) m.numObjs).get? q =
      if q = m.page a then some m.numObjs else m.memoryMaps.get? q := PyDict.get?_set ..
  constructor
  · rintro ⟨hr, harr, hlo, hhi⟩
    dsimp only at harr
    by_cases hpage : m.page b = m.page a
    · obtain rfl : m.numObjs = r := Option.some.inj ((hget.trans (if_pos hpage)).symm.trans hr)
      rw [Function.update_self] at harr
      cases harr
    · have hold : m.resolve b = some r := (hget.trans (if_neg hpage)).symm.trans hr
      rw [Function.update_of_ne (Nat.ne_of_lt (hm _ _ hold))] at harr
      exact ⟨hold, harr, hlo, hhi⟩
  · rintro ⟨hr, harr, hlo, hhi⟩
    have hpage : m.page b ≠ m.page a := by
      intro heq
      rw [resolve, heq] at hr
      cases hr.symm.trans ha
    refine ⟨(hget.trans (if_neg hpage)).trans hr, ?_, hlo, hhi⟩
    exact (Function.update_of_ne (Nat.ne_of_lt (hm _ _ hr)) ..).trans harr

/-- Both ways out of a call, no byte and no permission of an array map has changed. -/
abbrev Probes {α : Type} (f : EStateM PyExc Core α) : Prop :=
  ∀ m₀, Triple (Probed m₀) f (fun _ => Probed m₀) fun _ => Probed m₀

theorem findMap_probes (a : Nat) : Probes (findMap a) := by
  intro m₀ m hm
  cases hr : m.resolve a with
  | some r =>
      rw [findMap_of_resolve hr]
      exact hm
  | none =>
      obtain ⟨r, m', hrun, hclosed, -, -⟩ := findMap_confined hm.closed a
      rw [hrun]
      rw [findMap_absent hr] at hrun
      cases hrun
      refine ⟨hclosed, fun r => ?_, fun b r arr => ?_⟩
      · by_cases hnew : r = m.numObjs
        · subst hnew
          exact .inr (Function.update_self ..)
        · simpa only [Function.update_of_ne hnew] using hm.ofArrays r
      · exact (backed_entered hm.closed hr b r arr).trans (hm.backed b r arr)

theorem require_probes {perm : EStateM PyExc Core Bool} (h : Probes perm) (check : Bool)
    (fault : AccessFault) : Probes (Proc.require check perm fault) := by
  intro m₀
  refine Triple.ite (fun _ => (h m₀).bind fun ok => ?_) fun _ => Triple.pure fun _ hm => hm
  exact Triple.ite (fun _ => Triple.pure fun _ hm => hm) fun _ => Triple.throw fun _ hm => hm

theorem checkByte_probes (hint : MemRequestHint) (a : Nat) : Probes (Proc.checkByte hint a) := by
  have hread : Probes (canRead a : EStateM PyExc Core Bool) := fun m₀ =>
    (findMap_probes a m₀).bind fun _ => Triple.read fun _ => Triple.pure fun _ hm => hm
  have hwrite : Probes (canWrite a : EStateM PyExc Core Bool) := fun m₀ =>
    (findMap_probes a m₀).bind fun _ => Triple.read fun _ => Triple.pure fun _ hm => hm
  have hexec : Probes (canExecute a : EStateM PyExc Core Bool) := fun m₀ =>
    (findMap_probes a m₀).bind fun _ => Triple.read fun _ => Triple.pure fun _ hm => hm
  intro m₀
  refine (require_probes hread _ _ m₀).bind fun _ => (require_probes hwrite _ _ m₀).bind fun _ => ?_
  exact require_probes hexec _ _ m₀

end Memory

/-! ## one attempt -/

namespace Binding

open Memory

variable {τ : Type} (thread : Thread τ) {m : Core} {b : Binding (Proc τ)} {pc : Word} {n : Nat}

/-- An attempt whose bytes may all be fetched puts them into the buffer. -/
theorem readMem_fetchable (hb : b.hasError = false) (hm : Probed m b.self.memory) (hn : n ≤ 64)
    (h : ∀ i < n, m.Permitted .readExecutable (pc.toNat + i)) (val : Data) :
    readMem (Proc.methods thread) pc (n * 8) .readExecutable val b =
      (true, Bits.ofBytes (m.bytesAt pc.toNat n), b) := by
  have hpermitted : ∀ i < n, b.self.memory.Permitted .readExecutable (pc.toNat + i) :=
    fun i hi => (hm.permitted _ _).mpr (h i hi)
  have hbytes : b.self.memory.bytesAt pc.toNat n = m.bytesAt pc.toNat n :=
    List.map_congr_left fun i hi => hm.byteAt (h i (List.mem_range.mp hi))
  have hread : Proc.readMemory pc.toNat n .readExecutable b.self =
      .ok (.bytes (b.self.memory.bytesAt pc.toNat n)) b.self :=
    Proc.readMemory_permitted hm.ofArrays (by decide) hpermitted
  have hcall : b.call (Proc.readMemory pc.toNat (n * 8 / 8) .readExecutable) =
      (some (.bytes (m.bytesAt pc.toNat n)), b) := by
    rw [Nat.mul_div_cancel n (by decide), call, hread, hbytes]
  have hlen : (m.bytesAt pc.toNat n).length = numBytes (n * 8) := by
    rw [bytesAt, List.length_map, List.length_range, numBytes]
    omega
  simp only [readMem, hb, Bool.false_eq_true, if_false, Proc.methods, hcall]
  rw [readValue_bytes hb hlen]

/-- Any other attempt leaves the buffer as it was, and only probes the memory. -/
theorem readMem_not_fetchable (hb : b.hasError = false) (hm : Probed m b.self.memory)
    (h : ¬∀ i < n, m.Permitted .readExecutable (pc.toNat + i)) (val : Data) :
    ∃ b', readMem (Proc.methods thread) pc (n * 8) .readExecutable val b = (false, val, b') ∧
      b'.hasError = false ∧ Probed m b'.self.memory := by
  have hdenied : ¬∀ i < n, b.self.memory.Permitted .readExecutable (pc.toNat + i) :=
    fun hall => h fun i hi => (hm.permitted _ _).mp (hall i hi)
  obtain ⟨fault, m', hloop, hread⟩ := Proc.readMemory_denied hm.ofArrays (by decide) hdenied
  have hprobes : Triple (Probed m)
      ((List.range n).forM fun i => Proc.checkByte .readExecutable (pc.toNat + i))
      (fun _ => Probed m) fun _ => Probed m :=
    Triple.forM fun i _ => checkByte_probes _ _ m
  have hprobed := hprobes b.self.memory hm
  rw [hloop] at hprobed
  have hcall : b.call (Proc.readMemory pc.toNat (n * 8 / 8) .readExecutable) =
      (none, { b with
        self := { b.self with memory := m' }
        pending := some (.memoryAccess fault) }) := by
    rw [Nat.mul_div_cancel n (by decide), call, hread]
  refine ⟨{ b with
    self := { b.self with memory := m' }
    pending := some (.memoryAccess fault) }, ?_, hb, hprobed⟩
  simp only [readMem, hb, Bool.false_eq_true, if_false, Proc.methods, hcall]

end Binding

/-! ## the loop -/

namespace Executor

variable {σ : Type} (ex : Executor σ)

/-- From the top of the loop in `Execute` to the linear address of the program counter. -/
def linearPC : ExecM σ Word := do
  onGlobals resetGlobals
  ex.readPC
  let g ← getGlobals
  ex.callComputeAddress (.reg (.seg .cs)) (ex.getPC g) 0 0 0 8 .readExecutable

/-- `DecodeInstruction`, for the bytes it gets. -/
def decodeBytes (bytes : List Byte) : ExecM σ Inst :=
  match ex.xed.decode ex.addrSize bytes with
  | none => throw .errorDecode
  | some inst => do
      onGlobals fun g => { g with immediate := inst.unsignedImmediate }
      pure inst

/-- The loop body of `Execute` from the bytes on that are handed to the decoder. -/
def executeBytes (bytes : List Byte) : ExecM σ Unit := do
  let inst ← ex.decodeBytes bytes
  ex.readState inst
  let nextPC ← ex.perform inst
  ex.commit nextPC

/-- An instruction is its linear address, the fetch loop and the rest. -/
theorem executeInstruction_eq :
    ex.executeInstruction = (do
      let pc ← ex.linearPC
      let len ← ex.fetchBytes pc 15
      let w ← get
      ex.executeBytes (Bits.toBytes len w.idata)) := by
  funext w
  simp only [executeInstruction, fetch, linearPC, executeBytes, bind_assoc]
  rfl

/-- The rest of an instruction has no part in the status of the fetch loop. -/
theorem executeBytes_ends (bytes : List Byte) :
    Triple (fun _ => True) (ex.executeBytes bytes) (fun _ _ => True)
      fun status _ => status ≠ .errorReadInstMem := by
  have hlate : CommitRules ex (fun _ _ _ => True) fun status _ _ => status ≠ .errorReadInstMem :=
    ⟨fun _ _ _ h => h, fun _ h => h, fun status h _ => by rcases h with rfl | rfl | rfl <;> decide⟩
  have hdecode : Triple (fun _ => True) (ex.decodeBytes bytes) (fun _ _ => True)
      fun status (_ : World σ) => status ≠ .errorReadInstMem := by
    unfold decodeBytes
    split
    · exact Triple.throw fun _ _ => by decide
    · exact Triple.bind (Triple.modify fun _ h => h) fun _ => Triple.pure fun _ h => h
  refine Triple.bind hdecode fun inst => ?_
  have hreads : ReadRules ex inst (fun _ _ _ => True) (fun _ _ _ => True)
      fun status _ _ => status ≠ .errorReadInstMem :=
    { readReg := fun _ _ _ _ => ⟨fun _ => trivial, fun _ _ h => h⟩
      ends := fun _ h _ => h
      usesFPU := fun _ _ _ _ h => h
      computeAddress := fun _ _ _ _ _ _ _ h => h
      generated := fun _ _ _ _ h => h
      readMem := fun _ _ _ _ _ _ => ⟨fun _ => trivial, fun _ _ h => h⟩
      readFPU := fun _ _ => ⟨fun _ => trivial, fun _ _ h => h⟩ }
  have hmemory : Stays (fun _ _ _ => True) (fun status _ _ => status ≠ .errorReadInstMem)
      ex.writeMemory := writeMemory_stays (fun _ _ _ h => h) fun _ => by decide
  refine Triple.bind hreads.readState fun _ => Triple.bind (triple_readGlobals fun g => ?_)
    fun nextPC => hlate.commit nextPC
  refine Triple.ite (fun _ => Triple.pure fun _ h => h) fun _ => ?_
  refine Triple.bind hreads.readOperands fun _ => ?_
  refine Triple.bind (carryOut_stays ex (fun status h _ => h) inst _) fun nextPC => ?_
  refine Triple.bind ?_ fun _ => Triple.pure fun _ h => h
  exact Triple.bind hmemory fun _ => Triple.bind hlate.writeFPUState fun _ => Triple.modify fun _ h => h

end Executor

namespace Process

open Memory

variable {τ : Type} (process : Process) (thread : Thread τ) {m : Core} {pc : Word}

/-- The loop stops at the greatest length that can be fetched, with these bytes in the buffer. -/
theorem fetchBytes_longest {n : Nat} (hn : n ≤ 64) {len : Nat} :
    ∀ {w : State τ}, w.env.hasError = false → Probed m w.env.self.memory →
      IsGreatest (m.fetchable pc.toNat n) len →
      Meets
        (fun len' w' => len' = len ∧ 0 < len ∧
          Bits.toBytes len w'.idata = m.bytesAt pc.toNat len)
        (fun status _ => status = .errorReadInstMem ∧ len = 0)
        ((process.executor thread).fetchBytes pc n w) := by
  induction n with
  | zero => exact fun _ _ hlen => ⟨rfl, Nat.le_zero.mp hlen.1.1⟩
  | succ n ih =>
      intro w herr hm hlen
      by_cases hall : ∀ i < n + 1, m.Permitted .readExecutable (pc.toNat + i)
      · have hread := Binding.readMem_fetchable thread herr hm hn hall w.idata
        obtain rfl : len = n + 1 := Nat.le_antisymm hlen.1.1 (hlen.2 ⟨Nat.le_refl _, hall⟩)
        have hcall : (process.executor thread).callReadMem pc ((n + 1) * 8) .readExecutable w.idata w =
            .ok (true, Bits.ofBytes (m.bytesAt pc.toNat (n + 1))) (w.called w.env
              (.readMem pc ((n + 1) * 8) .readExecutable true)) := by
          simp only [Executor.callReadMem, Process.executor, Binding.executor, hread]
        unfold Executor.fetchBytes
        rw [run_get_bind, run_bind_ok hcall, run_modify_bind, if_pos rfl]
        refine ⟨rfl, Nat.succ_pos n, ?_⟩
        have hbytes : (m.bytesAt pc.toNat (n + 1)).length = n + 1 := by
          rw [bytesAt, List.length_map, List.length_range]
        have hto : Bits.toBytes (m.bytesAt pc.toNat (n + 1)).length
            (Bits.ofBytes (m.bytesAt pc.toNat (n + 1)) : Data) = _ := Bits.toBytes_ofBytes (by omega)
        rwa [hbytes] at hto
      · obtain ⟨b', hread, herr', hm'⟩ := Binding.readMem_not_fetchable thread herr hm hall w.idata
        have hcall : (process.executor thread).callReadMem pc ((n + 1) * 8) .readExecutable w.idata w =
            .ok (false, w.idata) (w.called b' (.readMem pc ((n + 1) * 8) .readExecutable false)) := by
          simp only [Executor.callReadMem, Process.executor, Binding.executor, hread]
        have hshorter : IsGreatest (m.fetchable pc.toNat n) len := by
          have hle : len ≤ n := by
            by_contra hgt
            obtain rfl : len = n + 1 := Nat.le_antisymm hlen.1.1 (by omega)
            exact hall hlen.1.2
          exact ⟨⟨hle, hlen.1.2⟩, fun l hl => hlen.2 ⟨Nat.le_succ_of_le hl.1, hl.2⟩⟩
        unfold Executor.fetchBytes
        rw [run_get_bind, run_bind_ok hcall, run_modify_bind, if_neg (by simp)]
        exact ih (Nat.le_of_succ_le hn) herr' hm' hshorter

/-- Computing the linear address leaves the memory alone. -/
theorem linearPC_memory :
    Triple (fun w : State τ => w.env.self.memory = m) (process.executor thread).linearPC
      (fun _ w => w.env.self.memory = m) fun _ _ => True := by
  let G : Proc τ → Prop := fun p => p.memory = m
  have hG : Proc.ThreadFree G := fun _ _ h => h
  have hregs : RegRules (process.executor thread) (fun _ b _ => G b.self) fun _ _ _ => True := by
    refine ⟨fun {u b t} name hint data hb => ⟨fun _ => ?_, fun _ _ _ => trivial⟩⟩
    exact Binding.readReg_survives (Triple.bind (Proc.readRegister_survives thread hG _ _) fun _ =>
      Triple.pure fun _ h => h) hb _ data
  refine Triple.bind (Triple.update fun _ hw => hw) fun _ => ?_
  refine Triple.bind hregs.readPC fun _ => triple_readGlobals fun g w hw => ?_
  exact Binding.computeAddress_survives process.addrSize
    (Triple.bind (Proc.computeAddress_survives thread hG _ _ _ _ _ _ _) fun _ =>
      Triple.pure fun _ h => h) hw

/-- **Instruction fetch uses the longest executable prefix.**  After any number of instructions,
when the linear address of the next one was computed: with `len` the greatest length up to 15 that
can be fetched there, the decoder gets the bytes in the memory, and `Execute` reports that it could
not read the instruction if and only if the first byte cannot be fetched. -/
theorem fetch_longest_prefix (hinit : process.isInitialized = true) {k : Nat} {w₀ w w₁ : State τ}
    (hsteps : (process.executor thread).Steps k w₀ w)
    (hpc : (process.executor thread).linearPC w = .ok pc w₁) (herr : w₁.env.hasError = false)
    (harrays : w.env.self.memory.OfArrays) (hclosed : w.env.self.memory.Closed) {len : Nat}
    (hlen : IsGreatest (w.env.self.memory.fetchable pc.toNat 15) len) :
    let ex := process.executor thread
    let m := w.env.self.memory
    (0 < len → ∃ w₂, ex.fetchBytes pc 15 w₁ = .ok len w₂ ∧
        ex.execute (k + 1) w₀ = ex.executeBytes (m.bytesAt pc.toNat len) w₂) ∧
      ((∃ w', ex.execute (k + 1) w₀ = .error .errorReadInstMem w') ↔
        ¬m.Permitted .readExecutable pc.toNat) := by
  intro ex m
  have hmemory := linearPC_memory process thread w rfl
  rw [hpc] at hmemory
  have hsame : w₁.env.self.memory = m := hmemory
  have hprobed : Probed m w₁.env.self.memory := by
    rw [hsame]
    exact Probed.refl hclosed harrays
  have hfetch := fetchBytes_longest process thread (by decide) herr hprobed hlen
  have hrun : ex.execute (k + 1) w₀ = _ := Executor.execute_succ_of_steps hinit k hsteps
  rw [Executor.executeInstruction_eq, run_bind_ok hpc] at hrun
  have hfirst : 0 < len ↔ m.Permitted .readExecutable pc.toNat := by
    constructor
    · intro hpos
      exact hlen.1.2 0 hpos
    · intro hperm
      refine hlen.2 (show 1 ∈ m.fetchable pc.toNat 15 from ⟨by decide, fun i hi => ?_⟩)
      obtain rfl : i = 0 := Nat.lt_one_iff.mp hi
      exact hperm
  cases hbytes : ex.fetchBytes pc 15 w₁ with
  | error status w₂ =>
      rw [hbytes] at hfetch
      obtain ⟨rfl, hzero⟩ := hfetch
      rw [run_bind_error hbytes] at hrun
      refine ⟨fun hpos => absurd hzero (Nat.ne_of_gt hpos), fun _ hperm => ?_, fun _ => ⟨w₂, hrun⟩⟩
      exact absurd hzero (Nat.ne_of_gt (hfirst.mpr hperm))
  | ok len' w₂ =>
      rw [hbytes] at hfetch
      obtain ⟨rfl, hpos, hto⟩ := hfetch
      rw [run_bind_ok hbytes, run_get_bind, hto] at hrun
      refine ⟨fun _ => ⟨w₂, rfl, hrun⟩, fun ⟨w', herror⟩ => ?_, fun hno => absurd (hfirst.mp hpos) hno⟩
      have hends := ex.executeBytes_ends (m.bytesAt pc.toNat len') w₂ trivial
      rw [← hrun, herror] at hends
      exact absurd rfl hends

/-- Two bytes of code at the bottom of the memory. -/
def twoBytes : ArrayMemoryMap := ArrayMemoryMap.init ⟨0, 2, true, false, true, Nat.two_pos⟩

/-- A memory of this map alone. -/
def twoByteMemory : Core :=
  { twoBytePages with
    memoryMaps := PyDict.empty.set 0 0
    objs := fun _ => .array twoBytes
    numObjs := 1 }

theorem isGreatest_twoBytes : IsGreatest (twoByteMemory.fetchable 0 15) 2 := by
  have hpermitted {a : Nat} (h : twoByteMemory.resolve a = some 0) (ha : a < 2) :
      twoByteMemory.Permitted .readExecutable a :=
    ⟨0, twoBytes, ⟨h, rfl, Nat.zero_le a, ha⟩, fun _ => rfl, fun h => absurd h (by decide), fun _ => rfl⟩
  refine ⟨⟨by decide, fun i hi => ?_⟩, fun len hlen => ?_⟩
  · interval_cases i
    · exact hpermitted rfl (by decide)
    · exact hpermitted rfl (by decide)
  · by_contra hlong
    obtain ⟨r, arr, hb, -⟩ := hlen.2 2 (by omega)
    cases hb.resolves

/-- The address that was computed, and whether there was an error. -/
def addressOf (r : EStateM.Result ExecutorStatus (State Unit) Word) : Option (Word × Bool) :=
  match r with
  | .ok pc w => some (pc, w.env.hasError)
  | .error _ _ => none

theorem fetch_longest_prefix_twoBytes :
    let ex := undecoded.executor zeroThread
    let w : State Unit := World.start (Binding.start ⟨twoByteMemory, ()⟩)
    ∃ w₁, ex.linearPC w = .ok 0 w₁ ∧
      (0 < 2 → ∃ w₂, ex.fetchBytes 0 15 w₁ = .ok 2 w₂ ∧
        ex.execute 1 w = ex.executeBytes (twoByteMemory.bytesAt 0 2) w₂) ∧
      ((∃ w', ex.execute 1 w = .error .errorReadInstMem w') ↔
        ¬twoByteMemory.Permitted .readExecutable 0) := by
  intro ex w
  have hclosed : twoByteMemory.Closed := by
    intro page r h
    rw [twoByteMemory, PyDict.get?_set] at h
    split at h
    · cases h
      exact Nat.one_pos
    · cases h
  have haddress : addressOf (ex.linearPC w) = some (0, false) := by decide +kernel
  obtain ⟨w₁, hpc, herr⟩ : ∃ w₁, ex.linearPC w = .ok 0 w₁ ∧ w₁.env.hasError = false := by
    cases hrun : ex.linearPC w with
    | error status w₁ => rw [hrun] at haddress; cases haddress
    | ok pc w₁ =>
        rw [hrun] at haddress
        obtain ⟨rfl, herr⟩ := Prod.mk.inj (Option.some.inj haddress)
        exact ⟨w₁, rfl, herr⟩
  exact ⟨w₁, hpc, fetch_longest_prefix undecoded zeroThread rfl (show ex.Steps 0 w w from rfl) hpc herr
    (fun _ => .inl rfl) hclosed isGreatest_twoBytes⟩

end Process

end Microx
