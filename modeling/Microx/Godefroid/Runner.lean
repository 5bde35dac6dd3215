import Microx.EmptyThread
import Microx.Godefroid.Addresses
import Microx.Godefroid.Inputs
import Microx.Godefroid.Start

/-!
# Microx.Godefroid.Runner

`GodefroidRunner.run`, and what holds after every iteration of it.

An iteration makes a process over a copy of the memory, and then calls
`execute` for one instruction at a time, until the return address is reached,
the instructions are counted, or something is raised (`loop_outcome`).  So what
the calls of `execute` keep, an iteration keeps: the bytes of the program
(`iterate_program`), the return address in its slot (`iterate_returnAddress`)
and the room behind every pointer that was invented (`iterate_pointer`).
-/

namespace Microx

open Hoare Memory Section Process

/-! ## `run` -/

/-- `Process.__init__`, for a memory with addresses of that size. -/
def Process.over (process : Process) (addressSize : AddressSize) : Process :=
  { process with addrSize := addressSize }

/-- How the `while` loop of `run` ended, if it has. -/
inductive Ending where
  /-- "Reached return address." -/
  | returned
  /-- `instruction_count` is `max_insts`. -/
  | counted
  | raised (e : ExecuteError)
  | running

/-- What an iteration puts into `return_dict`, and why. -/
structure Iteration where
  ending : Ending
  instructionCount : Nat
  proc : GodefroidState EmptyThread

namespace GodefroidRunner

variable (runner : GodefroidRunner) (process : Process)

/-- The program counter is the return address. -/
def atReturn (w : GodefroidState EmptyThread) : Bool :=
  match runner.magicReturn with
  | none => false
  | some magicReturn => w.env.self.thread.regs (.name (.reg .eip)) == magicReturn

/-- The `while` loop, at most `fuel` rounds of it. -/
def loop : Nat → Nat → GodefroidState EmptyThread → Iteration
  | 0, count, w => ⟨.running, count, w⟩
  | fuel + 1, count, w =>
      if runner.runLength = .infinite ∨ count < runner.maxInsts then
        if runner.atReturn w then ⟨.returned, count, w⟩
        else
          match process.godefroidExecute EmptyThread.thread 1 w with
          | .ok _ w => loop fuel (count + 1) w
          | .error e w => ⟨.raised e, count, w⟩
      else ⟨.counted, count, w⟩

/-- `t`, with `EIP` and `ESP` written. -/
def firstThread (sp : Nat) : EStateM PyExc EmptyThread Unit := do
  EmptyThread.thread.writeRegister (.name (.reg .eip)) runner.initialPc
  EmptyThread.thread.writeRegister (.name (.reg (.gpr32 .rsp))) sp

/-- The thread that the loop starts with. -/
def startThread (sp : Nat) : EmptyThread :=
  match runner.firstThread sp EmptyThread.start with
  | .ok _ t => t
  | .error _ t => t

/-- A new process and thread, over the globals of the executor that are left. -/
def firstState (sp : Nat) (m : GodefroidMemory) (left : GodefroidState EmptyThread) :
    GodefroidState EmptyThread :=
  { left with env := Binding.start ⟨m, runner.startThread sp⟩ }

/-- One iteration of `run`, with the globals of the executor that earlier ones have left. -/
def iterate (entropy : Nat → Byte) (fuel : Nat) (left : GodefroidState EmptyThread) :
    Except PyExc Iteration :=
  match runner.makeNewProcess entropy (copyMemory runner.memory) with
  | .error e _ => .error e
  | .ok sp m => .ok (runner.loop (process.over m.addressSize) fuel 0 (runner.firstState sp m left))

/-- `run`, with one source of random bytes for each iteration. -/
def run (fuel : Nat) : List (Nat → Byte) → GodefroidState EmptyThread → Except PyExc (List Iteration)
  | [], _ => .ok []
  | entropy :: rest, left => do
      let it ← runner.iterate process entropy fuel left
      let its ← run fuel rest it.proc
      return it :: its

/-! ## how an iteration ends -/

/-- The state after `n` calls of `execute` for one instruction each. -/
def rounds (n : Nat) (w : GodefroidState EmptyThread) : GodefroidState EmptyThread :=
  process.godefroidRun (List.replicate n (EmptyThread.thread, 1)) w

/-- What the ending means, when `w` is the state after the instructions that were counted. -/
def Ends (fuel : Nat) (it : Iteration) (w : GodefroidState EmptyThread) : Prop :=
  match it.ending with
  | .returned => it.proc = w ∧ runner.atReturn w = true
  | .counted => it.proc = w ∧ runner.runLength = .counted ∧ it.instructionCount = runner.maxInsts
  | .raised e => runner.atReturn w = false ∧
      process.godefroidExecute EmptyThread.thread 1 w = .error e it.proc
  | .running => it.proc = w ∧ it.instructionCount = fuel

/-- The loop counted instructions that were executed, none of them at the return address, and no
more than it may. -/
structure Outcome (fuel : Nat) (w : GodefroidState EmptyThread) (it : Iteration) : Prop where
  count_le : it.instructionCount ≤ fuel
  counted_le : runner.runLength = .counted → it.instructionCount ≤ runner.maxInsts
  executed : ∀ j < it.instructionCount, runner.atReturn (rounds process j w) = false ∧
    process.godefroidExecute EmptyThread.thread 1 (rounds process j w) =
      .ok () (rounds process (j + 1) w)
  ends : runner.Ends process fuel it (rounds process it.instructionCount w)
  /-- A counted loop ends. -/
  ended : runner.runLength = .counted → runner.maxInsts < fuel → it.ending ≠ .running

variable {runner : GodefroidRunner} {process : Process}

theorem rounds_succ {n : Nat} {u : Unit} {w w' : GodefroidState EmptyThread}
    (h : process.godefroidExecute EmptyThread.thread 1 w = .ok u w') :
    rounds process (n + 1) w = rounds process n w' := by
  rw [rounds, List.replicate_succ, godefroidRun, h]
  rfl

theorem rounds_error {n : Nat} {e : ExecuteError} {w w' : GodefroidState EmptyThread}
    (h : process.godefroidExecute EmptyThread.thread 1 w = .error e w') :
    rounds process (n + 1) w = rounds process n w' := by
  rw [rounds, List.replicate_succ, godefroidRun, h]
  rfl

/-- One more call, at the end. -/
theorem rounds_last (n : Nat) : ∀ w : GodefroidState EmptyThread,
    rounds process (n + 1) w = rounds process 1 (rounds process n w) := by
  induction n with
  | zero => exact fun _ => rfl
  | succ n ih =>
      intro w
      cases hrun : process.godefroidExecute EmptyThread.thread 1 w with
      | ok u w' => rw [rounds_succ hrun, rounds_succ hrun]; exact ih w'
      | error e w' => rw [rounds_error hrun, rounds_error hrun]; exact ih w'

/-- The loop, when some instructions were counted before. -/
theorem loop_from (fuel : Nat) : ∀ count w, (runner.runLength = .counted → count ≤ runner.maxInsts) →
    ∃ n ≤ fuel, (runner.loop process fuel count w).instructionCount = count + n ∧
      (runner.runLength = .counted → count + n ≤ runner.maxInsts) ∧
      (∀ j < n, runner.atReturn (rounds process j w) = false ∧
        process.godefroidExecute EmptyThread.thread 1 (rounds process j w) =
          .ok () (rounds process (j + 1) w)) ∧
      runner.Ends process (count + fuel) (runner.loop process fuel count w) (rounds process n w) := by
  induction fuel with
  | zero => exact fun count w hcount => ⟨0, Nat.le_refl 0, rfl, hcount, by simp, rfl, rfl⟩
  | succ fuel ih =>
      intro count w hcount
      unfold loop
      split
      · next hgo =>
          by_cases hreturn : runner.atReturn w = true
          · rw [if_pos hreturn]
            exact ⟨0, Nat.zero_le _, rfl, hcount, by simp, rfl, hreturn⟩
          · rw [if_neg hreturn]
            have hfalse : runner.atReturn w = false := by simpa using hreturn
            cases hrun : process.godefroidExecute EmptyThread.thread 1 w with
            | error e w' => exact ⟨0, Nat.zero_le _, rfl, hcount, by simp, hfalse, hrun⟩
            | ok u w' =>
                have hroom (hc : runner.runLength = .counted) : count + 1 ≤ runner.maxInsts := by
                  simpa [hc] using hgo
                obtain ⟨n, hn, hcounted, hmax, hexecuted, hends⟩ := ih (count + 1) w' hroom
                have hsum : count + 1 + n = count + (n + 1) := by omega
                refine ⟨n + 1, Nat.succ_le_succ hn, hcounted.trans hsum, hsum ▸ hmax, ?_, ?_⟩
                · intro j hj
                  cases j with
                  | zero => exact ⟨hfalse, by rw [rounds_succ hrun]; exact hrun⟩
                  | succ j =>
                      rw [rounds_succ hrun, rounds_succ hrun]
                      exact hexecuted j (by omega)
                · rw [rounds_succ hrun, show count + (fuel + 1) = count + 1 + fuel by omega]
                  exact hends
      · next hstop =>
          have hlength : runner.runLength = .counted ∧ runner.maxInsts ≤ count := by
            simp only [not_or, not_lt] at hstop
            refine ⟨?_, hstop.2⟩
            cases h : runner.runLength with
            | infinite => exact absurd h hstop.1
            | counted => rfl
          exact ⟨0, Nat.zero_le _, rfl, hcount, by simp, rfl, hlength.1,
            Nat.le_antisymm (hcount hlength.1) hlength.2⟩

/-- **The loop of `run`** executes what it counts, stops at the return address, and ends when the
instructions are counted. -/
theorem loop_outcome (fuel : Nat) (w : GodefroidState EmptyThread) :
    runner.Outcome process fuel w (runner.loop process fuel 0 w) := by
  obtain ⟨n, hn, hcounted, hmax, hexecuted, hends⟩ :=
    @loop_from runner process fuel 0 w fun _ => Nat.zero_le runner.maxInsts
  rw [Nat.zero_add] at hcounted hmax hends
  subst hcounted
  refine ⟨hn, hmax, hexecuted, hends, fun hlength hfuel hrunning => ?_⟩
  rw [Ends, hrunning] at hends
  have hle := hmax hlength
  omega

/-- The state that an iteration leaves is that of a run of calls of `execute`. -/
theorem Outcome.proc_eq {fuel : Nat} {w : GodefroidState EmptyThread} {it : Iteration}
    (h : runner.Outcome process fuel w it) : ∃ n, it.proc = rounds process n w := by
  have hends := h.ends
  unfold Ends at hends
  split at hends
  · exact ⟨_, hends.1⟩
  · exact ⟨_, hends.1⟩
  · exact ⟨it.instructionCount + 1, by rw [rounds_last, rounds_error hends.2]; rfl⟩
  · exact ⟨_, hends.1⟩

end GodefroidRunner

/-! ## the memory of a new process -/

theorem Spread.page {m : GodefroidMemory} (h : Spread m) (a : Nat) :
    m.page a = a % 2 ^ 32 / 0x1000 := by
  rw [page_eq, h.addressSize, h.pageShift]
  rfl

/-- Maps that span their pages are what `add_map` sees to. -/
theorem Spread.sound {m : GodefroidMemory} (h : Spread m) : GodefroidMemory.Sound m where
  closed := h.table_lt
  wellFormed := h.wellFormed
  anchored a r pm hr hpm := by
    rw [Memory.resolve, h.page] at hr
    have hspan := (h.spans _ r pm hr hpm).1
    omega

namespace Initialized

variable {m₁ : GodefroidMemory} {sp stack inputs r : Nat} {pmS pmI pm : PolicyMemoryMap}
  {policy : InputMemoryPolicy}

/-- Other bytes and a policy leave the maps where they are. -/
theorem spread (h : Initialized m₁ sp stack inputs pmS pmI policy) (hm₁ : Spread m₁)
    (hkind : SameKind pmS pm) : Spread (withPolicy m₁ stack inputs pm pmI policy) where
  addressSize := hm₁.addressSize
  pageShift := hm₁.pageShift
  table_lt := hm₁.table_lt
  wellFormed r pm' hr := by
    obtain ⟨-, rfl⟩ | ⟨-, rfl⟩ | ⟨-, -, hold⟩ := policyMap hr
    · exact hm₁.wellFormed inputs pmI h.inputs.map
    · have hlength := hkind.length.trans (hm₁.wellFormed stack pmS h.stack.map)
      rw [← hkind.limit, ← hkind.base] at hlength
      exact hlength
    · exact hm₁.wellFormed r pm' hold
  spans q r pm' hq hr := by
    obtain ⟨rfl, rfl⟩ | ⟨rfl, rfl⟩ | ⟨-, -, hold⟩ := policyMap hr
    · exact hm₁.spans q _ pmI hq h.inputs.map
    · have hspan := hm₁.spans q _ pmS hq h.stack.map
      rw [Spans, ← hkind.limit, ← hkind.base] at hspan
      exact hspan
    · exact hm₁.spans q r pm' hq hold

end Initialized

/-! ## loads that nothing watches -/

/-- The bytes of one map cross no page. -/
theorem crossesFrom_same {m : GodefroidMemory} {addr r : Nat} (k : Nat) :
    ∀ i, (∀ j, i ≤ j → j < i + k → m.resolve (addr + j) = some r) →
      crossesFrom r addr i k m = .ok false m := by
  induction k with
  | zero => exact fun _ _ => rfl
  | succ k ih =>
      intro i hres
      rw [crossesFrom, run_bind_ok (findMap_of_resolve (hres i (Nat.le_refl i) (by omega))),
        if_neg (by simp)]
      exact ih (i + 1) fun j h1 h2 => hres j (by omega) (by omega)

/-- **A load that is not watched** returns the bytes of the map. -/
theorem load_unwatched {m : GodefroidMemory} {addr r : Nat} {pm : PolicyMemoryMap}
    {p : InputMemoryPolicy} (hres : ∀ i < 4, m.resolve (addr + i) = some r)
    (hpm : m.objs r = .policy pm) (hc : pm.Contains addr 4) (hshared : m.shared = some p)
    (hwatches : p.watches addr = false) :
    load addr 4 m = .ok ((List.range 4).map fun i => pm.byteAt (addr + i)) m := by
  have hfind : findMap addr m = .ok r m := findMap_of_resolve (hres 0 (by decide))
  have hunit : isUnit addr 4 m = .ok true m := by
    rw [isUnit, if_pos (by simp), run_bind_ok (show crossesPages addr 4 m = .ok false m from by
      rw [crossesPages, run_bind_ok hfind]
      exact crossesFrom_same 3 1 fun j _ h2 => hres j (by omega))]
    rfl
  have hhandle : PolicyMemoryMap.handleLoad addr (pm, m.shared) = .ok false (pm, m.shared) := by
    rw [PolicyMemoryMap.handleLoad, run_get_bind]
    cases pm.policy with
    | default => rfl
    | input =>
        simp only [PolicyMemoryMap.callInput, hshared, run_get_bind, InputMemoryPolicy.handleLoad]
        rw [hwatches]
        rfl
  have hload : PolicyMemoryMap.loadUnit addr 4 (pm, m.shared) =
      .ok ((List.range 4).map fun i => pm.byteAt (addr + i)) (pm, m.shared) := by
    have hpolicy : PolicyMemoryMap.loadPolicy addr 4 (pm, m.shared) = .ok () (pm, m.shared) := by
      rw [PolicyMemoryMap.loadPolicy, run_bind_ok hhandle]
      rfl
    rw [PolicyMemoryMap.loadUnit, run_bind_ok hpolicy, PolicyMemoryMap.readData, run_get_bind,
      run_pure]
    simp only [PolicyMemoryMap.slice_eq hc]
  rw [load, run_bind_ok hunit]
  simp only [if_true, run_bind_ok hfind]
  rw [if_neg (by decide), if_neg (by decide)]
  simp only [invoke, MemoryMap.loadDword, hpm, GodefroidMap.onPolicy, hload]
  rw [← hpm, Function.update_eq_self]

/-! ## what an iteration leaves -/

namespace GodefroidRunner

variable {runner : GodefroidRunner} {process : Process} {entropy : Nat → Byte} {fuel : Nat}
  {left : GodefroidState EmptyThread} {it : Iteration}

/-- An iteration makes a process and runs it. -/
theorem iterate_ok (hrun : runner.iterate process entropy fuel left = .ok it) :
    ∃ sp m, runner.makeNewProcess entropy (copyMemory runner.memory) = .ok sp m ∧
      runner.Outcome (process.over m.addressSize) fuel (runner.firstState sp m left) it := by
  unfold iterate at hrun
  cases hmake : runner.makeNewProcess entropy (copyMemory runner.memory) with
  | error e m => rw [hmake] at hrun; cases hrun
  | ok sp m =>
      rw [hmake] at hrun
      exact ⟨sp, m, rfl, Except.ok.inj hrun ▸ loop_outcome fuel _⟩

/-- The maps with the input space among them span their pages. -/
theorem Makes.spread_space {m m₁ : GodefroidMemory} {sp stack inputs : Nat}
    {pmS pmI : PolicyMemoryMap} {policy : InputMemoryPolicy}
    (h : runner.Makes (copyMemory m) m₁ sp stack inputs pmS pmI policy) (hlaid : LaidOut m) :
    Spread m₁ :=
  (mapInputSpace_laidOut hlaid.copyMemory h.space).toSpread

/-- **What an iteration leaves** of the memory of its process. -/
theorem iterate_remains (hlaid : LaidOut runner.memory) (hplain : (process.over .x32).PlainMemory)
    (hrun : runner.iterate process entropy fuel left = .ok it) :
    ∃ m₁ sp stack inputs pmS pmI policy,
      runner.makeNewProcess entropy (copyMemory runner.memory) = .ok sp
        (withPolicy m₁ stack inputs (plant runner.magicReturn sp pmS) pmI policy) ∧
      runner.Makes (copyMemory runner.memory) m₁ sp stack inputs pmS pmI policy ∧
      Sat (Remains (withPolicy m₁ stack inputs (plant runner.magicReturn sp pmS) pmI policy)
        left.trace) it.proc := by
  obtain ⟨sp, m, hmake, houtcome⟩ := iterate_ok hrun
  obtain ⟨m₁, stack, inputs, pmS, pmI, policy, hmakes, rfl⟩ :=
    makeNewProcess_ok hlaid.copyMemory hmake
  have hspread₁ := hmakes.spread_space hlaid
  have hspread := hmakes.spread hspread₁ (sameKind_plant runner.magicReturn sp pmS).1
  refine ⟨m₁, sp, stack, inputs, pmS, pmI, policy, hmake, hmakes, ?_⟩
  obtain ⟨n, hn⟩ := houtcome.proc_eq
  rw [hspread.addressSize] at hn
  rw [hn]
  exact godefroidRun_remains hplain hspread.sound _ _ ⟨[], by simp [firstState], .refl _⟩

/-- Making a process leaves the page of the address to its map. -/
def KeepsPage (m : GodefroidMemory) (a : Nat) : Prop :=
  HasInputSpace m ∨ ∃ q ∈ m.memoryMaps.keys, m.page a < q

theorem Makes.keeps {m m₁ : GodefroidMemory} {sp stack inputs a r : Nat}
    {pmS pmI pm : PolicyMemoryMap} {policy : InputMemoryPolicy}
    (h : runner.Makes (copyMemory m) m₁ sp stack inputs pmS pmI policy) (hlaid : LaidOut m)
    (hkeeps : KeepsPage m a) (hres : m.resolve a = some r) (hpm : m.objs r = .policy pm) :
    m₁.resolve a = some r ∧ m₁.objs r = .policy pm.deepcopy := by
  have hcopy : (copyMemory m).objs r = .policy pm.deepcopy := congrArg GodefroidMap.deepcopy hpm
  obtain ⟨rfl, -⟩ | ⟨hnone, last, htakes⟩ := mapInputSpace_ok hlaid.copyMemory h.space
  · exact ⟨hres, hcopy⟩
  · rw [HasInputSpace, findMapsByName_copyMemory] at hnone
    obtain ⟨q, hq, hlt⟩ := hkeeps.resolve_left hnone
    -- the new map starts behind the page
    have hle : q ≤ last := htakes.max q hq
    have hpage : m₁.page a = m.page a := by
      simp only [Memory.page, addressMask, htakes.added.addressSize, htakes.added.pageShift]
      rfl
    refine ⟨?_, ?_⟩
    · rw [Memory.resolve, hpage, htakes.added.table, if_neg (by omega)]
      exact hres
    · have hr : r < m.numObjs := hlaid.table_lt _ _ hres
      rw [htakes.added.objs]
      exact (Function.update_of_ne (Nat.ne_of_lt hr) ..).trans hcopy

/-- **An iteration keeps the program**: a byte of a map other than the stack and the input space
changes only if the map grants writing, and a `WriteMem` covered the byte. -/
theorem iterate_program {sections : List Section} {a r : Nat} {pm : PolicyMemoryMap}
    (hmappable : ∀ s ∈ sections, s.Mappable)
    (hload : createMemoryFromSections sections = .ok () runner.memory)
    (hplain : (process.over .x32).PlainMemory)
    (hrun : runner.iterate process entropy fuel left = .ok it)
    (hres : runner.memory.resolve a = some r) (hpm : runner.memory.objs r = .policy pm)
    (hstack : pm.name ≠ "[stack]") (hinputs : pm.name ≠ "[input_space]")
    (hkeeps : KeepsPage runner.memory a) :
    ∃ events pm', it.proc.trace = left.trace ++ events ∧
      it.proc.env.self.memory.resolve a = some r ∧
      it.proc.env.self.memory.objs r = .policy pm' ∧ pm'.accessFlags = pm.accessFlags ∧
      (pm'.byteAt a ≠ pm.byteAt a → pm.canWrite a = true ∧ ∃ e ∈ events, e.Stores a) := by
  have hlaid := createMemoryFromSections_laidOut hmappable hload
  obtain ⟨m₁, sp, stack, inputs, pmS, pmI, policy, -, hmakes, events, htrace, hkept⟩ :=
    iterate_remains hlaid hplain hrun
  obtain ⟨hres₁, hobj₁⟩ := hmakes.keeps hlaid hkeeps hres hpm
  -- the map is neither of the two that have an input policy
  have hne : r ≠ inputs ∧ r ≠ stack := by
    refine ⟨?_, ?_⟩
    · rintro rfl
      have hname := hmakes.inputs.name_of_objs hobj₁
      exact hinputs hname
    · rintro rfl
      have hname := hmakes.stack.name_of_objs hobj₁
      exact hstack hname
  have hobj : (withPolicy m₁ stack inputs (plant runner.magicReturn sp pmS) pmI policy).objs r =
      .policy pm.deepcopy := by
    simp only [withPolicy, holding, Function.update_of_ne hne.1, Function.update_of_ne hne.2]
    exact hobj₁
  have hspread₁ := hmakes.spread_space hlaid
  have hlt : r < m₁.numObjs := hspread₁.table_lt _ _ hres₁
  obtain ⟨pm', hpm', halters⟩ := hkept.now hlt hobj
  refine ⟨events, pm', htrace, hkept.resolve_old hres₁, hpm', halters.accessFlags, fun hbyte => ?_⟩
  · have hbase : pm.base ≤ a := by
      have := hspread₁.sound.anchored a r _ hres₁ hobj₁
      exact this
    cases halters.byteAt a hbase hbyte with
    | inl hinvented =>
        obtain ⟨pm'', addr, hpm'', -, ⟨hinput, -⟩, -⟩ := hinvented
        rw [hobj] at hpm''
        rw [← GodefroidMap.policy.inj hpm''] at hinput
        have hdefault : pm.policy = .default := hlaid.default r pm hpm
        rw [show pm.deepcopy.policy = pm.policy from rfl, hdefault] at hinput
        cases hinput
    | inr hgranted =>
        obtain ⟨⟨-, pm'', hpm'', hwrite⟩, hstores⟩ := hgranted
        rw [hobj] at hpm''
        rw [← GodefroidMap.policy.inj hpm''] at hwrite
        exact ⟨hwrite, hstores⟩

/-- The map of the input space stands at every page of its range. -/
theorem Makes.filled {m m₁ : GodefroidMemory} {sp stack inputs a : Nat}
    {pmS pmI : PolicyMemoryMap} {policy : InputMemoryPolicy} {N : String → Prop}
    (h : runner.Makes (copyMemory m) m₁ sp stack inputs pmS pmI policy) (hlaid : LaidOut m)
    (hpaged : Paged (· < 0x100000) N m) (hbase : pmI.base ≤ a) (hlimit : a < pmI.limit) :
    a < 2 ^ 32 ∧ m₁.resolve a = some inputs := by
  have hspread₁ := h.spread_space hlaid
  obtain ⟨q, hq⟩ := h.inputs.mapped
  obtain ⟨rfl, -⟩ | ⟨-, last, htakes⟩ := mapInputSpace_ok hlaid.copyMemory h.space
  · -- the map of a section has one page
    have hspan := hspread₁.spans q inputs pmI hq h.inputs.map
    have hlt : q < 0x100000 := hpaged.page q inputs hq
    obtain ⟨pm, hpm, rfl⟩ := deepcopy_eq_policy h.inputs.map
    have hone : pm.deepcopy.limit = pm.deepcopy.base + 0x1000 :=
      (hpaged.map inputs pm hpm).2 fun hname => by
        have hboth := h.inputs.name
        rw [show pm.deepcopy.name = pm.name from rfl, hname] at hboth
        exact absurd hboth (by decide)
    simp only [Spans] at hspan
    refine ⟨by omega, ?_⟩
    rw [Memory.resolve, hspread₁.page, show a % 2 ^ 32 / 0x1000 = q by omega]
    exact hq
  · -- it is the new map
    have htable := htakes.added.table
    have hroom : last + 0x1080 ≤ 0x100000 := by
      have := htakes.room
      omega
    obtain ⟨hnew, hmap⟩ := h.inputs_eq htakes
    rw [← hmap] at hbase hlimit
    change last * 0x1000 ≤ a at hbase
    change a < (last + 0x1080) * 0x1000 at hlimit
    have hlt : a < 2 ^ 32 :=
      calc a < (last + 0x1080) * 0x1000 := hlimit
        _ ≤ 0x100000 * 0x1000 := Nat.mul_le_mul_right _ hroom
        _ = 2 ^ 32 := by norm_num
    refine ⟨hlt, ?_⟩
    have hfirst : last ≤ a / 0x1000 := (Nat.le_div_iff_mul_le (by decide)).mpr hbase
    have hlast : a / 0x1000 < last + 0x1080 := Nat.div_lt_of_lt_mul (Nat.mul_comm _ _ ▸ hlimit)
    rw [Memory.resolve, hspread₁.page, Nat.mod_eq_of_lt hlt, htable, if_pos ⟨hfirst, hlast⟩, hnew]

/-- A program of two bytes, an input space and a stack, each in a page of its own. -/
def threePages : List Section :=
  [⟨".text", 0x1000, 2, ⟨true, false, true⟩, some [0x90, 0xc3]⟩,
    ⟨"[input_space]", 0x2000, 0x1000, ⟨true, true, false⟩, none⟩,
    ⟨"[stack]", 0x3000, 0x1000, ⟨true, true, false⟩, none⟩]

/-- The memory of these sections. -/
def threePagesMemory : GodefroidMemory :=
  match createMemoryFromSections threePages with
  | .ok _ m => m
  | .error _ m => m

/-- A runner for one instruction. -/
def oneInstruction : GodefroidRunner :=
  ⟨threePagesMemory, 0x1000, some 0x3800, 1, .counted, some 0xFEEDF00D, .inr Nat.one_pos⟩

/-- Its iteration, with random bytes that are zero. -/
abbrev oneIteration : Except PyExc Iteration :=
  oneInstruction.iterate movArguments (fun _ => 0) 2
    (World.start (Binding.start ⟨newMemory, EmptyThread.start⟩))

theorem threePages_mappable : ∀ s ∈ threePages, s.Mappable := by
  intro s hs
  simp only [threePages, List.mem_cons, List.not_mem_nil, or_false] at hs
  rcases hs with rfl | rfl | rfl <;> exact ⟨by decide, by decide, rfl⟩

theorem threePages_ok : createMemoryFromSections threePages = .ok () oneInstruction.memory := by
  have h : (match createMemoryFromSections threePages with
      | .ok _ _ => true
      | .error _ _ => false) = true := by decide +kernel
  unfold oneInstruction threePagesMemory
  cases hr : createMemoryFromSections threePages with
  | ok u m => rfl
  | error e m => rw [hr] at h; cases h

theorem movArguments_plain : (movArguments.over .x32).PlainMemory := by
  rintro bytes inst ⟨⟩
  refine ⟨fun op hop hagen => ?_, fun i => show 4 ≤ 64 by decide⟩
  obtain rfl | rfl : op = ⟨.reg .reg0, false, true, false, .explicit⟩ ∨
      op = ⟨.mem0, true, false, false, .explicit⟩ := by simpa [movArgument, Inst.scalar] using hop
  · cases hagen
  · cases hagen

theorem oneIteration_ok : ∃ it, oneIteration = .ok it := by
  have h : oneIteration.isOk = true := by decide +kernel
  cases hr : oneIteration with
  | ok it => exact ⟨it, rfl⟩
  | error e => rw [hr] at h; cases h

/-- An observation of the policy map that an object is. -/
theorem exists_policy {β : Type} {o : GodefroidMap} {f : PolicyMemoryMap → β} {b : β}
    (h : o.policyMap?.map f = some b) : ∃ pm, o = .policy pm ∧ f pm = b := by
  cases o with
  | memoryMap => cases h
  | policy pm => exact ⟨pm, rfl, Option.some.inj h⟩

/-- The code of the sample is as it was loaded. -/
theorem iterate_program_text : ∃ it pm, oneIteration = .ok it ∧
    it.proc.env.self.memory.objs 1 = .policy pm ∧ pm.byteAt 0x1000 = 0x90 := by
  obtain ⟨it, hit⟩ := oneIteration_ok
  have hres : oneInstruction.memory.resolve 0x1000 = some 1 := by decide +kernel
  have hkeys : ∃ q ∈ oneInstruction.memory.memoryMaps.keys, oneInstruction.memory.page 0x1000 < q :=
    ⟨3, by decide +kernel, by decide +kernel⟩
  have hpm : (oneInstruction.memory.objs 1).policyMap?.map
      (fun pm => (pm.name, pm.canWrite 0x1000, pm.byteAt 0x1000)) =
        some (".text", false, 0x90) := by decide +kernel
  obtain ⟨pm, hobj, hpm⟩ := exists_policy hpm
  simp only [Prod.mk.injEq] at hpm
  obtain ⟨hname, hwrite, hbyte⟩ := hpm
  obtain ⟨events, pm', -, -, hpm', -, hchange⟩ := iterate_program threePages_mappable threePages_ok
    movArguments_plain hit hres hobj (by rw [hname]; decide) (by rw [hname]; decide) (.inr hkeys)
  refine ⟨it, pm', hit, hpm', ?_⟩
  by_contra hne
  have hgrants := (hchange (by rw [hbyte]; exact hne)).1
  rw [hwrite] at hgrants
  cases hgrants

/-- A new input space grants reading and writing. -/
theorem Makes.accessFlags {m m₁ : GodefroidMemory} {sp stack inputs : Nat}
    {pmS pmI : PolicyMemoryMap} {policy : InputMemoryPolicy}
    (h : runner.Makes (copyMemory m) m₁ sp stack inputs pmS pmI policy) (hlaid : LaidOut m)
    (hown : ¬ HasInputSpace m) : pmI.accessFlags = ⟨true, true, false⟩ := by
  obtain ⟨rfl, hhas⟩ | ⟨-, last, htakes⟩ := mapInputSpace_ok hlaid.copyMemory h.space
  · rw [HasInputSpace, findMapsByName_copyMemory] at hhas
    exact absurd hhas hown
  · rw [← (h.inputs_eq htakes).2]
    rfl

/-- **Every pointer can be followed**, also one that another has replaced since: from every place
that was handed out, at all offsets below an increment, the address lies in the input space, which
grants reading and writing it unless it is a section that does not. -/
theorem iterate_pointer {sections : List Section} {p : InputMemoryPolicy}
    (hmappable : ∀ s ∈ sections, s.Mappable)
    (hload : createMemoryFromSections sections = .ok () runner.memory)
    (hplain : (process.over .x32).PlainMemory)
    (hrun : runner.iterate process entropy fuel left = .ok it)
    (hpolicy : it.proc.env.self.memory.shared = some p) :
    (∀ addr ptr, p.pointerMap.get? addr = some ptr → p.HandedOut ptr) ∧
    ∀ ptr i, p.HandedOut ptr → i < InputMemoryPolicy.pointerIncrement →
      ptr + i < 2 ^ 32 ∧ ∃ r pm, it.proc.env.self.memory.resolve (ptr + i) = some r ∧
        it.proc.env.self.memory.objs r = .policy pm ∧ pm.name = "[input_space]" ∧
        pm.canRead (ptr + i) = pm.accessFlags.read ∧
        pm.canWrite (ptr + i) = pm.accessFlags.write ∧
        (¬ HasInputSpace runner.memory → pm.accessFlags = ⟨true, true, false⟩) := by
  have hlaid := createMemoryFromSections_laidOut hmappable hload
  have hpaged := (createMemoryFromSections_paged hmappable hload).pages_mono
    fun q ⟨s, hs, hq⟩ => (hmappable s hs).page_lt hq
  obtain ⟨m₁, sp, stack, inputs, pmS, pmI, policy, -, hmakes, events, -, hkept⟩ :=
    iterate_remains hlaid hplain hrun
  obtain ⟨p', hp', hevolves⟩ := hkept.evolves rfl
  obtain rfl : p' = p := Option.some.inj (hp'.symm.trans hpolicy)
  have hsame := hevolves.sameRanges
  refine ⟨(hevolves.pointersInside hmakes.policy.pointersInside).handedOut, fun ptr i hptr hi => ?_⟩
  have hstart : pmI.base ≤ ptr := by
    rw [← hmakes.policy.pointersStart, ← hsame.pointersStart]
    exact hptr.start_le
  have hend : ptr + InputMemoryPolicy.pointerIncrement < pmI.limit := by
    rw [← hmakes.policy.pointersEnd, ← hsame.pointersEnd]
    exact hptr.room
  have hbase : pmI.base ≤ ptr + i := Nat.le_trans hstart (Nat.le_add_right _ _)
  have hlimit : ptr + i < pmI.limit := by omega
  obtain ⟨hlt, hres⟩ := hmakes.filled hlaid hpaged hbase hlimit
  have hspread₁ := hmakes.spread_space hlaid
  have hobj : (withPolicy m₁ stack inputs (plant runner.magicReturn sp pmS) pmI policy).objs inputs =
      .policy pmI.attachPolicy := Function.update_self ..
  obtain ⟨pm, hpm, halters⟩ := hkept.now (hspread₁.table_lt _ _ hres) hobj
  have hrange : (decide (pm.base ≤ ptr + i) && decide (ptr + i < pm.limit)) = true := by
    rw [halters.base, halters.limit, Bool.and_eq_true, decide_eq_true_eq, decide_eq_true_eq]
    exact ⟨hbase, hlimit⟩
  refine ⟨hlt, inputs, pm, hkept.resolve_old hres, hpm, halters.name.trans hmakes.inputs.name,
    ?_, ?_, fun hown => ?_⟩
  · rw [PolicyMemoryMap.canRead, PolicyMemoryMap.canDoOp, hrange, Bool.and_true]
  · rw [PolicyMemoryMap.canWrite, PolicyMemoryMap.canDoOp, hrange, Bool.and_true]
  · rw [halters.accessFlags]
    exact hmakes.accessFlags hlaid hown

/-- The argument that the sample reads is a pointer into its input space. -/
theorem iterate_pointer_argument : ∃ it p r pm, oneIteration = .ok it ∧
    it.proc.env.self.memory.shared = some p ∧ p.pointerMap.get? 0x3804 = some 0x2000 ∧
    it.proc.env.self.memory.resolve (0x2000 + 0x3FF) = some r ∧
    it.proc.env.self.memory.objs r = .policy pm ∧ pm.name = "[input_space]" := by
  obtain ⟨it, hit⟩ := oneIteration_ok
  have hpointer : (oneIteration.toOption.bind fun it =>
      it.proc.env.self.memory.shared.bind fun p => p.pointerMap.get? 0x3804) = some 0x2000 := by
    decide +kernel
  rw [hit] at hpointer
  obtain ⟨_, ⟨⟩, hshared⟩ := Option.bind_eq_some_iff.mp hpointer
  obtain ⟨p, hpolicy, hptr⟩ := Option.bind_eq_some_iff.mp hshared
  obtain ⟨hhanded, hfollow⟩ := iterate_pointer threePages_mappable threePages_ok
    movArguments_plain hit hpolicy
  obtain ⟨-, r, pm, hres, hpm, hname, -⟩ := hfollow 0x2000 0x3FF (hhanded 0x3804 0x2000 hptr)
    (by decide)
  exact ⟨it, p, r, pm, hit, hpolicy, hptr, hres, hpm, hname⟩

section

variable {m m₁ : GodefroidMemory} {sp stack inputs v : Nat} {pmS pmI : PolicyMemoryMap}
  {policy : InputMemoryPolicy}

/-- The slot of the return address lies in the map of the stack. -/
theorem Makes.contains_slot (h : runner.Makes m m₁ sp stack inputs pmS pmI policy)
    (hspread₁ : Spread m₁) (hbase : pmS.base ≤ sp) : pmS.Contains sp 4 :=
  ⟨hspread₁.wellFormed stack pmS h.stack.map, hbase, Nat.le_of_lt h.lt_limit⟩

/-- The map of the stack of a new process holds the return address. -/
theorem Makes.byteAt_stack (h : runner.Makes m m₁ sp stack inputs pmS pmI policy)
    (hspread₁ : Spread m₁) (hbase : pmS.base ≤ sp) (hmagic : runner.magicReturn = some v) {i : Nat}
    (hi : i < 4) :
    (plant runner.magicReturn sp pmS).byteAt (sp + i) =
      (InputMemoryPolicy.toBytesLE 4 v).getD i 0 := by
  have hlength : (InputMemoryPolicy.toBytesLE 4 v).length = 4 := by
    simp [InputMemoryPolicy.toBytesLE]
  have hc : pmS.Contains sp (InputMemoryPolicy.toBytesLE 4 v).length := by
    rw [hlength]
    exact h.contains_slot hspread₁ hbase
  rw [hmagic, plant, PolicyMemoryMap.byteAt_putBytes hc (Nat.le_trans hbase (Nat.le_add_right _ _)),
    hlength, if_pos ⟨Nat.le_add_right _ _, by omega⟩, Nat.add_sub_cancel_left]

/-- What the map has become holds it as well, if no byte of the slot may have changed. -/
theorem Makes.slot_kept (h : runner.Makes m m₁ sp stack inputs pmS pmI policy)
    (hspread₁ : Spread m₁) (hbase : pmS.base ≤ sp) (hmagic : runner.magicReturn = some v)
    {W : Nat → Prop} {pm : PolicyMemoryMap}
    (halters : PolicyMemoryMap.Alters W (plant runner.magicReturn sp pmS).attachPolicy pm)
    (hslot : ∀ i < 4, ¬ W (sp + i)) :
    pm.Contains sp 4 ∧
      ((List.range 4).map fun i => pm.byteAt (sp + i)) = InputMemoryPolicy.toBytesLE 4 v := by
  obtain ⟨hkind, -⟩ := sameKind_plant runner.magicReturn sp pmS
  have hc := h.contains_slot hspread₁ hbase
  have hplanted : (plant runner.magicReturn sp pmS).Contains sp 4 :=
    hc.of_sameMap ⟨hkind.base, hkind.limit, hkind.policy, hkind.length⟩
  have hattached : (plant runner.magicReturn sp pmS).attachPolicy.Contains sp 4 :=
    ⟨hplanted.wellFormed, hplanted.base_le, hplanted.le_limit⟩
  refine ⟨hattached.of_sameMap halters.toSameMap, ?_⟩
  refine (List.map_congr_left fun i hi => ?_).trans
    (show _ = (List.range 4).map fun i => (InputMemoryPolicy.toBytesLE 4 v).getD i 0 from rfl).symm
  have hlt : i < 4 := List.mem_range.mp hi
  by_contra hne
  rw [← h.byteAt_stack hspread₁ hbase hmagic hlt] at hne
  exact hslot i hlt (halters.byteAt (sp + i) (hattached.base_le.trans (Nat.le_add_right _ _)) hne)

end

/-- **The return address stays in its slot**, until a `WriteMem` covers it: when the slot lies in the
stack, and no address is watched from which a load of at most eight bytes reaches the slot. -/
theorem iterate_returnAddress {sections : List Section} {v sp r : Nat} {m : GodefroidMemory}
    {pm : PolicyMemoryMap} {policy : InputMemoryPolicy} {events : List Event}
    (hmappable : ∀ s ∈ sections, s.Mappable)
    (hload : createMemoryFromSections sections = .ok () runner.memory)
    (hplain : (process.over .x32).PlainMemory)
    (hmake : runner.makeNewProcess entropy (copyMemory runner.memory) = .ok sp m)
    (hrun : runner.iterate process entropy fuel left = .ok it)
    (hmagic : runner.magicReturn = some v)
    (hslot : ∀ i < 4, m.resolve (sp + i) = some r) (hpm : m.objs r = .policy pm)
    (hname : pm.name = "[stack]") (hbase : pm.base ≤ sp) (hshared : m.shared = some policy)
    (hclear : ∀ x, sp < x + 8 → x < sp + 4 → policy.watches x = false)
    (htrace : it.proc.trace = left.trace ++ events)
    (hstores : ∀ e ∈ events, ∀ i < 4, ¬ e.Stores (sp + i)) :
    load sp 4 it.proc.env.self.memory =
      .ok (InputMemoryPolicy.toBytesLE 4 v) it.proc.env.self.memory := by
  have hlaid := createMemoryFromSections_laidOut hmappable hload
  obtain ⟨m₁, sp', stack, inputs, pmS, pmI, policy', hmake', hmakes, events', htrace', hkept⟩ :=
    iterate_remains hlaid hplain hrun
  rw [hmake] at hmake'
  obtain ⟨rfl, rfl⟩ := EStateM.Result.ok.inj hmake'
  obtain rfl : events' = events := List.append_cancel_left (htrace'.symm.trans htrace)
  obtain rfl : policy' = policy := Option.some.inj hshared
  have hspread₁ := hmakes.spread_space hlaid
  -- the slot is in the stack that was made
  obtain ⟨rfl, rfl⟩ | ⟨rfl, rfl⟩ | ⟨hinputs, hstack, hold⟩ := Initialized.policyMap hpm
  · exact absurd (hmakes.inputs.name.symm.trans hname) (by decide)
  · have hkind := (sameKind_plant runner.magicReturn sp pmS).1
    have hbaseS : pmS.base ≤ sp := by
      rw [← hkind.base]
      exact hbase
    obtain ⟨pm', hpm', halters⟩ := hkept.now (hspread₁.table_lt _ _ (hslot 0 (by decide))) hpm
    obtain ⟨hc, hbytes⟩ := hmakes.slot_kept hspread₁ hbaseS hmagic halters fun i hi hchanges => by
      cases hchanges with
      | inl hinvented =>
          obtain ⟨_, x, _, _, ⟨_, p, hp, hwatches⟩, hle, hlt⟩ := hinvented
          obtain rfl : policy' = p := Option.some.inj hp
          rw [hclear x (by omega) (by omega)] at hwatches
          cases hwatches
      | inr hgranted =>
          obtain ⟨_, e, he, hcovers⟩ := hgranted
          exact hstores e he i hi hcovers
    obtain ⟨p, hp, hevolves⟩ := hkept.evolves rfl
    have hwatches : p.watches sp = false := by
      rw [hevolves.watches]
      exact hclear sp (by omega) (by omega)
    rw [load_unwatched (fun i hi => hkept.resolve_old (hslot i hi)) hpm' hc hp hwatches, hbytes]
  · exact absurd (hmakes.stack.only _ r pm (hslot 0 (by decide)) hold hname) hstack

/-- The memory of the sample, when the iteration starts. -/
def oneMemory : GodefroidMemory :=
  match oneInstruction.makeNewProcess (fun _ => 0) (copyMemory oneInstruction.memory) with
  | .ok _ m => m
  | .error _ m => m

theorem oneMemory_ok : oneInstruction.makeNewProcess (fun _ => 0)
    (copyMemory oneInstruction.memory) = .ok 0x3800 oneMemory := by
  have h : (match oneInstruction.makeNewProcess (fun _ => 0)
        (copyMemory oneInstruction.memory) with
      | .ok sp _ => sp == 0x3800
      | .error _ _ => false) = true := by decide +kernel
  unfold oneMemory
  cases hr : oneInstruction.makeNewProcess (fun _ => 0) (copyMemory oneInstruction.memory) with
  | ok sp m => rw [hr] at h; rw [eq_of_beq h]
  | error e m => rw [hr] at h; cases h

/-- The return address of the sample is in its slot. -/
theorem iterate_returnAddress_kept : ∃ it, oneIteration = .ok it ∧
    load 0x3800 4 it.proc.env.self.memory =
      .ok (InputMemoryPolicy.toBytesLE 4 0xFEEDF00D) it.proc.env.self.memory := by
  obtain ⟨it, hit⟩ := oneIteration_ok
  have hslot : ∀ i < 4, oneMemory.resolve (0x3800 + i) = some 4 := by decide +kernel
  have hstack : (oneMemory.objs 4).policyMap?.map (fun pm => (pm.name, pm.base)) =
      some ("[stack]", 0x3000) := by decide +kernel
  have hranges : oneMemory.shared.map
      (fun p => (p.start, p.stop, p.pointersStart, p.pointersEnd)) =
        some (0x3804, 0x4000, 0x2000, 0x3000) := by decide +kernel
  have hevents : (oneIteration.toOption.map fun it =>
      it.proc.trace.all fun e => (List.range 4).all fun i => !decide (e.Stores (0x3800 + i))) =
        some true := by decide +kernel
  obtain ⟨pm, hpm, hkind⟩ := exists_policy hstack
  simp only [Prod.mk.injEq] at hkind
  obtain ⟨policy, hshared, hpolicy⟩ := Option.map_eq_some_iff.mp hranges
  simp only [Prod.mk.injEq] at hpolicy
  rw [hit] at hevents
  have htrace : it.proc.trace = [] ++ it.proc.trace := rfl
  refine ⟨it, hit, iterate_returnAddress threePages_mappable threePages_ok movArguments_plain
    oneMemory_ok hit rfl hslot hpm hkind.1 (by omega) hshared ?_ htrace ?_⟩
  · intro x h1 h2
    simp only [InputMemoryPolicy.watches, hpolicy.1, hpolicy.2.1, hpolicy.2.2.1, hpolicy.2.2.2,
      Bool.or_eq_false_iff, Bool.and_eq_false_iff, decide_eq_false_iff_not]
    omega
  · intro e he i hi
    have := List.all_eq_true.mp (List.all_eq_true.mp (Option.some.inj hevents) e he) i
      (List.mem_range.mpr hi)
    simpa using this

/-- **Nothing that is reported is made up**: every byte that `get_outputs` reports was stored by the
program, and every pointer that `get_inputs` reports was invented for a word that it read. -/
theorem iterate_reports {sections : List Section} (hmappable : ∀ s ∈ sections, s.Mappable)
    (hload : createMemoryFromSections sections = .ok () runner.memory)
    (hplain : (process.over .x32).PlainMemory)
    (hrun : runner.iterate process entropy fuel left = .ok it) :
    ∃ p events, it.proc.env.self.memory.shared = some p ∧ it.proc.trace = left.trace ++ events ∧
      (∀ a, Areas.Covers id p.getOutputs a → ∃ e ∈ events, e.Stores a) ∧
      ∀ k area, p.getInputs.get? k = some area → area.type = .pointer →
        ∃ addr, p.getPointer addr = some area.target ∧
          ∃ e ∈ events, ∀ i < 4, e.Reads (addr + i) := by
  obtain ⟨m₁, sp, stack, inputs, pmS, pmI, policy, -, hmakes, events, htrace, hkept⟩ :=
    iterate_remains (createMemoryFromSections_laidOut hmappable hload) hplain hrun
  obtain ⟨p, hp, hevolves⟩ := hkept.evolves rfl
  have hrecords := hevolves.recordsAccesses hmakes.policy.recordsAccesses
  refine ⟨p, events, hp, htrace, fun a ha => ?_, fun k area harea htype => ?_⟩
  · obtain ⟨k, size, hk, h1, h2⟩ := (InputMemoryPolicy.getOutputs_covers p a).mp ha
    exact hrecords.outputs k size hk a h1 h2
  · obtain ⟨-, addr, -, rfl⟩ := (Areas.get?_merge p.makeItype p.knownInputs).mp harea
    have hptr := (p.makeItype_pointer addr _ _).mp ⟨htype, rfl⟩
    obtain ⟨e, he, hreads⟩ := hrecords.pointers addr _ hptr
    rw [hevolves.sameRanges.addressBytes, hmakes.policy.addressBytes] at hreads
    exact ⟨addr, hptr, e, he, fun i hi => hreads (addr + i) (Nat.le_add_right _ _) (by omega)⟩

/-- The pointer that the sample reports was invented for a word that it read. -/
theorem iterate_reports_argument : ∃ it p addr, oneIteration = .ok it ∧
    it.proc.env.self.memory.shared = some p ∧ p.getPointer addr = some 0x2000 ∧
    ∃ e ∈ it.proc.trace, ∀ i < 4, e.Reads (addr + i) := by
  obtain ⟨it, hit⟩ := oneIteration_ok
  have hinput : (oneIteration.toOption.bind fun it =>
      it.proc.env.self.memory.shared.bind fun p => p.getInputs.get? 0x3804) =
        some ⟨4, .pointer, 0x2000⟩ := by decide +kernel
  rw [hit] at hinput
  obtain ⟨_, ⟨⟩, hshared⟩ := Option.bind_eq_some_iff.mp hinput
  obtain ⟨p, hpolicy, harea⟩ := Option.bind_eq_some_iff.mp hshared
  obtain ⟨p', events, hp', htrace, -, hpointers⟩ :=
    iterate_reports threePages_mappable threePages_ok movArguments_plain hit
  obtain rfl : p' = p := Option.some.inj (hp'.symm.trans hpolicy)
  obtain ⟨addr, hptr, hreads⟩ := hpointers _ _ harea rfl
  refine ⟨it, p', addr, hit, hpolicy, hptr, ?_⟩
  rw [htrace]
  exact hreads

end GodefroidRunner

end Microx
