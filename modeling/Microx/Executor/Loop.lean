import Microx.Executor.Stepping

/-!
# Microx.Executor.Loop

`LOOP`, `LOOPE` and `LOOPNE`.

The processor decrements the counter and then looks whether it is zero.  The
executor looks at the counter before it is decremented, so a body runs once more
than the counter says, and it runs once when the counter is zero.
-/

namespace Microx

/-- The condition on `ZF` under which a `LOOP` goes back. -/
def loopCondition : IForm → Option (Bool → Bool)
  | .loopRELBRb => some fun _ => true
  | .loopeRELBRb => some id
  | .loopneRELBRb => some not
  | _ => none

/-- How often a body runs whose counter starts with `count`. -/
def loopTimes {w : Nat} (count : BitVec w) : Nat := if count = 0 then 2 ^ w else count.toNat

/-- What `LOOP` is for: `zs` are the conditions found after each time the body ran.  It runs as
often as the counter says, or until the condition fails for the first time. -/
structure RunsRight {w : Nat} (zs : List Bool) (count count' : BitVec w) : Prop where
  atMost : zs.length ≤ loopTimes count
  early : zs.length < loopTimes count → zs.getLast? = some false
  first : ∀ z ∈ zs.dropLast, z = true
  counted : zs.length = loopTimes count → count' = 0

namespace FlatMachine

variable {c : FlatMachine} {inst : Inst} {again : Bool → Bool} {w w' : World (Flat c.width)}

/-- A `LOOP` as XED lists it: the counter is an operand that is written, there is no memory
operand, and the forms with a condition read `ZF`. -/
structure IsLoop (c : FlatMachine) (inst : Inst) (again : Bool → Bool) : Prop where
  plain : c.Plain inst
  form : loopCondition inst.iform = some again
  counter : ∃ op ∈ inst.operands, ∃ x, op.name = .reg x ∧ (inst.reg x).family = some .rcx ∧
    op.written = true
  noMemory : inst.memoryOperands = []
  readsZF : inst.iform ≠ .loopRELBRb →
    ∃ rf, inst.rflags = some rf ∧ Flag.zf.get (Executor.readMask rf) = true

/-- The condition a `LOOP` finds. -/
def goesOn (again : Bool → Bool) (w : World (Flat c.width)) : Bool := again (w.env.flags .zf)

/-- The counter. -/
def counter (w : World (Flat c.width)) : BitVec c.width := c.gpr w.env .rcx

/-! ## one step -/

/-- What `Emulate` does for all three forms. -/
theorem IsLoop.emulate (h : c.IsLoop inst again) {e : Flat c.width} {g : Globals}
    (hg : c.Ready e inst g) (nextPC : Word) :
    c.executor.emulate inst nextPC g =
      c.executor.loopIf inst (fun _ => again (e.flags .zf)) nextPC g := by
  have hzf (hne : inst.iform ≠ .loopRELBRb) (v : Word) :
      Flag.zf.get (c.executor.writeGPR c.executor.countReg v g).aflag = e.flags .zf := by
    obtain ⟨rf, hrf, hread⟩ := h.readsZF hne
    have hfam : (c.executor.countReg).family = some .rcx := c.executor.wide_family .rcx
    rw [c.executor.aflag_writeGPR hfam, hg.flags.value rf hrf _ hread]
  have hform := h.form
  unfold Executor.emulate
  unfold loopCondition at hform
  split at hform
  case h_1 hf => cases hform; rw [hf]
  case h_2 hf =>
    cases hform
    rw [hf]
    simp only [Executor.loopIf, hzf (by rw [hf]; nofun), id]
  case h_3 hf =>
    cases hform
    rw [hf]
    simp only [Executor.loopIf, hzf (by rw [hf]; nofun)]
  case h_4 => contradiction

/-- A `LOOP` decrements the counter, and goes back if the counter was not zero. -/
theorem loop_step (h : c.IsLoop inst again) (hd : c.Decodes w.env inst) :
    ∃ w', c.Step w w' ∧ counter w' = counter w - 1 ∧ w'.env.mem = w.env.mem ∧
      c.pc w'.env = if counter w ≠ 0 ∧ goesOn again w = true then c.branchTarget inst w.env
        else c.behind inst w.env := by
  obtain ⟨g, hg, hrun⟩ := step_flat h.plain hd
  obtain ⟨op, hop, x, hname, hfam, hback⟩ := h.counter
  have hmeant : (inst.reg x).meant.family = some .rcx := by
    rw [Reg.meant_of_family hfam]
    exact hfam
  have hread : c.executor.readGPR c.executor.countReg g = (counter w).setWidth 64 := by
    rw [show counter w = c.executor.gpr g .rcx from (hg.gpr_operand hop hname hmeant).symm]
    exact c.executor.readGPR_wide .rcx g
  have hzero : (counter w).setWidth 64 ≠ 0 ↔ counter w ≠ 0 :=
    not_congr ⟨fun h0 => c.addrSize.setWidth_inj (h0.trans (by simp)), fun h0 => by rw [h0]; simp⟩
  have hemulate : c.executor.emulate inst (c.executor.getNextPC inst g) g = .emulated
      (if counter w ≠ 0 ∧ goesOn again w = true then
          c.executor.branchTarget inst (c.executor.getNextPC inst g)
        else c.executor.truncatePC (c.executor.getNextPC inst g))
      (c.executor.writeGPR (c.executor.wide .rcx) ((counter w).setWidth 64 - 1) g) := by
    rw [h.emulate hg, Executor.loopIf, hread]
    unfold Executor.branchIf goesOn
    simp only [Bool.and_eq_true, decide_eq_true_eq, hzero]
    split <;> rfl
  obtain ⟨w', hstep, henv, -⟩ := hrun _ _ hemulate
  refine ⟨w', hstep, ?_, ?_, ?_⟩
  · rw [counter, henv, hg.gpr_written_operand hemulate hop hname hmeant (.inl hback),
      Executor.gpr_writeGPR_wide, if_pos rfl, AddressSize.setWidth_sub,
      AddressSize.setWidth_setWidth, AddressSize.setWidth_one]
  · rw [henv]
    exact hg.written_mem h.noMemory hemulate _
  · rw [henv, pc_written]
    split
    · exact hg.setWidth_branchTarget
    · exact (setWidth_truncatePC _).trans hg.setWidth_getNextPC

/-! ## runs of a loop -/

/-- The body of a loop, which leaves the counter alone and ends with a `LOOP` back to its start,
and the `LOOP`. -/
structure Round (c : FlatMachine) (inst : Inst) (w w₁ w' : World (Flat c.width)) : Prop where
  body : c.Steps w w₁
  kept : counter w₁ = counter w
  decodes : c.Decodes w₁.env inst
  start : c.branchTarget inst w₁.env = c.pc w.env
  step : c.Step w₁ w'

/-- A loop from its start to the instruction behind it, with the conditions that were found each
time the body had run. -/
inductive LoopRun (c : FlatMachine) (inst : Inst) (again : Bool → Bool) :
    List Bool → World (Flat c.width) → World (Flat c.width) → Prop where
  | last {w w₁ w'} (h : c.Round inst w w₁ w') (hpc : c.pc w'.env = c.behind inst w₁.env) :
      LoopRun c inst again [goesOn again w₁] w w'
  | back {zs w w₁ w' w''} (h : c.Round inst w w₁ w') (hpc : c.pc w'.env = c.pc w.env)
      (rest : LoopRun c inst again zs w' w'') : LoopRun c inst again (goesOn again w₁ :: zs) w w''

/-- A `LOOP` that goes back somewhere. -/
theorem branchTarget_ne_behind (hb : inst.branchDisplacement.setWidth c.width ≠ 0)
    (e : Flat c.width) : c.branchTarget inst e ≠ c.behind inst e := by
  intro h
  exact hb (BitVec.add_right_eq_self.mp h)

/-- One round: the counter is decremented, and the loop goes on if it was not zero. -/
theorem Round.result (h : c.IsLoop inst again) (hb : inst.branchDisplacement.setWidth c.width ≠ 0)
    {w₁ : World (Flat c.width)} (hr : c.Round inst w w₁ w') :
    counter w' = counter w - 1 ∧
      (c.pc w'.env = c.pc w.env ↔ counter w ≠ 0 ∧ goesOn again w₁ = true) ∧
      (c.pc w'.env = c.behind inst w₁.env ↔ ¬(counter w ≠ 0 ∧ goesOn again w₁ = true)) := by
  obtain ⟨w'', hstep, hcount, -, hpc⟩ := loop_step h hr.decodes
  rw [hr.step.unique hstep, hcount, hpc, ← hr.start, hr.kept]
  have hne := branchTarget_ne_behind hb w₁.env
  exact ⟨rfl, hne.ite_eq_left_iff, hne.ite_eq_right_iff⟩

/-- What a loop does instead: its body runs once more than the counter says. -/
theorem LoopRun.result (h : c.IsLoop inst again)
    (hb : inst.branchDisplacement.setWidth c.width ≠ 0) {zs : List Bool}
    (hr : c.LoopRun inst again zs w w') :
    ∃ n z, zs = List.replicate n true ++ [z] ∧ n ≤ (counter w).toNat ∧
      (z = true → n = (counter w).toNat) ∧ counter w' = counter w - BitVec.ofNat _ zs.length := by
  induction hr with
  | @last w w₁ w' h₁ hpc =>
      obtain ⟨hcount, -, hleave⟩ := h₁.result h hb
      refine ⟨0, goesOn again w₁, rfl, Nat.zero_le _, fun hz => ?_, hcount⟩
      have h0 : counter w = 0 := by
        have hnot := hleave.mp hpc
        simpa [hz] using hnot
      rw [h0]
      rfl
  | @back zs w w₁ w' w'' h₁ hpc rest ih =>
      obtain ⟨hcount, hgo, -⟩ := h₁.result h hb
      obtain ⟨n, z, hzs, hn, hz, hleft⟩ := ih
      obtain ⟨hne, hagain⟩ := hgo.mp hpc
      have hpred : (counter w').toNat + 1 = (counter w).toNat := by
        rw [hcount]
        exact Bits.toNat_pred hne
      refine ⟨n + 1, z, ?_, ?_, fun h => ?_, ?_⟩
      · rw [hzs, hagain]
        rfl
      · omega
      · rw [hz h, hpred]
      · rw [hleft, hcount, List.length_cons, BitVec.ofNat_add, BitVec.sub_sub, BitVec.add_comm]
        rfl

/-- No loop goes back forever. -/
theorem loop_ends (h : c.IsLoop inst again) (hb : inst.branchDisplacement.setWidth c.width ≠ 0)
    (f : Nat → World (Flat c.width)) :
    ¬∀ i, ∃ w₁, c.Round inst (f i) w₁ (f (i + 1)) ∧ c.pc (f (i + 1)).env = c.pc (f i).env := by
  intro hall
  have hcounts (i : Nat) : (counter (f i)).toNat + i = (counter (f 0)).toNat := by
    induction i with
    | zero => rfl
    | succ i ih =>
        obtain ⟨w₁, hround, hpc⟩ := hall i
        obtain ⟨hcount, hgo, -⟩ := hround.result h hb
        have hpred := Bits.toNat_pred (hgo.mp hpc).1
        rw [← hcount] at hpred
        omega
  have hlast := hcounts ((counter (f 0)).toNat + 1)
  omega

theorem loopTimes_of_ne {n : Nat} {count : BitVec n} (h : count ≠ 0) :
    loopTimes count = count.toNat := if_neg h

/-- The code runs the body as often as it should if and only if the condition fails in time. -/
theorem runsRight_iff {n : Nat} (hn : n ≠ 0) {count : BitVec n} {k : Nat} {z : Bool}
    (hk : k ≤ count.toNat) (hz : z = true → k = count.toNat) :
    RunsRight (List.replicate k true ++ [z]) count (count - BitVec.ofNat _ (k + 1)) ↔
      false ∈ (List.replicate k true ++ [z]).take (max count.toNat 1) := by
  have hlength : (List.replicate k true ++ [z]).length = k + 1 := by simp
  have hlast : (List.replicate k true ++ [z]).getLast? = some z := by simp
  have hfirst : ∀ b ∈ (List.replicate k true ++ [z]).dropLast, b = true := by simp
  have htwo : 1 < 2 ^ n := Nat.one_lt_two_pow hn
  have htake : false ∈ (List.replicate k true ++ [z]).take (max count.toNat 1) ↔
      z = false ∧ k < max count.toNat 1 := by
    rw [List.take_append, List.length_replicate]
    by_cases hlt : k < max count.toNat 1
    · simp [hlt, List.take_of_length_le (l := [z]) (i := max count.toNat 1 - k) (by simp; omega)]
    · simp [hlt, Nat.sub_eq_zero_of_le (Nat.le_of_not_lt hlt)]
  rw [htake]
  by_cases h0 : count = 0
  · have hm : count.toNat = 0 := by simp [h0]
    have htimes : loopTimes count = 2 ^ n := if_pos h0
    constructor
    · intro h
      have hlt : k + 1 < loopTimes count := by omega
      have hfalse := h.early (by rw [hlength]; exact hlt)
      exact ⟨by simpa [hlast] using hfalse, by omega⟩
    · rintro ⟨rfl, hlt⟩
      exact ⟨by omega, fun _ => hlast, hfirst, fun heq => by omega⟩
  · have hm : count.toNat ≠ 0 := fun h => h0 (BitVec.eq_of_toNat_eq h)
    have htimes : loopTimes count = count.toNat := loopTimes_of_ne h0
    constructor
    · intro h
      have hle := h.atMost
      have hne : z ≠ true := fun hz' => by
        have := hz hz'
        omega
      exact ⟨by simpa using hne, by omega⟩
    · rintro ⟨rfl, hlt⟩
      refine ⟨by omega, fun _ => hlast, hfirst, fun heq => ?_⟩
      rw [← hlength, heq, htimes]
      simp

/-! ## when a loop runs as often as it should -/

/-- A `LOOP` goes back as it should if and only if the condition on `ZF` fails or the counter is
neither zero nor one.  A loop runs its body as often as it should if and only if the condition
fails after one of the first runs, as many as the counter says, or after the first if it is
zero. -/
theorem loop_right_iff (h : c.IsLoop inst again)
    (hb : inst.branchDisplacement.setWidth c.width ≠ 0) :
    (∀ w, c.Decodes w.env inst → ∃ w', c.Step w w' ∧
      ((c.pc w'.env = c.branchTarget inst w.env ↔
          counter w - 1 ≠ 0 ∧ goesOn again w = true) ↔
        (goesOn again w = true → counter w ≠ 0 ∧ counter w ≠ 1))) ∧
    (∀ zs w w', c.LoopRun inst again zs w w' →
      (RunsRight zs (counter w) (counter w') ↔ false ∈ zs.take (max (counter w).toNat 1))) ∧
    ∀ f : Nat → World (Flat c.width),
      ¬∀ i, ∃ w₁, c.Round inst (f i) w₁ (f (i + 1)) ∧ c.pc (f (i + 1)).env = c.pc (f i).env := by
  refine ⟨fun w hd => ?_, fun zs w w' hr => ?_, loop_ends h hb⟩
  · obtain ⟨w', hstep, -, -, hpc⟩ := loop_step h hd
    refine ⟨w', hstep, ?_⟩
    have hne := branchTarget_ne_behind hb w.env
    have hbranch : c.pc w'.env = c.branchTarget inst w.env ↔
        counter w ≠ 0 ∧ goesOn again w = true := by
      rw [hpc]
      exact hne.ite_eq_left_iff
    have hone : counter w - 1 ≠ 0 ↔ counter w ≠ 1 := sub_ne_zero
    have hexcl : counter w = 0 → counter w ≠ 1 := fun h0 h1 =>
      c.addrSize.zero_ne_one (h0.symm.trans h1)
    rw [hbranch, hone]
    grind
  · obtain ⟨k, z, hzs, hk, hz, hcount⟩ := hr.result h hb
    have hlength : zs.length = k + 1 := by simp [hzs]
    rw [hcount, hlength, hzs]
    exact runsRight_iff c.addrSize.bits_ne_zero hk hz

/-! ### a loop that runs twice -/

/-- `LOOP` to itself. -/
def loopSelf : Inst :=
  .scalar .loopRELBRb 2 64 [.register .reg0 true, .register .reg1 true]
    (fun x => if x = .reg0 then .gpr64 .rcx else .rip) (fun _ => .none) (-2)

/-- A machine that knows this instruction only. -/
def loopMachine : FlatMachine := .sample .x64 fun _ => some loopSelf

/-- The counter is one. -/
def loopStart : World (Flat loopMachine.width) :=
  .start ⟨fun r => if r = .gpr64 .rcx then 1 else 0, fun _ => false, fun _ => 0xE2⟩

theorem isLoop_loopSelf : loopMachine.IsLoop loopSelf fun _ => true where
  plain :=
    { supported := by decide
      notNop := by decide
      operand := by
        intro op hop x hname
        simp [loopSelf, Inst.scalar, Operand.register] at hop
        rcases hop with rfl | rfl <;> cases hname <;> decide
      base := by decide
      index := by decide
      noBitOp := by
        intro op lock
        exact ⟨nofun, nofun⟩
      usualOrder := List.mem_cons_self }
  form := rfl
  counter := ⟨.register .reg0 true, by decide, .reg0, rfl, rfl, rfl⟩
  noMemory := rfl
  readsZF h := absurd rfl h

/-- A loop whose counter is one runs its body twice. -/
theorem loopSelf_run : ∃ w', loopMachine.LoopRun loopSelf (fun _ => true) [true, true] loopStart w' := by
  have hself (w : World (Flat loopMachine.width)) :
      loopMachine.branchTarget loopSelf w.env = loopMachine.pc w.env := by
    change loopMachine.pc w.env + 2 + -2 = _
    rw [BitVec.add_assoc]
    exact BitVec.add_zero _
  have hd (w : World (Flat loopMachine.width)) : loopMachine.Decodes w.env loopSelf :=
    decodes_sample rfl
  obtain ⟨w₁, hstep₁, hcount₁, -, hpc₁⟩ := loop_step isLoop_loopSelf (hd loopStart)
  obtain ⟨w₂, hstep₂, hcount₂, -, hpc₂⟩ := loop_step isLoop_loopSelf (hd w₁)
  have hone : counter loopStart = 1 := by decide +kernel
  rw [hone] at hcount₁ hpc₁
  rw [hcount₁] at hpc₂
  have hback : loopMachine.pc w₁.env = loopMachine.pc loopStart.env := by
    rw [hpc₁, ← hself loopStart]
    rfl
  have hleave : loopMachine.pc w₂.env = loopMachine.behind loopSelf w₁.env := by
    rw [hpc₂]
    rfl
  have hround (w w' : World (Flat loopMachine.width)) (h : loopMachine.Step w w') :
      loopMachine.Round loopSelf w w w' := ⟨.refl, rfl, hd w, hself w, h⟩
  exact ⟨w₂, .back (hround _ _ hstep₁) hback (.last (hround _ _ hstep₂) hleave)⟩

theorem loop_wrong : ¬∀ (c : FlatMachine) (inst : Inst) (again : Bool → Bool) (zs : List Bool)
    (w w' : World (Flat c.width)), c.IsLoop inst again →
    inst.branchDisplacement.setWidth c.width ≠ 0 → c.LoopRun inst again zs w w' →
      RunsRight zs (counter w) (counter w') := by
  intro h
  obtain ⟨w', hrun⟩ := loopSelf_run
  have hright := h loopMachine loopSelf _ _ _ _ isLoop_loopSelf (by decide) hrun
  have hone : counter loopStart = 1 := by decide +kernel
  have htimes : loopTimes (1 : BitVec loopMachine.width) = 1 := rfl
  have hmost := hright.atMost
  rw [hone, htimes] at hmost
  exact absurd hmost (by decide)

/-- The run ends, with one round too many. -/
theorem loop_right_iff_one :
    ∃ w', loopMachine.LoopRun loopSelf (fun _ => true) [true, true] loopStart w' ∧
      counter loopStart = 1 ∧ ¬RunsRight [true, true] (counter loopStart) (counter w') := by
  obtain ⟨w', hrun⟩ := loopSelf_run
  have hiff := (loop_right_iff isLoop_loopSelf (by decide)).2.1 _ _ _ hrun
  refine ⟨w', hrun, by decide +kernel, fun h => ?_⟩
  have hmem := List.mem_of_mem_take (hiff.mp h)
  simp at hmem

end FlatMachine

end Microx
