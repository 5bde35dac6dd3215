import Microx.Executor.Borrowed
import Microx.Executor.Renaming
import Microx.Executor.Stepping

/-!
# Microx.Executor.StackAlias

The run on the alias of the stack pointer and the direct run, from the fetch to
the last register that is written: they report the same.
-/

namespace Microx

open Hoare

variable {σ α : Type}

/-! ## one instruction -/

/-- One of the registers an alias is looked for among is not read. -/
def Inst.Spares (inst : Inst) : Prop := ∃ x ∈ Gpr.aliases, ¬inst.Reads x

/-- XED lists the registers that an instruction uses implicitly. -/
def ListsImplicit (ex : Executor σ) (implicit : EncInst → Gpr → Prop) : Prop :=
  ∀ bytes inst enc x, ex.xed.decode ex.addrSize bytes = some inst → ex.Encodes inst enc →
    implicit enc x → inst.Reads x

/-- XED encodes what it decoded no less with an alias in the place of the stack pointer. -/
def EncodesAliases (ex : Executor σ) (implicit : EncInst → Gpr → Prop) : Prop :=
  ∀ bytes inst enc x, ex.xed.decode ex.addrSize bytes = some inst → ex.Encodes inst enc →
    x ∈ Gpr.aliases → ¬inst.Reads x → enc.Renamable implicit (Equiv.swap .rsp x) →
    ex.xed.encode (enc.rename (Equiv.swap .rsp x)) = ex.xed.encode enc

/-- The stack pointer is an operand and no more, and if it is handed over there is an alias. -/
structure AliasApplies (ex : Executor σ) (implicit : EncInst → Gpr → Prop) (inst : Inst) :
    Prop where
  explicit : ∀ {enc}, ex.Encodes inst enc → ¬implicit enc .rsp
  spares : inst.handsStackPointer inst.operands = true → inst.Spares

/-- What the two runs of a decoded instruction rest on. -/
structure Renames (ex : Executor σ) (implicit : EncInst → Gpr → Prop) (inst : Inst) : Prop where
  order : ex.xed.SameOrder
  commutes : CommutesWithRenaming ex.cpu implicit
  lists : ∀ {enc y}, ex.Encodes inst enc → implicit enc y → inst.Reads y ∧ y ≠ .rsp
  encodes : ∀ {enc x}, ex.Encodes inst enc → x ∈ Gpr.aliases → ¬inst.Reads x →
    enc.Renamable implicit (Equiv.swap .rsp x) →
    ex.xed.encode (enc.rename (Equiv.swap .rsp x)) = ex.xed.encode enc
  spares : inst.handsStackPointer inst.operands = true → inst.Spares

theorem Gathered.exists_chosen {inst : Inst} {g : Globals} (hg : Gathered inst.readRegs g)
    (hspare : inst.handsStackPointer inst.operands = true → inst.Spares) :
    ∃ x, ChosenAlias inst g x := by
  cases hands : inst.handsStackPointer inst.operands with
  | false => exact ⟨.rsp, .none hands rfl⟩
  | true =>
      obtain ⟨x, hx, hunread⟩ := hspare hands
      have hfree : ∃ y, Executor.freeRegister g = .gpr64 y ∧ g.storeRegs (.gpr64 y) = false := by
        have hstore : g.storeRegs (.gpr64 x) = false :=
          Bool.eq_false_iff.mpr fun h => hunread ((hg.stored x).mp h)
        unfold Executor.freeRegister
        cases hrax : g.storeRegs (.gpr64 .rax) with
        | false => exact ⟨.rax, rfl, hrax⟩
        | true =>
            cases hrcx : g.storeRegs (.gpr64 .rcx) with
            | false => exact ⟨.rcx, rfl, hrcx⟩
            | true =>
                cases hrdx : g.storeRegs (.gpr64 .rdx) with
                | false => exact ⟨.rdx, rfl, hrdx⟩
                | true =>
                    have hrbx : g.storeRegs (.gpr64 .rbx) = false := by
                      simp only [Gpr.aliases, List.mem_cons, List.not_mem_nil, or_false] at hx
                      obtain rfl | rfl | rfl | rfl := hx
                      · cases hrax.symm.trans hstore
                      · cases hrcx.symm.trans hstore
                      · cases hrdx.symm.trans hstore
                      · exact hstore
                    exact ⟨.rbx, by simp [hrbx], hrbx⟩
      obtain ⟨y, hy, hstore⟩ := hfree
      refine ⟨y, .taken hands (fun hread => ?_) hy⟩
      cases hstore.symm.trans ((hg.stored y).mpr hread)

theorem Gathered.describesOnly {regs : List Reg} {g g' : Globals} (hg : Gathered regs g)
    (h : Executor.DescribesOnly g g') : Gathered regs g' :=
  hg.congr h.1 h.2.1 h.2.2

section

variable {ex : Executor σ} {inst : Inst} {implicit : EncInst → Gpr → Prop} {t u : List Event}
  (hrenames : Renames ex implicit inst)

include hrenames

/-- The encoder takes one instruction just if it takes the other. -/
theorem Renames.encode_rename {g : Globals} {x : Gpr} (hx : ChosenAlias inst g x) {enc : EncInst}
    (henc : ex.Encodes inst enc) :
    ex.xed.encode (enc.rename (Equiv.swap .rsp x)) = ex.xed.encode enc := by
  have hren := hx.renamable henc (hrenames.lists henc)
  cases hx with
  | none _ hrsp =>
      rw [hrsp, Equiv.swap_self, EncInst.rename_refl]
  | taken _ unread free =>
      exact hrenames.encodes henc (Executor.freeRegister_spec free).1 unread hren

/-- One encoding is the other, renamed. -/
theorem encode_together :
    Together t u (fun g g' => g' = g ∧ Gathered inst.readRegs g) (ex.encodeInstruction inst)
      (ex.encodeDirect inst) fun enc enc' g g' => ∃ x, ChosenAlias inst g' x ∧
        Gathered inst.readRegs g' ∧ ex.Encodes inst enc' ∧ enc = enc'.rename (Equiv.swap .rsp x) ∧
        g = ex.aliasedIf (inst.handsStackPointer inst.operands) x g' := by
  refine .getGlobals ?_
  rintro _ g ⟨rfl, hg⟩
  have hkept : Executor.DescribesOnly g (ex.createDirect inst g).2 :=
    ex.directOperands_kept inst inst.operands [] g
  have hg' := hg.describesOnly hkept
  obtain ⟨x, hx⟩ := hg'.exists_chosen hrenames.spares
  have hfits : Executor.AliasFits inst inst.operands x g := by
    obtain ⟨-, hne, hfree⟩ := hx.fits hg'.noAlias
    exact ⟨hg.noAlias, hne, fun hands => hkept.freeRegister_eq.symm.trans (hfree hands)⟩
  have hcreate : ex.createEncodableInstruction inst g =
      ((ex.createDirect inst g).1.rename (Equiv.swap .rsp x),
        ex.aliasedIf (inst.handsStackPointer inst.operands) x (ex.createDirect inst g).2) := by
    have hoperands :=
      @Executor.encodableOperands_eq _ ex inst hrenames.order x inst.operands false [] g hfits
    rw [List.map_nil, Executor.aliasedIf, if_neg Bool.false_ne_true, Bool.false_or] at hoperands
    rw [Executor.createEncodableInstruction, hoperands]
    rfl
  have hdirect : ex.Encodes inst (ex.createDirect inst g).1 := ⟨none, g, rfl⟩
  rw [hcreate]
  dsimp only
  rw [Executor.memory_aliasedIf]
  generalize hg₁ : (ex.createDirect inst g).2 = g₁ at hx hg' ⊢
  have hpointing (memOp : Option Nat) :
      ex.Encodes inst (Executor.relativize memOp (ex.createDirect inst g).1) := ⟨memOp, g, rfl⟩
  refine .bind (Q := fun _ _ a a' =>
    a = ex.aliasedIf (inst.handsStackPointer inst.operands) x g₁ ∧ a' = g₁)
    (.onGlobals fun _ _ _ => ⟨rfl, rfl⟩) fun _ _ => ?_
  refine .bind (.check (hrenames.encode_rename hx hdirect).symm _) fun _ _ => ?_
  refine .ite Iff.rfl (fun _ => ?_) fun _ => .pure ?_
  · have henc := hpointing (g₁.memory 0).memOp
    rw [Executor.relativize_rename]
    refine .bind (.check (hrenames.encode_rename hx henc).symm _) fun _ _ => .pure ?_
    rintro _ _ ⟨rfl, rfl⟩
    exact ⟨x, hx, hg', henc, rfl, rfl⟩
  · rintro _ _ ⟨rfl, rfl⟩
    exact ⟨x, hx, hg', hdirect, rfl, rfl⟩

omit hrenames in
/-- After a signal both runs end with its status. -/
theorem signal_together {P Q : GlobalsRel} {signal : Signal} {g g' : Globals}
    (h : signal = .none → Q g g') :
    Together t u P
      (do onGlobals fun _ => g; Executor.checkSignal signal : ExecM σ Unit)
      (do onGlobals fun _ => g'; Executor.checkSignal signal) fun _ _ => Q := by
  cases signal with
  | none => exact .bind (.onGlobals fun _ _ _ => h rfl) fun _ _ => .pure fun _ _ hq => hq
  | segv | bus | fpe | ill =>
      exact .bind (Q := fun _ _ _ _ => True) (.onGlobals fun _ _ _ => trivial) fun _ _ => .throw _

/-- The run with the alias and the direct one: the same will be written. -/
theorem run_together :
    Together t u (fun g g' => g' = g ∧ Gathered inst.readRegs g) (ex.runNative inst)
      (ex.runDirect inst) fun _ _ => WritesAlike ex fun _ d d' => d' = d := by
  refine .bind (encode_together hrenames) fun enc enc' => .getGlobals ?_
  rintro _ g ⟨x, hx, hg, henc, rfl, rfl⟩
  unfold Executor.executeNative
  by_cases havx : ex.hasAVX512 ∨ ex.hasAVX
  · rw [if_pos havx, if_pos havx]
    exact signal_together Signal.noConfusion
  · rw [if_neg havx, if_neg havx]
    have hlist {y : Gpr} := @Renames.lists _ _ _ _ hrenames _ y henc
    have hsignal := hrenames.commutes.signal (hx.renamable henc hlist) (hx.load_renamed henc hlist)
    dsimp only
    rw [hsignal]
    refine signal_together fun hgood => ?_
    exact hx.store_alike hg (hx.carried henc hlist hrenames.commutes hgood)

/-- What comes after the operands were read. -/
theorem carryOut_together (nextPC : Word) :
    Together t u (fun g g' => g' = g ∧ Gathered inst.readRegs g) (ex.carryOut inst nextPC)
      (ex.carryOutDirect inst nextPC) fun pc pc' g g' => pc' = pc ∧
        WritesAlike ex (fun _ d d' => d' = d) g g' := by
  refine .getGlobals ?_
  rintro _ g ⟨rfl, hg⟩
  cases hemulate : ex.emulate inst nextPC g with
  | emulated pc g₁ =>
      have halias : g₁.stackPtrAlias = .invalid := (ex.emulate_unaffected (fun _ _ _ => rfl)
        (fun _ _ _ => rfl) (fun _ _ => rfl) hemulate).trans hg.noAlias
      refine .bind (Q := fun _ _ => WritesAlike ex fun _ d d' => d' = d) (.onGlobals fun _ _ _ => ?_)
        fun _ _ => .pure fun _ _ h => ⟨rfl, h⟩
      exact .refl (fun _ _ => rfl) (.inl halias)
  | unsupported status => exact .throw _
  | notEmulated pc =>
      refine .bind ((run_together hrenames).pre fun _ _ h => h.1) fun _ _ => ?_
      exact .pure fun _ _ h => ⟨rfl, h⟩

end

/-- The callbacks see all the data. -/
theorem sameData_eq (ex : Executor σ) : SameData ex fun _ d d' => d' = d where
  refl _ _ := rfl
  low h := by rw [h]
  put _ _ h := by rw [h]
  writeReg _ h := by rw [h]
  writeMem _ h := by rw [h]

/-- A block that two runs start in the same world. -/
theorem Leads.same {P : Globals → Prop} {m : ExecM σ α} {Q : α → Globals → Prop} (h : Leads P m Q) :
    RelTriple (fun w v => v = w ∧ P w.globals) m m
      (fun a b w v => b = a ∧ v = w ∧ Q a w.globals) fun e f w v => f = e ∧ v = w := by
  rintro _ w ⟨rfl, hw⟩
  have hm := h w hw
  cases hr : m w with
  | ok a w' =>
      rw [hr] at hm
      exact ⟨rfl, rfl, hm⟩
  | error e w' => exact ⟨rfl, rfl⟩

/-- Two runs that ended in the same world. -/
theorem Ends.of_eq {w v : World σ} (h : v = w) : Ends [] [] w v := by
  subst h
  exact ⟨trivial, rfl, v.trace, rfl, rfl⟩

section

variable {ex : Executor σ} {implicit : EncInst → Gpr → Prop}

/-- From the registers to the end, the two runs report the same. -/
theorem perform_together {inst : Inst} (hrenames : Renames ex implicit inst) :
    RelTriple (fun w v => v = w ∧ Gathered inst.readRegs w.globals) (ex.perform inst)
      (ex.performDirect inst)
      (fun pc pc' => Abreast [] [] fun g g' => pc' = pc ∧ WritesAlike ex (fun _ d d' => d' = d) g g')
      fun e f w v => f = e ∧ Ends [] [] w v := by
  have hsame {w v : World σ} (h : v = w ∧ Gathered inst.readRegs w.globals) :
      Abreast [] [] (fun g g' => g' = g ∧ Gathered inst.readRegs g) w v := by
    obtain ⟨rfl, hg⟩ := h
    exact ⟨⟨rfl, hg⟩, rfl, v.trace, rfl, rfl⟩
  rintro _ w ⟨rfl, hg⟩
  suffices hblocks : RelTriple (fun w v => v = w ∧ Gathered inst.readRegs w.globals)
      (if Executor.isNop inst then pure (ex.getNextPC inst w.globals) else do
        ex.readOperands inst
        let nextPC ← ex.carryOut inst (ex.getNextPC inst w.globals)
        ex.writeOperands
        pure nextPC)
      (if Executor.isNop inst then pure (ex.getNextPC inst w.globals) else do
        ex.readOperands inst
        let nextPC ← ex.carryOutDirect inst (ex.getNextPC inst w.globals)
        ex.writeOperands
        pure nextPC)
      (fun pc pc' => Abreast [] [] fun g g' => pc' = pc ∧ WritesAlike ex (fun _ d d' => d' = d) g g')
      fun e f w v => f = e ∧ Ends [] [] w v from hblocks w w ⟨rfl, hg⟩
  refine RelTriple.ite Iff.rfl (fun _ => ?_) fun _ => ?_
  · refine RelTriple.pure fun w v h => (hsame h).mono fun g g' hg => ⟨rfl, ?_⟩
    rw [hg.1]
    exact .refl (fun _ _ => rfl) (.inl hg.2.noAlias)
  · refine RelTriple.bind ((ex.readOperands_gathered inst).same.conseq (fun _ _ h => h)
      (fun _ _ _ _ h => hsame h.2) fun _ _ _ _ h => ⟨h.1, .of_eq h.2⟩) fun _ _ => ?_
    refine Together.bind (carryOut_together hrenames _) fun pc pc' => ?_
    refine .of_fact fun hpc => .bind (writeOperands_together (sameData_eq ex)) fun _ _ => ?_
    exact .pure fun _ _ h => ⟨hpc, h⟩

/-- What is assumed of XED and of the processor. -/
structure RenamesStackPointer (ex : Executor σ) (implicit : EncInst → Gpr → Prop) : Prop where
  order : ex.xed.SameOrder
  commutes : CommutesWithRenaming ex.cpu implicit
  lists : ListsImplicit ex implicit
  encodes : EncodesAliases ex implicit

theorem RenamesStackPointer.renames (h : RenamesStackPointer ex implicit) {bytes : List Byte}
    {inst : Inst} (hdecode : ex.xed.decode ex.addrSize bytes = some inst)
    (happlies : AliasApplies ex implicit inst) : Renames ex implicit inst where
  order := h.order
  commutes := h.commutes
  lists henc himplicit := by
    refine ⟨h.lists _ _ _ _ hdecode henc himplicit, ?_⟩
    rintro rfl
    exact happlies.explicit henc himplicit
  encodes henc := h.encodes _ _ _ _ hdecode henc
  spares := happlies.spares

/-- The two executors end alike, with the registers, flags, memory and FPU reported the same. -/
def SameReport : EStateM.Result ExecutorStatus (World σ) Unit →
    EStateM.Result ExecutorStatus (World σ) Unit → Prop :=
  RelMeets (fun _ _ w v => v.env = w.env ∧ v.trace = w.trace)
    fun status status' w v => status' = status ∧ v.env = w.env ∧ v.trace = w.trace

/-- **The alias preserves the meaning of an instruction**: the executor that hands the instruction
to the processor as it is makes the same callbacks, writes of registers among them, and ends the
same way. -/
theorem execute_sameReport (h : RenamesStackPointer ex implicit) (w : World σ)
    (happlies : ∀ inst w₁, ex.fetch w = .ok inst w₁ → AliasApplies ex implicit inst) :
    SameReport (ex.execute 1 w) (ex.executeDirect w) := by
  have hends {w' v' : World σ} (hw : Ends [] [] w' v') : v'.env = w'.env ∧ v'.trace = w'.trace := by
    obtain ⟨calls, hw', hv'⟩ := hw.trace
    exact ⟨hw.env, hv'.trans hw'.symm⟩
  cases hinit : ex.isInitialized with
  | false =>
      rw [Executor.execute_of_not_initialized hinit one_ne_zero, Executor.executeDirect, hinit]
      exact ⟨rfl, rfl, rfl⟩
  | true =>
      have hdirect : ex.executeDirect w = (do
          let inst ← ex.fetch
          ex.readState inst
          let nextPC ← ex.performDirect inst
          ex.commit nextPC) w := by
        rw [Executor.executeDirect, hinit]
        rfl
      rw [Executor.execute_one hinit, Executor.executeInstruction, hdirect]
      have hfetch := ex.fetch_gathered w trivial
      cases hf : ex.fetch w with
      | error e w₁ =>
          rw [run_bind_error hf, run_bind_error hf]
          exact ⟨rfl, rfl, rfl⟩
      | ok inst w₁ =>
          rw [hf] at hfetch
          obtain ⟨hg, bytes, hdecode⟩ := hfetch
          rw [run_bind_ok hf, run_bind_ok hf]
          have hperform := perform_together (h.renames hdecode (happlies inst w₁ hf))
          refine RelTriple.bind ((ex.readState_gathered inst).same.conseq (fun _ _ h => h)
            (fun _ _ _ _ h => h.2) fun _ _ _ _ h => ⟨h.1, hends (.of_eq h.2)⟩) (fun _ _ => ?_)
            w₁ w₁ ⟨rfl, hg⟩
          have hlast : RelTriple (fun w v => v = w ∧ Gathered inst.readRegs w.globals)
              (ex.perform inst >>= ex.commit) (ex.performDirect inst >>= ex.commit)
              (fun _ _ => Ends [] []) fun e f w v => f = e ∧ Ends [] [] w v := by
            refine RelTriple.bind hperform fun pc pc' => Together.of_fact ?_
            rintro rfl
            refine (commit_together (sameData_eq ex) pc' pc').pre fun _ _ h => ⟨h, ?_⟩
            rintro r _ _ d _ rfl
            rfl
          exact hlast.conseq (fun _ _ h => h) (fun _ _ _ _ h => hends h) fun _ _ _ _ h => ⟨h.1, hends h.2⟩

end

/-! ### a sample -/

namespace EncInst

/-- The general-purpose register of the first operand. -/
def target (enc : EncInst) : Option Gpr :=
  match enc.operands.head? with
  | some (.reg (.gpr64 x) _) => some x
  | _ => none

theorem target_rename (π : Equiv.Perm Gpr) (enc : EncInst) :
    (enc.rename π).target = enc.target.map π := by
  unfold target rename
  cases enc.operands with
  | nil => rfl
  | cons op ops =>
      cases op with
      | reg r n => cases r <;> rfl
      | _ => rfl

theorem names_target {enc : EncInst} {x : Gpr} (h : enc.target = some x) : enc.Names x := by
  unfold target at h
  split at h
  case h_1 y n hhead =>
    cases h
    exact ⟨_, n, List.mem_of_mem_head? hhead, rfl⟩
  · cases h

end EncInst

/-- A processor that increments the first operand. -/
def incrementing : Cpu where
  native enc s := (.none, match enc.target with
    | some x => { s with gpr := Function.update s.gpr x (s.gpr x + 1) }
    | none => s)
  stackPointer := 0
  fpu := 0

theorem incrementing_commutes : CommutesWithRenaming incrementing fun _ _ => False where
  same_implicit _ h := h
  signal _ _ := rfl
  native := by
    intro enc π s t _ h _
    unfold incrementing
    dsimp only
    rw [EncInst.target_rename]
    cases htarget : enc.target with
    | none => exact h
    | some x =>
        have hx := h.gpr x (.inl (EncInst.names_target htarget))
        refine ⟨fun y huses => ?_, h.xmm, h.rflags, h.cell, h.fpu⟩
        dsimp only [Option.map_some]
        by_cases hyx : y = x
        · rw [hyx, Function.update_self, Function.update_self, hx]
        · rw [Function.update_of_ne hyx, Function.update_of_ne fun heq => hyx (π.injective heq), h.gpr y huses]
  kept := by
    intro enc s x huses _
    unfold incrementing
    dsimp only
    split
    case h_1 y htarget =>
      refine Function.update_of_ne ?_ _ _
      rintro rfl
      exact huses (.inl (EncInst.names_target htarget))
    · rfl

/-- `INC RSP`. -/
def incRsp : Inst :=
  .scalar (.other 0) 3 64 [⟨.reg .reg0, true, true, false, .explicit⟩]
    (fun r => if r = .reg0 then .gpr64 .rsp else .invalid) (fun _ => .none) 0

/-- A machine with a stack pointer of its own. -/
def incMachine : FlatMachine where
  xed := Xed.ofDecoder (fun _ _ => some incRsp) fun _ => true
  cpu := incrementing
  addrSize := .x64
  hasAVX := false
  hasAVX512 := false

/-- The stack pointer after a run. -/
def rspAfter (r : EStateM.Result ExecutorStatus (World (Flat incMachine.width)) Unit) :
    Option (BitVec 64) :=
  match r with
  | .ok _ w => some (incMachine.gpr w.env .rsp)
  | .error _ _ => none

theorem incMachine_renames :
    RenamesStackPointer incMachine.executor fun _ _ => False where
  order := by
    intro r hr x
    simp only [List.mem_cons, List.not_mem_nil, or_false] at hr
    obtain rfl | rfl | rfl := hr <;> cases x <;> decide +kernel
  commutes := incrementing_commutes
  lists _ _ _ _ _ _ h := h.elim
  encodes _ _ _ _ _ _ _ _ _ := rfl

theorem incMachine_applies (inst : Inst) (w w₁ : World (Flat incMachine.width))
    (h : incMachine.executor.fetch w = .ok inst w₁) :
    AliasApplies incMachine.executor (fun _ _ => False) inst := by
  have hinst : inst = incRsp := by
    have hf := incMachine.executor.fetch_gathered w trivial
    rw [h] at hf
    obtain ⟨-, bytes, hdecode⟩ := hf
    exact (Option.some.inj hdecode).symm
  rw [hinst]
  refine ⟨fun _ h => h, fun _ => ⟨.rax, .head _, ?_⟩⟩
  rintro ⟨r, hr, hstored⟩
  have hregs : incRsp.readRegs = [.gpr64 .rsp] := by decide
  rw [hregs, List.mem_singleton] at hr
  rw [hr] at hstored
  cases hstored

/-- The stack pointer of the environment is incremented, by way of `RAX`. -/
theorem execute_sameReport_incRsp :
    rspAfter (incMachine.executor.execute 1 incMachine.zeroStart) = some 1 ∧
      SameReport (incMachine.executor.execute 1 incMachine.zeroStart)
        (incMachine.executor.executeDirect incMachine.zeroStart) := by
  have hrsp : rspAfter (incMachine.executor.execute 1 incMachine.zeroStart) = some 1 := by
    decide +kernel
  have hrenames := incMachine_renames
  have happlies := incMachine_applies
  generalize incMachine.zeroStart = w at hrsp ⊢
  generalize incMachine.executor = ex at hrsp hrenames happlies ⊢
  exact ⟨hrsp, execute_sameReport hrenames w fun inst => happlies inst w⟩

end Microx
