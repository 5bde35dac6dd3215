import Microx.Executor.Traffic

/-!
# Microx.Executor.SideBySide

Two runs of an instruction in one environment, from different globals.

The runs make the same callbacks as long as what they pass to them agrees.
What has to agree for the writing half is `WritesAlike`; data agree by a
relation that the callbacks do not see through (`SameData`), which may be
equality, or equality of the bytes that a callback looks at.
-/

namespace Microx

open Hoare

variable {σ α β : Type}

/-! ## two worlds -/

/-- A relation between the globals of two runs. -/
abbrev GlobalsRel := Globals → Globals → Prop

/-- Two worlds with one environment where the same callbacks were made after two pasts. -/
structure Abreast (t u : List Event) (P : GlobalsRel) (w v : World σ) : Prop where
  globals : P w.globals v.globals
  env : v.env = w.env
  trace : ∃ calls, w.trace = t ++ calls ∧ v.trace = u ++ calls

/-- Two runs that ended alike, with nothing known of the globals. -/
abbrev Ends (t u : List Event) : World σ → World σ → Prop := Abreast t u fun _ _ => True

/-- Two blocks that make the same callbacks and end the same way. -/
def Together (t u : List Event) (P : GlobalsRel) (m m' : ExecM σ α) (Q : α → α → GlobalsRel) : Prop :=
  RelTriple (Abreast t u P) m m' (fun a b => Abreast t u (Q a b)) fun e f w v => f = e ∧ Ends t u w v

theorem Abreast.mono {t u : List Event} {P Q : GlobalsRel} {w v : World σ} (h : Abreast t u P w v)
    (hq : ∀ g g', P g g' → Q g g') : Abreast t u Q w v :=
  ⟨hq _ _ h.globals, h.env, h.trace⟩

/-- A callback that both runs make. -/
theorem Abreast.called {t u : List Event} {P : GlobalsRel} {w v : World σ} (h : Abreast t u P w v)
    (env : σ) (e : Event) : Abreast t u P (w.called env e) (v.called env e) := by
  obtain ⟨calls, ht, hu⟩ := h.trace
  refine ⟨h.globals, rfl, calls ++ [e], ?_, ?_⟩
  · rw [World.called, ht, List.append_assoc]
  · rw [World.called, hu, List.append_assoc]

namespace Together

variable {t u : List Event} {P P' : GlobalsRel} {Q Q' : α → α → GlobalsRel} {R : β → β → GlobalsRel}
  {m m' : ExecM σ α}

theorem bind {f f' : α → ExecM σ β} (hm : Together t u P m m' Q)
    (hf : ∀ a b, Together t u (Q a b) (f a) (f' b) R) : Together t u P (m >>= f) (m' >>= f') R :=
  RelTriple.bind hm hf

theorem conseq (h : Together t u P m m' Q) (hp : ∀ g g', P' g g' → P g g')
    (hq : ∀ a b g g', Q a b g g' → Q' a b g g') : Together t u P' m m' Q' :=
  RelTriple.conseq h (fun _ _ hw => hw.mono hp) (fun a b _ _ hw => hw.mono (hq a b))
    fun _ _ _ _ he => he

theorem pre (h : Together t u P m m' Q) (hp : ∀ g g', P' g g' → P g g') :
    Together t u P' m m' Q :=
  h.conseq hp fun _ _ _ _ hq => hq

theorem post (h : Together t u P m m' Q) (hq : ∀ a b g g', Q a b g g' → Q' a b g g') :
    Together t u P m m' Q' :=
  h.conseq (fun _ _ hp => hp) hq

/-- What is known of the results of a block before is known throughout. -/
theorem of_fact {p : Prop} (h : p → Together t u P m m' Q) :
    Together t u (fun g g' => p ∧ P g g') m m' Q :=
  fun w v hw => h hw.globals.1 w v (hw.mono fun _ _ h => h.2)

theorem pure {a b : α} (h : ∀ g g', P g g' → Q a b g g') :
    Together t u P (Pure.pure a : ExecM σ α) (Pure.pure b) Q :=
  RelTriple.pure fun _ _ hw => hw.mono h

theorem throw (status : ExecutorStatus) :
    Together t u P (MonadExcept.throw status : ExecM σ α) (MonadExcept.throw status) Q :=
  RelTriple.throw fun _ _ hw => ⟨rfl, hw.mono fun _ _ _ => trivial⟩

theorem check {ok ok' : Bool} (h : ok' = ok) (status : ExecutorStatus) :
    Together t u P (Executor.check ok status : ExecM σ Unit) (Executor.check ok' status)
      fun _ _ => P := by
  subst h
  cases ok' with
  | true => exact pure fun _ _ hp => hp
  | false => exact throw status

theorem onGlobals {f f' : Globals → Globals} {Q : GlobalsRel} (h : ∀ g g', P g g' → Q (f g) (f' g')) :
    Together t u P (Microx.onGlobals f : ExecM σ Unit) (Microx.onGlobals f') fun _ _ => Q :=
  RelTriple.modify fun _ _ hw => ⟨h _ _ hw.globals, hw.env, hw.trace⟩

theorem getGlobals {f f' : Globals → ExecM σ β}
    (h : ∀ g g', P g g' → Together t u (fun a b => P a b ∧ a = g ∧ b = g') (f g) (f' g') R) :
    Together t u P (Microx.getGlobals >>= f) (Microx.getGlobals >>= f') R :=
  fun w v hw => h w.globals v.globals hw.globals w v ⟨⟨hw.globals, rfl, rfl⟩, hw.env, hw.trace⟩

/-- Reading the globals, where what is read is all the same to the rest of the block. -/
theorem readGlobals {f f' : Globals → ExecM σ β}
    (h : ∀ g g', P g g' → Together t u P (f g) (f' g') R) :
    Together t u P (Microx.getGlobals >>= f) (Microx.getGlobals >>= f') R :=
  getGlobals fun g g' hg => (h g g' hg).pre fun _ _ hp => hp.1

theorem ite {c d : Prop} [Decidable c] [Decidable d] {n n' : ExecM σ α} (hcd : c ↔ d)
    (ht : c → Together t u P m m' Q) (hf : ¬c → Together t u P n n' Q) :
    Together t u P (if c then m else n) (if d then m' else n') Q :=
  RelTriple.ite hcd ht hf

theorem forM {l : List α} {f f' : α → ExecM σ PUnit}
    (h : ∀ a ∈ l, Together t u P (f a) (f' a) fun _ _ => P) :
    Together t u P (l.forM f) (l.forM f') fun _ _ => P :=
  RelTriple.forM h

end Together

/-! ## callbacks -/

section

variable (ex : Executor σ) {t u : List Event} {P : GlobalsRel}

/-- Data that a callback for writing does not tell apart. -/
theorem callWriteReg_together (name : RegName) (size : Nat) {data data' : Data}
    (hlow : Bits.low size data' = Bits.low size data)
    (hsame : ex.writeReg name size data' = ex.writeReg name size data) :
    Together t u P (ex.callWriteReg name size data) (ex.callWriteReg name size data')
      fun a b g g' => b = a ∧ P g g' := by
  intro w v hw
  have hcalled := hw.called (ex.writeReg name size data w.env).2
    (.writeReg name size (Bits.low size data) (ex.writeReg name size data w.env).1)
  unfold Executor.callWriteReg
  rw [hw.env, hsame, hlow]
  exact ⟨⟨rfl, hcalled.globals⟩, hcalled.env, hcalled.trace⟩

theorem callWriteMem_together (addr : Word) (size : Nat) {data data' : Data}
    (hlow : Bits.low size data' = Bits.low size data)
    (hsame : ex.writeMem addr size data' = ex.writeMem addr size data) :
    Together t u P (ex.callWriteMem addr size data) (ex.callWriteMem addr size data')
      fun a b g g' => b = a ∧ P g g' := by
  intro w v hw
  have hcalled := hw.called (ex.writeMem addr size data w.env).2
    (.writeMem addr size (Bits.low size data) (ex.writeMem addr size data w.env).1)
  unfold Executor.callWriteMem
  rw [hw.env, hsame, hlow]
  exact ⟨⟨rfl, hcalled.globals⟩, hcalled.env, hcalled.trace⟩

theorem callWriteFPU_together (fpu : FPU) :
    Together t u P (ex.callWriteFPU fpu) (ex.callWriteFPU fpu) fun a b g g' => b = a ∧ P g g' := by
  intro w v hw
  have hcalled := hw.called (ex.writeFPU fpu w.env).2 (.writeFPU fpu (ex.writeFPU fpu w.env).1)
  unfold Executor.callWriteFPU
  rw [hw.env]
  exact ⟨⟨rfl, hcalled.globals⟩, hcalled.env, hcalled.trace⟩

/-- The check after a callback that both runs made. -/
theorem check_together {ok ok' : Bool} (status : ExecutorStatus) :
    Together t u (fun g g' => ok' = ok ∧ P g g') (Executor.check ok status : ExecM σ Unit)
      (Executor.check ok' status) fun _ _ => P := by
  intro w v hw
  exact Together.check hw.globals.1 status w v (hw.mono fun _ _ h => h.2)

end

/-! ## what is written -/

/-- Data of a size that the callbacks for writing do not tell apart. -/
structure SameData (ex : Executor σ) (same : Nat → Data → Data → Prop) : Prop where
  refl : ∀ n d, same n d d
  low : ∀ {n d d'}, same n d d' → Bits.low n d' = Bits.low n d
  put : ∀ {n d d' v} (k : Nat) (x : BitVec v), same n d d' →
    same n (Bits.put 0 k d x) (Bits.put 0 k d' x)
  writeReg : ∀ {n d d'} (name : RegName), same n d d' → ex.writeReg name n d' = ex.writeReg name n d
  writeMem : ∀ {n d d'} (addr : Word), same n d d' → ex.writeMem addr n d' = ex.writeMem addr n d

/-- The alias of the stack pointer is a general-purpose register, if there is one. -/
def Globals.AliasesGpr (g : Globals) : Prop :=
  g.stackPtrAlias = .invalid ∨ ∃ x, g.stackPtrAlias = .gpr64 x

/-- What is in a register when its value is written back. -/
def Executor.finalReg (ex : Executor σ) (g : Globals) (reg : Reg) : Data :=
  (ex.dropAlias g).regs reg.largestEnclosing

/-- Globals of which the same will be written. -/
structure WritesAlike (ex : Executor σ) (same : Nat → Data → Data → Prop) (g g' : Globals) :
    Prop where
  usedRegs : g'.usedRegs = g.usedRegs
  modifiedRegs : g'.modifiedRegs = g.modifiedRegs
  writeBackFlags : g'.writeBackFlags = g.writeBackFlags
  usesFPU : g'.usesFPU = g.usesFPU
  usesMMX : g'.usesMMX = g.usesMMX
  fpu : g.usesFPU = true ∨ g.usesMMX = true → g'.fpu = g.fpu
  present : ∀ i, (g'.memory i).present = (g.memory i).present
  place : ∀ i, (g.memory i).present = true → (g'.memory i).place = (g.memory i).place
  data : ∀ i, (g.memory i).present = true →
    same (g.memory i).size (g.memory i).data (g'.memory i).data
  flag : ∀ f, Flag.get f g.writeBackFlags = true → Flag.get f g'.aflag = Flag.get f g.aflag
  aliases : g.AliasesGpr ∧ g'.AliasesGpr
  reg : ∀ r, g.usedRegs r = true → r ≠ ex.flagsReg →
    same (ex.width r) (ex.finalReg g r) (ex.finalReg g' r)

namespace Executor

variable (ex : Executor σ)

theorem regs_dropAlias (g : Globals) : (ex.dropAlias g).regs =
    if g.stackPtrAlias = .invalid then g.regs
    else Function.update g.regs (.gpr64 .rsp)
      (Bits.put 0 64 (g.regs (.gpr64 .rsp)) (ex.readGPR g.stackPtrAlias g)) := by
  unfold dropAlias
  by_cases h : g.stackPtrAlias = .invalid
  · rw [if_neg (not_not.mpr h), if_pos h]
  · rw [if_pos h, if_neg h]
    rfl

/-- Dropping the alias changes the stack pointer only. -/
theorem dropAlias_eq (g : Globals) :
    ex.dropAlias g = { g with regs := (ex.dropAlias g).regs, stackPtrAlias := .invalid } := by
  by_cases h : g.stackPtrAlias = .invalid
  · have hsame : ex.dropAlias g = g := if_neg (not_not.mpr h)
    rw [hsame]
    cases g
    cases h
    rfl
  · rw [dropAlias, if_pos h]
    rfl

theorem regs_dropAlias_congr {g g' : Globals} (hregs : g'.regs = g.regs)
    (halias : g'.stackPtrAlias = g.stackPtrAlias) :
    (ex.dropAlias g').regs = (ex.dropAlias g).regs := by
  have hread : ex.readGPR g.stackPtrAlias g' = ex.readGPR g.stackPtrAlias g := by
    simp only [readGPR, Globals.readGPR, Globals.readValue, hregs]
  rw [regs_dropAlias, regs_dropAlias, hregs, halias, hread]

/-- A register that is not general-purpose has nothing to do with the alias. -/
theorem regs_dropAlias_of_ne {g : Globals} {r : Reg} (hr : ∀ x, r ≠ .gpr64 x) :
    (ex.dropAlias g).regs r = g.regs r := by
  rw [regs_dropAlias]
  split
  · rfl
  · exact Function.update_of_ne (hr .rsp) _ _

/-- Writing a register that is not general-purpose, and dropping the alias. -/
theorem finalReg_setReg {g : Globals} (hg : g.AliasesGpr) {r : Reg} (hr : ∀ x, r ≠ .gpr64 x)
    (data : Data) (reg : Reg) : ex.finalReg (g.setReg r data) reg =
      if reg.largestEnclosing = r then data else ex.finalReg g reg := by
  have hread {x : Gpr} : ex.readGPR (.gpr64 x) (g.setReg r data) = ex.readGPR (.gpr64 x) g := by
    have hne : Reg.gpr64 x ≠ r := (hr x).symm
    simp [readGPR, Globals.readGPR, Globals.readValue, Globals.regs_setReg, Reg.isGPR8h, width,
      Reg.widthBits64, Reg.largestEnclosing, Function.update_of_ne hne]
  have hdrop : (ex.dropAlias (g.setReg r data)).regs =
      Function.update (ex.dropAlias g).regs r data := by
    have hsame : (g.setReg r data).stackPtrAlias = g.stackPtrAlias := rfl
    rw [regs_dropAlias, regs_dropAlias, hsame, Globals.regs_setReg]
    obtain halias | ⟨x, halias⟩ := hg
    · rw [if_pos halias, if_pos halias]
    · have hvalid : g.stackPtrAlias ≠ .invalid := by simp [halias]
      have hne : Reg.gpr64 .rsp ≠ r := (hr .rsp).symm
      rw [if_neg hvalid, if_neg hvalid, halias, hread, Function.update_of_ne hne,
        Function.update_comm hne]
  unfold finalReg
  rw [hdrop, Function.update_apply]

theorem dropAlias_dropAlias (g : Globals) : ex.dropAlias (ex.dropAlias g) = ex.dropAlias g := by
  have hnone : (ex.dropAlias g).stackPtrAlias = .invalid := by
    unfold dropAlias
    split
    · rfl
    case isFalse h => exact not_not.mp h
  conv_lhs => rw [dropAlias, if_neg (not_not.mpr hnone)]

end Executor

namespace WritesAlike

variable {ex : Executor σ} {same : Nat → Data → Data → Prop} {g g' : Globals}

theorem refl (hsame : ∀ n d, same n d d) (hg : g.AliasesGpr) : WritesAlike ex same g g where
  usedRegs := rfl
  modifiedRegs := rfl
  writeBackFlags := rfl
  usesFPU := rfl
  usesMMX := rfl
  fpu _ := rfl
  present _ := rfl
  place _ _ := rfl
  data _ _ := hsame _ _
  flag _ _ := rfl
  aliases := ⟨hg, hg⟩
  reg _ _ _ := hsame _ _

/-- The same happens to a register that is neither general-purpose nor the flags. -/
theorem setReg (h : WritesAlike ex same g g') {r : Reg} (hr : ∀ x, r ≠ .gpr64 x) (hflags : r ≠ .rflags)
    {data data' : Data} (hdata : ∀ r', g.usedRegs r' = true → r'.largestEnclosing = r →
      same (ex.width r') data data') :
    WritesAlike ex same (g.setReg r data) (g'.setReg r data') := by
  have haflag (g : Globals) (data : Data) : (g.setReg r data).aflag = g.aflag := by
    simp [Globals.aflag, Globals.regs_setReg, Function.update_of_ne hflags.symm]
  refine { h with flag := fun f hf => ?_, aliases := h.aliases, reg := fun r' hused hne => ?_ }
  · rw [haflag, haflag]
    exact h.flag f hf
  · rw [ex.finalReg_setReg h.aliases.1 hr, ex.finalReg_setReg h.aliases.2 hr]
    by_cases heq : r'.largestEnclosing = r
    · rw [if_pos heq, if_pos heq]
      exact hdata r' hused heq
    · rw [if_neg heq, if_neg heq]
      exact h.reg r' hused hne

theorem forgetFlags (h : WritesAlike ex same g g') :
    WritesAlike ex same (ex.forgetFlags g) (ex.forgetFlags g') := by
  have hregs (g : Globals) : (ex.dropAlias (ex.forgetFlags g)).regs = (ex.dropAlias g).regs :=
    ex.regs_dropAlias_congr rfl rfl
  refine
    { h with
      usedRegs := ?_
      modifiedRegs := ?_
      aliases := h.aliases
      reg := fun r hused hne => ?_ }
  · simp only [Executor.forgetFlags, h.usedRegs]
  · simp only [Executor.forgetFlags, h.modifiedRegs]
  · unfold Executor.finalReg
    rw [hregs, hregs]
    refine h.reg r ?_ hne
    simp only [Executor.forgetFlags, Function.update_apply] at hused
    split at hused
    · cases hused
    · exact hused

/-- With the flags written, none is left to write. -/
theorem doneFlags (h : WritesAlike ex same g g') :
    WritesAlike ex same { g with writeBackFlags := 0 } { g' with writeBackFlags := 0 } := by
  have hregs (g : Globals) :
      (ex.dropAlias { g with writeBackFlags := 0 }).regs = (ex.dropAlias g).regs :=
    ex.regs_dropAlias_congr rfl rfl
  refine
    { h with
      writeBackFlags := rfl
      flag := fun f hf => by simp [Flag.get] at hf
      aliases := h.aliases
      reg := fun r hused hne => ?_ }
  unfold Executor.finalReg
  rw [hregs, hregs]
  exact h.reg r hused hne

theorem dropAlias (h : WritesAlike ex same g g') :
    WritesAlike ex same (ex.dropAlias g) (ex.dropAlias g') := by
  have hfields (g : Globals) := ex.dropAlias_eq g
  have hflags (g : Globals) : (ex.dropAlias g).aflag = g.aflag := by
    rw [Globals.aflag, ex.regs_dropAlias_of_ne (fun _ => Reg.noConfusion), Globals.aflag]
  have haliases (g : Globals) : (ex.dropAlias g).AliasesGpr := .inl (by rw [ex.dropAlias_eq])
  have hreg (r : Reg) (g : Globals) : ex.finalReg (ex.dropAlias g) r = ex.finalReg g r := by
    rw [Executor.finalReg, ex.dropAlias_dropAlias, Executor.finalReg]
  constructor
  case flag => intro f; rw [hflags, hflags, hfields]; exact h.flag f
  case aliases => exact ⟨haliases g, haliases g'⟩
  case reg => intro r hused; rw [hreg, hreg]; rw [hfields] at hused; exact h.reg r hused
  case usedRegs => rw [hfields g, hfields g']; exact h.usedRegs
  case modifiedRegs => rw [hfields g, hfields g']; exact h.modifiedRegs
  case writeBackFlags => rw [hfields g, hfields g']; exact h.writeBackFlags
  case usesFPU => rw [hfields g, hfields g']; exact h.usesFPU
  case usesMMX => rw [hfields g, hfields g']; exact h.usesMMX
  case fpu => rw [hfields g, hfields g']; exact h.fpu
  case present => rw [hfields g, hfields g']; exact h.present
  case place => rw [hfields g, hfields g']; exact h.place
  case data => rw [hfields g, hfields g']; exact h.data

end WritesAlike

/-! ## the writing half -/

theorem Executor.largestEnclosing_flagsReg (ex : Executor σ) :
    ex.flagsReg.largestEnclosing = .rflags := by
  unfold flagsReg widestRegister
  cases ex.addrSize <;> cases ex.hasAVX <;> cases ex.hasAVX512 <;> rfl

/-- After which the next program counter is written alike. -/
def NextPCAlike (ex : Executor σ) (same : Nat → Data → Data → Prop) (nextPC nextPC' : Word)
    (g : Globals) : Prop :=
  ∀ r, g.usedRegs r = true → r.largestEnclosing = .rip → ∀ d d', same (ex.width r) d d' →
    same (ex.width r) (Bits.put 0 64 d nextPC) (Bits.put 0 64 d' nextPC')

section

variable {ex : Executor σ} {same : Nat → Data → Data → Prop} {t u : List Event}

theorem writeCell_together (hs : SameData ex same) (i : Fin 2) :
    Together t u (WritesAlike ex same) (ex.writeCell i) (ex.writeCell i)
      fun _ _ => WritesAlike ex same := by
  refine .readGlobals fun g g' hg => ?_
  cases hp : (g.memory i).present with
  | false =>
      have hp' := (hg.present i).trans hp
      simp only [hp, hp', Bool.not_false, Bool.true_or, if_true]
      exact .pure fun _ _ h => h
  | true =>
      have hp' := (hg.present i).trans hp
      have hplace := hg.place i hp
      have hwb : (g'.memory i).writeBack = (g.memory i).writeBack := congrArg Place.writeBack hplace
      have haddr : (g'.memory i).address = (g.memory i).address := congrArg Place.address hplace
      have hsize : (g'.memory i).size = (g.memory i).size := congrArg Place.size hplace
      have hdata := hg.data i hp
      simp only [hp, hp', hwb, haddr, hsize, Bool.not_true, Bool.false_or]
      refine .ite Iff.rfl (fun _ => .pure fun _ _ h => h) fun _ => ?_
      refine (callWriteMem_together ex _ _ (hs.low hdata) (hs.writeMem _ hdata)).bind fun ok ok' => ?_
      exact check_together _

theorem writeFPUState_together : Together t u (WritesAlike ex same) ex.writeFPUState
    ex.writeFPUState fun _ _ => WritesAlike ex same := by
  refine .readGlobals fun g g' hg => ?_
  refine .ite (by rw [hg.usesFPU]) (fun hfpu => ?_) fun _ => .pure fun _ _ h => h
  rw [hg.fpu (.inl hfpu)]
  exact (callWriteFPU_together ex g.fpu).bind fun ok ok' => check_together _

/-- The MMX registers come out of the same FPU state. -/
theorem copyMMXStateFromFPU_alike (hs : SameData ex same) {g g' : Globals}
    (hg : WritesAlike ex same g g') : WritesAlike ex same
      (Executor.whenMMX Executor.copyMMXStateFromFPU g)
      (Executor.whenMMX Executor.copyMMXStateFromFPU g') := by
  have hone (i : Fin 8) {g g' : Globals} (hg : WritesAlike ex same g g' ∧ g'.fpu = g.fpu) :
      WritesAlike ex same (Executor.copyToMMX g i) (Executor.copyToMMX g' i) ∧
        (Executor.copyToMMX g' i).fpu = (Executor.copyToMMX g i).fpu := by
    unfold Executor.copyToMMX
    rw [hg.1.usedRegs, hg.2]
    cases hused : g.usedRegs (.mmx i) with
    | false => exact hg
    | true =>
        refine ⟨hg.1.setReg (fun _ => Reg.noConfusion) Reg.noConfusion fun r hr heq => ?_, hg.2⟩
        have hne : r ≠ ex.flagsReg := by
          rintro rfl
          rw [ex.largestEnclosing_flagsReg] at heq
          cases heq
        have hsame := hg.1.reg r hr hne
        rw [Executor.finalReg, Executor.finalReg, heq, ex.regs_dropAlias_of_ne fun _ => Reg.noConfusion,
          ex.regs_dropAlias_of_ne fun _ => Reg.noConfusion] at hsame
        exact hs.put 64 _ hsame
  have hall (l : List (Fin 8)) : ∀ {g g' : Globals}, WritesAlike ex same g g' ∧ g'.fpu = g.fpu →
      WritesAlike ex same (l.foldl Executor.copyToMMX g) (l.foldl Executor.copyToMMX g') := by
    induction l with
    | nil => exact fun h => h.1
    | cons i l ih => exact fun h => ih (hone i h)
  unfold Executor.whenMMX Executor.copyMMXStateFromFPU
  generalize List.finRange 8 = l
  rw [hg.usesMMX]
  split
  case isTrue hmmx => exact hall l ⟨hg, hg.fpu (.inr hmmx)⟩
  · exact hg

theorem writeOperands_together (hs : SameData ex same) :
    Together t u (WritesAlike ex same) ex.writeOperands ex.writeOperands
      fun _ _ => WritesAlike ex same := by
  refine .bind (.bind (writeCell_together hs 0) fun _ _ => writeCell_together hs 1) fun _ _ => ?_
  refine writeFPUState_together.bind fun _ _ => .onGlobals fun _ _ hg => ?_
  exact copyMMXStateFromFPU_alike hs hg

end

section

variable {ex : Executor σ} {same : Nat → Data → Data → Prop} {t u : List Event}
  (hs : SameData ex same)

include hs

omit hs in
theorem writeFlags_together {nextPC nextPC' : Word} :
    Together t u (fun g g' => WritesAlike ex same g g' ∧ NextPCAlike ex same nextPC nextPC' g)
      ex.writeFlags ex.writeFlags fun _ _ g g' => (WritesAlike ex same g g' ∧
        NextPCAlike ex same nextPC nextPC' g) ∧ g.modifiedRegs ex.flagsReg = false := by
  refine .getGlobals fun g g' hg => ?_
  refine .ite (by rw [hg.1.modifiedRegs]) (fun _ => ?_) fun hmodified => .pure ?_
  · -- The flags are no longer to be written as a register.
    refine .bind (Q := fun _ _ g g' => (WritesAlike ex same g g' ∧
      NextPCAlike ex same nextPC nextPC' g) ∧ g.modifiedRegs ex.flagsReg = false)
      (.onGlobals fun a a' h => ?_) fun _ _ => ?_
    · obtain ⟨⟨halike, hpc⟩, -, -⟩ := h
      refine ⟨⟨halike.forgetFlags, fun r hused => hpc r ?_⟩, ?_⟩
      · simp only [Executor.forgetFlags, Function.update_apply] at hused
        split at hused
        · cases hused
        · exact hused
      · exact Function.update_self _ _ _
    · refine .bind (.forM fun f _ => .readGlobals fun a a' h => ?_) fun _ _ => ?_
      · refine .ite (by rw [h.1.1.writeBackFlags]) (fun hf => ?_) fun _ => .pure fun _ _ h => h
        rw [h.1.1.flag f hf]
        exact (callWriteReg_together ex _ _ rfl rfl).bind fun ok ok' => check_together _
      · exact .onGlobals fun a a' h => ⟨⟨h.1.1.doneFlags, h.1.2⟩, h.2⟩
  · rintro a a' ⟨halike, rfl, rfl⟩
    exact ⟨halike, Bool.eq_false_iff.mpr hmodified⟩

theorem writeRegister_together {P : GlobalsRel} {r : Reg}
    (hr : ∀ g g', P g g' → same (ex.width r) (g.regs r.largestEnclosing) (g'.regs r.largestEnclosing)) :
    Together t u P (ex.writeRegister r) (ex.writeRegister r) fun _ _ => P := by
  refine .readGlobals fun g g' hg => ?_
  have hsame := hr g g' hg
  refine (callWriteReg_together ex _ _ (hs.low hsame) (hs.writeReg _ hsame)).bind fun ok ok' => ?_
  exact check_together _

/-- What `WriteRegisters` starts from when the alias is gone. -/
theorem writeRegisters_together :
    Together t u (fun g g' => WritesAlike ex same g g' ∧ g.modifiedRegs ex.flagsReg = false)
      ex.writeRegisters ex.writeRegisters fun _ _ _ _ => True := by
  let Dropped : GlobalsRel := fun g g' => (WritesAlike ex same g g' ∧
    g.modifiedRegs ex.flagsReg = false) ∧ g.stackPtrAlias = .invalid ∧ g'.stackPtrAlias = .invalid
  have hreg {g g' : Globals} (h : Dropped g g') {r : Reg} (hused : g.usedRegs r = true)
      (hne : r ≠ ex.flagsReg) :
      same (ex.width r) (g.regs r.largestEnclosing) (g'.regs r.largestEnclosing) := by
    have hsame := h.1.1.reg r hused hne
    rw [Executor.finalReg, Executor.finalReg, ex.regs_dropAlias, ex.regs_dropAlias, if_pos h.2.1,
      if_pos h.2.2] at hsame
    exact hsame
  have hwrite (r : Reg) {g g' : Globals} (hused : g.usedRegs r = true) (hne : r ≠ ex.flagsReg) :
      Together t u (fun a a' => Dropped a a' ∧ a = g ∧ a' = g') (ex.writeRegister r)
        (ex.writeRegister r) fun _ _ => Dropped := by
    refine (writeRegister_together hs ?_).post fun _ _ _ _ h => h.1
    rintro a a' ⟨h, rfl, rfl⟩
    exact hreg h hused hne
  refine .bind (Q := fun _ _ => Dropped) (.onGlobals fun g g' hg => ?_) fun _ _ =>
    .bind (.forM fun r _ => .getGlobals fun g g' hg => ?_) fun _ _ => .getGlobals fun g g' hg => ?_
  · refine ⟨⟨hg.1.dropAlias, ?_⟩, ?_, ?_⟩
    · rw [ex.dropAlias_eq]
      exact hg.2
    · rw [ex.dropAlias_eq]
    · rw [ex.dropAlias_eq]
  · refine .ite (by rw [hg.1.1.usedRegs, hg.1.1.modifiedRegs]) (fun hr => ?_) fun _ =>
      .pure fun _ _ h => h.1
    simp only [Bool.and_eq_true] at hr
    refine hwrite r hr.1.1 ?_
    rintro rfl
    cases hg.1.2.symm.trans hr.2
  · have hpc : ex.usedPC g' = ex.usedPC g := by rw [Executor.usedPC, hg.1.1.usedRegs, Executor.usedPC]
    rw [hpc]
    split
    case h_1 r hr =>
      obtain ⟨hused, hisPC⟩ := used_of_usedPC hr
      refine (hwrite r hused ?_).post fun _ _ _ _ _ => trivial
      rintro rfl
      cases ex.isPC_flagsReg.symm.trans hisPC
    · exact .pure fun _ _ _ => trivial

/-- **The end of an instruction**, from globals of which the same will be written. -/
theorem commit_together (nextPC nextPC' : Word) :
    Together t u (fun g g' => WritesAlike ex same g g' ∧ NextPCAlike ex same nextPC nextPC' g)
      (ex.commit nextPC) (ex.commit nextPC') fun _ _ _ _ => True := by
  refine .bind (writeFlags_together) fun _ _ => .bind (.onGlobals fun g g' hg => ?_) fun _ _ =>
    writeRegisters_together hs
  refine ⟨hg.1.1.setReg (fun _ => Reg.noConfusion) Reg.noConfusion fun r hused heq => ?_, hg.2⟩
  have hne : r ≠ ex.flagsReg := by
    rintro rfl
    rw [ex.largestEnclosing_flagsReg] at heq
    cases heq
  have hsame := hg.1.1.reg r hused hne
  rw [Executor.finalReg, Executor.finalReg, heq, ex.regs_dropAlias_of_ne fun _ => Reg.noConfusion,
    ex.regs_dropAlias_of_ne fun _ => Reg.noConfusion] at hsame
  exact hg.1.2 r hused heq _ _ hsame

end

end Microx
