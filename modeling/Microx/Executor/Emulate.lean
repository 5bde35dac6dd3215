import Microx.Executor.Read

/-!
# Microx.Executor.Emulate

`Emulate`: the instructions the executor carries out itself, on the registers
and the memory cells it has read.  It asks the environment for nothing, so it is
a function of the globals.
-/

namespace Microx

/-- How `Emulate` ends. -/
inductive Emulation where
  /-- It returned `true`. -/
  | emulated (nextPC : Word) (g : Globals)
  /-- It returned `false` and set a status. -/
  | unsupported (status : ExecutorStatus)
  /-- It returned `false`: the instruction is one for the processor. -/
  | notEmulated (nextPC : Word)

/-! ## flags of a subtraction -/

/-- `ParityFlag`. -/
def parityFlag (r0 : BitVec 8) : Bool :=
  let r1 := r0 >>> 1
  let r2 := r1 >>> 1
  let r3 := r2 >>> 1
  let r4 := r3 >>> 1
  let r5 := r4 >>> 1
  let r6 := r5 >>> 1
  let r7 := r6 >>> 1
  !(r0 ^^^ r1 ^^^ r2 ^^^ r3 ^^^ r4 ^^^ r5 ^^^ r6 ^^^ r7).getLsbD 0

/-- A shift by a register; the processor takes its count modulo 64. -/
def shiftRight (x count : Word) : Word := x >>> (count.toNat % 64)

/-- `UpdateFlagsSub`. -/
def updateFlagsSub (flags lhs rhs res : Word) (size : Nat) : Word :=
  let signShift : Word := 1#64 <<< ((BitVec.ofNat 64 size - 1).toNat % 64)
  let signLhs := shiftRight lhs signShift &&& 1
  let signRhs := shiftRight rhs signShift &&& 1
  let signRes := shiftRight res signShift &&& 1
  let flags := Flag.sf.set flags (signRes.getLsbD 0)
  let flags := Flag.cf.set flags (decide (lhs < rhs))
  let flags := Flag.of.set flags (decide (2 = (signLhs ^^^ signRhs) + (signLhs ^^^ signRes)))
  let flags := Flag.zf.set flags (decide (0 = res))
  let flags := Flag.af.set flags (decide (0 ≠ (res ^^^ lhs ^^^ rhs) &&& 0x10#64))
  Flag.pf.set flags (parityFlag (res.setWidth 8))

/-! ## conditions -/

/-- The condition under which `Emulate` takes a `Jcc`. -/
def Cond.holds (flags : Word) : Cond → Bool
  | .nle => !Flag.zf.get flags && Flag.sf.get flags == Flag.of.get flags
  | .ns => !Flag.sf.get flags
  | .l => Flag.sf.get flags != Flag.of.get flags
  | .np => !Flag.pf.get flags
  | .nz => !Flag.zf.get flags
  | .nb => !Flag.cf.get flags
  | .no => !Flag.of.get flags
  | .nl => Flag.sf.get flags == Flag.of.get flags
  | .nbe => !Flag.cf.get flags && !Flag.zf.get flags
  | .be => Flag.cf.get flags || Flag.zf.get flags
  | .z => Flag.zf.get flags
  | .p => Flag.pf.get flags
  | .s => Flag.sf.get flags
  | .o => Flag.of.get flags
  | .b => Flag.cf.get flags
  | .le => Flag.zf.get flags || Flag.sf.get flags != Flag.of.get flags

namespace Executor

variable {σ : Type} (ex : Executor σ)

/-! ## registers of `Emulate` -/

/-- `count_reg`. -/
def countReg : Reg := ex.widestRegister (.gpr32 .rcx)

/-- `src_reg`. -/
def srcReg : Reg := ex.widestRegister (.gpr32 .rsi)

/-- `dest_reg`. -/
def destReg : Reg := ex.widestRegister (.gpr32 .rdi)

/-- `stack_reg`. -/
def stackReg : Reg := ex.widestRegister (.gpr32 .rsp)

/-- `addr_size_bytes`. -/
def addrSizeBytes : Word := BitVec.ofNat 64 (ex.addrSize.bits / 8)

/-- `GetSignedImmediate`. -/
def getSignedImmediate (inst : Inst) : Word :=
  match inst.operandWidth with
  | 64 => inst.signedImmediate
  | 32 => (inst.signedImmediate.setWidth 32).setWidth 64
  | 16 => (inst.signedImmediate.setWidth 16).setWidth 64
  | 8 => (inst.signedImmediate.setWidth 8).setWidth 64
  | _ => 0

/-- `BranchTarget`, masked to the address size. -/
def branchTarget (inst : Inst) (nextPC : Word) : Word :=
  ex.truncatePC (nextPC + inst.branchDisplacement)

/-- Move the stack pointer. -/
def addToStack (delta : Word) (g : Globals) : Globals :=
  ex.writeGPR ex.stackReg (ex.readGPR ex.stackReg g + delta) g

/-! ## string instructions -/

/-- `stringop_inc`. -/
def stringopInc (inst : Inst) (g : Globals) : Word :=
  if Flag.df.get g.aflag then -opSizeBytes inst else opSizeBytes inst

/-- Move a source or destination pointer. -/
def advance (reg : Reg) (inc : Word) (g : Globals) : Globals :=
  (ex.writeGPR reg (ex.readGPR reg g + inc) g).setModified reg

/-- The flags after comparing two elements. -/
def compare (inst : Inst) (lhs rhs : Word) (g : Globals) : Globals :=
  g.setAflag (updateFlagsSub g.aflag lhs rhs (lhs - rhs) inst.operandWidth)

/-- The macros `STOS`, `SCAS`, `LODS`, `MOVS` and `CMPS`. -/
def stringStep (inst : Inst) (op : StringOp) (g : Globals) : Globals :=
  let inc := stringopInc inst g
  let reg0 := inst.reg .reg0
  match op with
  | .stos => ex.advance ex.destReg inc (g.setMem 0 (ex.readGPR reg0 g))
  | .scas => ex.advance ex.destReg inc (compare inst (ex.readGPR reg0 g) (g.mem 0) g)
  | .lods => ex.advance ex.srcReg inc (ex.writeGPR reg0 (g.mem 0) g)
  | .movs => ex.advance ex.destReg inc (ex.advance ex.srcReg inc (g.setMem 0 (g.mem 1)))
  | .cmps => ex.advance ex.destReg inc (ex.advance ex.srcReg inc (compare inst (g.mem 0) (g.mem 1) g))

/-- The macros `REP`, `REPE` and `REPNE`: one iteration, and the current PC again while the
count lasts and the flags satisfy `again`. -/
def repeated (again : Word → Bool) (body : Globals → Globals) (nextPC : Word) (g : Globals) :
    Emulation :=
  let currPC := ex.readGPR .rip g
  let count := ex.readGPR ex.countReg g
  if count ≠ 0 then
    let g := ex.writeGPR ex.countReg (count - 1) (body g)
    if count - 1 ≠ 0 ∧ again g.aflag then .emulated currPC g else .emulated nextPC g
  else .emulated nextPC g

end Executor

def RepOp.toStringOp : RepOp → StringOp
  | .stos => .stos
  | .lods => .lods
  | .movs => .movs

def RepCmpOp.toStringOp : RepCmpOp → StringOp
  | .scas => .scas
  | .cmps => .cmps

/-- The string instruction that a form performs, repeated or not. -/
def IForm.stringOp : IForm → Option StringOp
  | .string op _ => some op
  | .rep op _ => some op.toStringOp
  | .repe op _ | .repne op _ => some op.toStringOp
  | _ => none

namespace Executor

variable {σ : Type} (ex : Executor σ)

/-- The pointers that a string instruction moves. -/
def pointers : StringOp → List Reg
  | .stos | .scas => [ex.destReg]
  | .lods => [ex.srcReg]
  | .movs | .cmps => [ex.srcReg, ex.destReg]

/-! ## `Emulate` -/

/-- `if (cond) next_pc = branch_target_pc`. -/
def branchIf (inst : Inst) (cond : Bool) (nextPC : Word) (g : Globals) : Emulation :=
  if cond then .emulated (ex.branchTarget inst nextPC) g else .emulated (ex.truncatePC nextPC) g

/-- `LOOPNE`, `LOOPE` and `LOOP`; the condition is on the flags. -/
def loopIf (inst : Inst) (cond : Word → Bool) (nextPC : Word) (g : Globals) : Emulation :=
  let count := ex.readGPR ex.countReg g
  let g := ex.writeGPR ex.countReg (count - 1) g
  ex.branchIf inst (decide (count ≠ 0) && cond g.aflag) nextPC g

/-- `XBEGIN`: the transaction fails at once, with a capacity error. -/
def xbegin (g : Globals) : Globals :=
  let g := g.setReg (.gpr64 .rax) (Bits.put 0 64 (g.regs (.gpr64 .rax)) 8#64)
  g.setReg (.gpr32 .rax) (Bits.put 0 32 (g.regs (.gpr32 .rax)) 8#64)

/-- `RDTSC`. -/
def rdtsc (inst : Inst) (g : Globals) : Globals :=
  let tsc := g.readValue 64 .tsc
  let g := ex.writeGPR (inst.reg .reg0) ((tsc.setWidth 32).setWidth 64) g
  ex.writeGPR (inst.reg .reg1) (tsc >>> 32) g

/-- `Emulate`. -/
def emulate (inst : Inst) (nextPC₀ : Word) (g : Globals) : Emulation :=
  let nextPC := ex.truncatePC nextPC₀
  let target := ex.branchTarget inst nextPC₀
  let reg0 := inst.reg .reg0
  let reg1 := inst.reg .reg1
  let reg2 := inst.reg .reg2
  let simm0 := getSignedImmediate inst
  match inst.iform with
  | .leaGPRvAGEN => .emulated nextPC (ex.writeGPR reg0 (g.memory 0).address g)
  | .jcc c _ => ex.branchIf inst (c.holds g.aflag) nextPC₀ g
  | .loopneRELBRb => ex.loopIf inst (fun flags => !Flag.zf.get flags) nextPC₀ g
  | .loopeRELBRb => ex.loopIf inst Flag.zf.get nextPC₀ g
  | .loopRELBRb => ex.loopIf inst (fun _ => true) nextPC₀ g
  | .jcxzRELBRb => ex.branchIf inst (decide (ex.readGPR (.gpr16 .rcx) g = 0)) nextPC₀ g
  | .jecxzRELBRb => ex.branchIf inst (decide (ex.readGPR (.gpr32 .rcx) g = 0)) nextPC₀ g
  | .jrcxzRELBRb => ex.branchIf inst (decide (ex.readGPR (.gpr64 .rcx) g = 0)) nextPC₀ g
  | .xbeginRELBRz => .emulated target (xbegin g)
  | .xabortIMMb | .xend => .unsupported .errorUnsupportedCFI
  | .jmpMEMv => .emulated (g.mem 0) g
  | .jmpGPRv => .emulated (ex.readGPR reg0 g) g
  | .jmpRELBR _ => .emulated target g
  | .callNearRELBRz | .callNearRELBRd =>
      .emulated target (ex.addToStack (-ex.addrSizeBytes) (g.setMem 0 nextPC))
  | .callNearMEMv =>
      .emulated (g.mem 0) (ex.addToStack (-ex.addrSizeBytes) (g.setMem 1 nextPC))
  | .callNearGPRv =>
      .emulated (ex.readGPR reg0 g) (ex.addToStack (-ex.addrSizeBytes) (g.setMem 0 nextPC))
  | .retNear => .emulated (g.mem 0) (ex.addToStack ex.addrSizeBytes g)
  | .retNearIMMw =>
      .emulated (g.mem 0)
        (ex.addToStack (ex.addrSizeBytes + (simm0.setWidth 16).setWidth 64) g)
  | .callFarMEMp2 | .callFarPTRpIMMw | .jmpFarMEMp2 | .jmpFarPTRpIMMw | .retFarIMMw
  | .retFar => .unsupported .errorUnsupportedCFI
  | .repe op _ =>
      ex.repeated Flag.zf.get (ex.stringStep inst op.toStringOp) nextPC g
  | .rep op _ =>
      ex.repeated (fun _ => true) (ex.stringStep inst op.toStringOp) nextPC g
  | .repne op _ =>
      ex.repeated (fun flags => !Flag.zf.get flags) (ex.stringStep inst op.toStringOp) nextPC g
  | .string op _ => .emulated nextPC (ex.stringStep inst op g)
  | .pushMEMv => .emulated nextPC (ex.addToStack (-opSizeBytes inst) (g.setMem 1 (g.mem 0)))
  | .pushGPRvFFr6 | .pushGPRv50 =>
      .emulated nextPC (ex.addToStack (-opSizeBytes inst) (g.setMem 0 (ex.readGPR reg0 g)))
  | .pushIMMz | .pushIMMb =>
      .emulated nextPC
        (ex.addToStack (-opSizeBytes inst) (g.setMem 0 ((simm0.setWidth 32).setWidth 64)))
  | .popMEMv => .emulated nextPC (ex.addToStack (opSizeBytes inst) (g.setMem 0 (g.mem 1)))
  | .popGPRv8F | .popGPRv58 =>
      .emulated nextPC (ex.addToStack (opSizeBytes inst) (ex.writeGPR reg0 (g.mem 0) g))
  | .leave =>
      .emulated nextPC (ex.writeGPR reg0 (g.mem 0) (ex.writeGPR reg1 (ex.readGPR reg0 g) g))
  | .pushSeg _ =>
      .emulated nextPC (ex.addToStack (-ex.addrSizeBytes) (g.setMem 0 (ex.readGPR reg0 g)))
  -- There is no `POP CS`.
  | .popSeg .cs => .notEmulated nextPC
  | .popSeg _ =>
      .emulated nextPC (ex.addToStack ex.addrSizeBytes (ex.writeGPR reg0 (g.mem 0) g))
  | .movMEMwSEG => .emulated nextPC (g.setMem 0 (ex.readGPR reg0 g))
  | .movGPRvSEG => .emulated nextPC (ex.writeGPR reg0 (ex.readGPR reg1 g) g)
  | .movSEGMEMw => .emulated nextPC (ex.writeGPR reg0 (g.mem 0) g)
  | .movSEGGPR16 => .emulated nextPC (ex.writeGPR reg0 (ex.readGPR reg1 g) g)
  | .pushf | .pushfd | .pushfq =>
      .emulated nextPC (ex.addToStack (-ex.addrSizeBytes) (g.setMem 0 g.aflag))
  | .popf | .popfd | .popfq =>
      .emulated nextPC (ex.addToStack ex.addrSizeBytes (g.setAflag (g.mem 0)))
  | .pusha | .pushad | .popa | .popad | .enterIMMwIMMb => .unsupported .errorUnsupportedStack
  | .xlat => .emulated nextPC (ex.writeGPR reg0 (g.mem 0) g)
  | .rdtscp =>
      .emulated nextPC (ex.rdtsc inst (ex.writeGPR reg2 (g.readValue 32 .tscaux) g))
  | .rdtsc => .emulated nextPC (ex.rdtsc inst g)
  | .bitMEMvIMMb _ _ | .bitMEMvGPRv _ _ | .other _ => .notEmulated nextPC

/-! ## what emulation leaves alone -/

/-- An assertion that survives changes of registers and data, and marking some registers modified. -/
structure UnaffectedBy (marked : Reg → Prop) (P : Globals → Prop) : Prop where
  setReg : ∀ r data g, P g → P (g.setReg r data)
  setData : ∀ i data g, P g → P (g.setData i data)
  setModified : ∀ r g, marked r → P g → P (g.setModified r)

/-- An assertion that survives changes of registers and data, and marking any register modified. -/
def Unaffected (P : Globals → Prop) : Prop := UnaffectedBy (fun _ => True) P

/-- A branch changes the program counter only. -/
theorem branchIf_globals {inst : Inst} {c : Bool} {nextPC pc : Word} {g g' : Globals}
    (h : ex.branchIf inst c nextPC g = .emulated pc g') : g' = g := by
  unfold branchIf at h
  split at h <;> cases h <;> rfl

namespace UnaffectedBy

variable {marked : Reg → Prop} {P : Globals → Prop} (h : UnaffectedBy marked P)

include h

theorem writeGPR (reg : Reg) (val : Word) {g : Globals} (hg : P g) : P (ex.writeGPR reg val g) := by
  simp only [Executor.writeGPR, Globals.writeGPR, Globals.writeValue]
  split_ifs
  all_goals first | exact hg | exact h.setReg _ _ _ hg

theorem addToStack (delta : Word) {g : Globals} (hg : P g) : P (ex.addToStack delta g) :=
  h.writeGPR ex _ _ hg

theorem setMem (i : Fin 2) (val : Word) {g : Globals} (hg : P g) : P (g.setMem i val) :=
  h.setData _ _ _ hg

theorem setAflag (val : Word) {g : Globals} (hg : P g) : P (g.setAflag val) := h.setReg _ _ _ hg

theorem advance {reg : Reg} (hreg : marked reg) (inc : Word) {g : Globals} (hg : P g) :
    P (ex.advance reg inc g) :=
  h.setModified _ _ hreg (h.writeGPR ex _ _ hg)

theorem stringStep (inst : Inst) (op : StringOp) (hop : ∀ r ∈ ex.pointers op, marked r)
    {g : Globals} (hg : P g) : P (ex.stringStep inst op g) := by
  cases op with
  | stos =>
      have hdest := hop ex.destReg (by simp [pointers])
      exact h.advance ex hdest _ (h.setMem _ _ hg)
  | scas =>
      have hdest := hop ex.destReg (by simp [pointers])
      exact h.advance ex hdest _ (h.setAflag _ hg)
  | lods =>
      have hsrc := hop ex.srcReg (by simp [pointers])
      exact h.advance ex hsrc _ (h.writeGPR ex _ _ hg)
  | movs =>
      have hsrc := hop ex.srcReg (by simp [pointers])
      have hdest := hop ex.destReg (by simp [pointers])
      exact h.advance ex hdest _ (h.advance ex hsrc _ (h.setMem _ _ hg))
  | cmps =>
      have hsrc := hop ex.srcReg (by simp [pointers])
      have hdest := hop ex.destReg (by simp [pointers])
      exact h.advance ex hdest _ (h.advance ex hsrc _ (h.setAflag _ hg))

theorem repeated {again : Word → Bool} {body : Globals → Globals} {nextPC pc : Word}
    {g g' : Globals} (hr : ex.repeated again body nextPC g = .emulated pc g')
    (hbody : P (body g)) (hg : P g) : P g' := by
  simp only [Executor.repeated] at hr
  split at hr
  · split at hr <;> cases hr <;> exact h.writeGPR ex _ _ hbody
  · cases hr
    exact hg

theorem rdtsc (inst : Inst) {g : Globals} (hg : P g) : P (ex.rdtsc inst g) :=
  h.writeGPR ex _ _ (h.writeGPR ex _ _ hg)

/-- Emulating an instruction keeps it, if the pointers of a string instruction may be marked. -/
theorem emulate {inst : Inst} {nextPC pc : Word} {g g' : Globals}
    (hop : ∀ op, inst.iform.stringOp = some op → ∀ r ∈ ex.pointers op, marked r)
    (he : ex.emulate inst nextPC g = .emulated pc g') (hg : P g) : P g' := by
  have hcount (v : Word) : P (ex.writeGPR ex.countReg v g) := h.writeGPR ex _ _ hg
  have hmem (i : Fin 2) (v : Word) : P (g.setMem i v) := h.setMem i v hg
  have hstring {op : StringOp} (hform : inst.iform.stringOp = some op) :
      P (ex.stringStep inst op g) := h.stringStep ex inst op (hop op hform) hg
  unfold Executor.emulate at he
  cases hf : inst.iform with
  | jcc c rel => rw [hf] at he; rw [ex.branchIf_globals he]; exact hg
  | loopneRELBRb => rw [hf] at he; rw [ex.branchIf_globals he]; exact hcount _
  | loopeRELBRb => rw [hf] at he; rw [ex.branchIf_globals he]; exact hcount _
  | loopRELBRb => rw [hf] at he; rw [ex.branchIf_globals he]; exact hcount _
  | jcxzRELBRb => rw [hf] at he; rw [ex.branchIf_globals he]; exact hg
  | jecxzRELBRb => rw [hf] at he; rw [ex.branchIf_globals he]; exact hg
  | jrcxzRELBRb => rw [hf] at he; rw [ex.branchIf_globals he]; exact hg
  | rep op size => rw [hf] at he; exact h.repeated ex he (hstring (by rw [hf]; rfl)) hg
  | repe op size => rw [hf] at he; exact h.repeated ex he (hstring (by rw [hf]; rfl)) hg
  | repne op size => rw [hf] at he; exact h.repeated ex he (hstring (by rw [hf]; rfl)) hg
  | string op size => rw [hf] at he; cases he; exact hstring (by rw [hf]; rfl)
  | xbeginRELBRz => rw [hf] at he; cases he; exact h.setReg _ _ _ (h.setReg _ _ _ hg)
  | rdtsc => rw [hf] at he; cases he; exact h.rdtsc ex _ hg
  | rdtscp => rw [hf] at he; cases he; exact h.rdtsc ex _ (h.writeGPR ex _ _ hg)
  | leave => rw [hf] at he; cases he; exact h.writeGPR ex _ _ (h.writeGPR ex _ _ hg)
  | popSeg s =>
      rw [hf] at he
      cases s <;> cases he <;> exact h.addToStack ex _ (h.writeGPR ex _ _ hg)
  | _ =>
      rw [hf] at he
      cases he <;> first
        | exact hg
        | exact hmem _ _
        | exact h.addToStack ex _ hg
        | exact h.addToStack ex _ (hmem _ _)
        | exact h.addToStack ex _ (h.setAflag _ hg)
        | exact h.addToStack ex _ (h.writeGPR ex _ _ hg)
        | exact h.writeGPR ex _ _ hg

end UnaffectedBy

/-- Emulating an instruction keeps what any mark leaves alone. -/
theorem Unaffected.emulate {P : Globals → Prop} (h : Unaffected P) {inst : Inst}
    {nextPC pc : Word} {g g' : Globals} (he : ex.emulate inst nextPC g = .emulated pc g')
    (hg : P g) : P g' :=
  UnaffectedBy.emulate ex h (fun _ _ _ _ => trivial) he hg

/-- An observation that registers and data do not affect stays the same. -/
theorem emulate_unaffected {α : Type} {f : Globals → α} {inst : Inst} {nextPC pc : Word}
    {g g' : Globals} (hreg : ∀ r data g, f (g.setReg r data) = f g)
    (hdata : ∀ i data g, f (g.setData i data) = f g) (hmod : ∀ r g, f (g.setModified r) = f g)
    (he : ex.emulate inst nextPC g = .emulated pc g') : f g' = f g := by
  have hinv : Unaffected fun g' => f g' = f g :=
    ⟨fun r data g' h => (hreg r data g').trans h, fun i data g' h => (hdata i data g').trans h,
      fun r g' _ h => (hmod r g').trans h⟩
  exact hinv.emulate ex he rfl

end Executor

/-! ## the places of cells -/

/-- Where a cell is, and whether it is written back. -/
structure Place where
  present : Bool
  writeBack : Bool
  address : Word
  size : Nat

def Cell.place (c : Cell) : Place := ⟨c.present, c.writeBack, c.address, c.size⟩

/-- The places of the two cells. -/
def Globals.places (g : Globals) (i : Fin 2) : Place := (g.memory i).place

namespace Globals

theorem places_setCell {g : Globals} {i : Fin 2} {c : Cell} (h : c.place = g.places i) :
    (g.setCell i c).places = g.places := by
  funext j
  by_cases hj : j = i
  · subst hj
    simpa [places, setCell] using h
  · simp [places, setCell, hj]

@[simp] theorem places_setData (i : Fin 2) (data : Data) (g : Globals) :
    (g.setData i data).places = g.places :=
  places_setCell rfl

@[simp] theorem places_setReg (r : Reg) (data : Data) (g : Globals) :
    (g.setReg r data).places = g.places := rfl

@[simp] theorem places_setModified (r : Reg) (g : Globals) :
    (g.setModified r).places = g.places := rfl

@[simp] theorem memory_writeGPR (n : Nat) (r : Reg) (val : Word) (g : Globals) :
    (g.writeGPR n r val).memory = g.memory := by
  simp only [writeGPR, writeValue, setReg]
  split_ifs <;> rfl

end Globals

namespace Executor

variable {σ : Type} (ex : Executor σ)

@[simp] theorem memory_writeGPR (r : Reg) (val : Word) (g : Globals) :
    (ex.writeGPR r val g).memory = g.memory :=
  Globals.memory_writeGPR _ _ _ _

/-- Emulating an instruction moves no cell. -/
theorem places_of_emulated {inst : Inst} {nextPC pc : Word} {g g' : Globals}
    (h : ex.emulate inst nextPC g = .emulated pc g') : g'.places = g.places :=
  ex.emulate_unaffected Globals.places_setReg Globals.places_setData Globals.places_setModified h

end Executor

end Microx
