import Microx.Executor.Loop
import Microx.Executor.Stack
import Microx.Executor.WrittenFlags
import Microx.Lib.Countdown

/-!
# Microx.Executor.Rep

String instructions with a `REP`, `REPE` or `REPNE` prefix.

Next to the executor stands the processor's loop over elements, on the pointers,
the accumulator, `ZF` and the memory.  `Execute(1)` does one element and stays
on the instruction while there is more to do (`repeats_step`), so executing it
until it is left is the loop (`repeats_run`).
-/

namespace Microx

/-! ## the processor's loop -/

/-- What a string instruction works on. -/
@[ext] structure Elements (w : Nat) where
  src : BitVec w
  dest : BitVec w
  acc : BitVec w
  zf : Bool
  mem : BitVec w → Byte

namespace StringSize

/-- The bytes of an element. -/
def bytes : StringSize → Nat
  | .b => 1
  | .w => 2
  | .d => 4
  | .q => 8

/-- The part of the accumulator that holds an element. -/
def accumulator : StringSize → Reg
  | .b => .gpr8 .rax
  | .w => .gpr16 .rax
  | .d => .gpr32 .rax
  | .q => .gpr64 .rax

theorem bytes_le (size : StringSize) : size.bytes ≤ 8 := by cases size <;> decide

/-- An element is stored from the lowest bits of a cell. -/
theorem store_setMem {w : Nat} (size : StringSize) (mem : BitVec w → Byte) (addr : BitVec w)
    (i : Fin 2) (val : Word) (g : Globals) :
    ByteMemory.store mem addr size.bytes ((g.setMem i val).memory i).data =
      ByteMemory.store mem addr size.bytes val := by
  apply ByteMemory.store_eq_of_bits
  intro k hk
  have hbytes := size.bytes_le
  rw [Globals.setMem, Globals.setData, Globals.memory_setCell_self,
    Bits.getLsbD_put _ _ _ _ _ (by omega), if_pos (by omega)]
  rfl

end StringSize

/-- A pointer moves up, or down if `DF` is set. -/
def moved {w : Nat} (back : Bool) (n : Nat) (p : BitVec w) : BitVec w :=
  if back then p - BitVec.ofNat w n else p + BitVec.ofNat w n

theorem moved_zero {w : Nat} (back : Bool) (p : BitVec w) : moved back 0 p = p := by
  cases back <;> simp [moved]

theorem moved_moved {w : Nat} (back : Bool) (m n : Nat) (p : BitVec w) :
    moved back m (moved back n p) = moved back (n + m) p := by
  cases back <;> simp only [moved, BitVec.ofNat_add, if_true, Bool.false_eq_true, if_false] <;> ring

namespace StringOp

/-- Elements are read at `SI`. -/
def usesSrc : StringOp → Bool
  | .lods | .movs | .cmps => true
  | .stos | .scas => false

/-- Elements are read or written at `DI`. -/
def usesDest : StringOp → Bool
  | .stos | .scas | .movs | .cmps => true
  | .lods => false

def writes : StringOp → Bool
  | .stos | .movs => true
  | .scas | .lods | .cmps => false

def compares : StringOp → Bool
  | .scas | .cmps => true
  | .stos | .lods | .movs => false

def usesAccumulator : StringOp → Bool
  | .stos | .scas | .lods => true
  | .movs | .cmps => false

/-- The pointers of the memory operands, in XED's order. -/
def cells : StringOp → List Gpr
  | .stos | .scas => [.rdi]
  | .lods => [.rsi]
  | .movs => [.rdi, .rsi]
  | .cmps => [.rsi, .rdi]

/-- One iteration of the processor's loop; `back` is `DF`. -/
def element {w : Nat} (op : StringOp) (size : StringSize) (back : Bool) (x : Elements w) :
    Elements w :=
  let n := size.bytes
  let acc := size.accumulator.part x.acc
  let atSrc : Word := ByteMemory.load x.mem x.src n
  let atDest : Word := ByteMemory.load x.mem x.dest n
  match op with
  | .stos => { x with dest := moved back n x.dest, mem := ByteMemory.store x.mem x.dest n acc }
  | .scas => { x with dest := moved back n x.dest, zf := decide (acc = atDest) }
  | .lods => { x with src := moved back n x.src, acc := size.accumulator.merge x.acc atSrc }
  | .movs =>
      { x with
        src := moved back n x.src
        dest := moved back n x.dest
        mem := ByteMemory.store x.mem x.dest n atSrc }
  | .cmps =>
      { x with
        src := moved back n x.src
        dest := moved back n x.dest
        zf := decide (atSrc = atDest) }

theorem exists_cell_src {op : StringOp} (h : op.usesSrc = true) :
    ∃ i : Fin 2, op.cells[i.val]? = some .rsi := by
  cases op <;> first | exact ⟨0, rfl⟩ | exact ⟨1, rfl⟩ | exact nomatch h

theorem exists_cell_dest {op : StringOp} (h : op.usesDest = true) :
    ∃ i : Fin 2, op.cells[i.val]? = some .rdi := by
  cases op <;> first | exact ⟨0, rfl⟩ | exact ⟨1, rfl⟩ | exact nomatch h

section

variable {w : Nat} (op : StringOp) (size : StringSize) (back : Bool) (x : Elements w)

theorem element_src : (op.element size back x).src =
    if op.usesSrc then moved back size.bytes x.src else x.src := by
  cases op <;> rfl

theorem element_acc : (op.element size back x).acc =
    if op = .lods then size.accumulator.merge x.acc (ByteMemory.load x.mem x.src size.bytes)
    else x.acc := by
  cases op <;> rfl

theorem element_dest : (op.element size back x).dest =
    if op.usesDest then moved back size.bytes x.dest else x.dest := by
  cases op <;> rfl

/-- The pointers after any number of elements. -/
theorem iterate_element : ∀ (k : Nat) (x : Elements w),
    let y := (op.element size back)^[k] x
    y.src = (if op.usesSrc then moved back (k * size.bytes) x.src else x.src) ∧
      y.dest = if op.usesDest then moved back (k * size.bytes) x.dest else x.dest
  | 0, x => by simp [moved_zero]
  | k + 1, x => by
      obtain ⟨hsrc, hdest⟩ := iterate_element k (op.element size back x)
      have hbytes : size.bytes + k * size.bytes = (k + 1) * size.bytes := by ring
      simp only [Function.iterate_succ_apply, hsrc, hdest, element_src, element_dest]
      constructor
      · cases op.usesSrc <;> simp [moved_moved, hbytes]
      · cases op.usesDest <;> simp [moved_moved, hbytes]

end

end StringOp

/-- The string instructions with a prefix, and the condition on `ZF` under which they go on. -/
def IForm.repeats : IForm → Option (StringOp × StringSize × (Bool → Bool))
  | .rep op size => some (op.toStringOp, size, fun _ => true)
  | .repe op size => some (op.toStringOp, size, id)
  | .repne op size => some (op.toStringOp, size, not)
  | _ => none

/-- The forms that look at `ZF` compare. -/
theorem IForm.compares_of_repeats {iform : IForm} {op : StringOp} {size : StringSize}
    {again : Bool → Bool} (h : iform.repeats = some (op, size, again)) :
    op.compares = true ∨ again = fun _ => true := by
  cases iform with
  | rep op _ =>
      cases h
      exact .inr rfl
  | repe op _ | repne op _ =>
      cases h
      cases op <;> exact .inl rfl
  | _ => contradiction

/-! ## one iteration of `Emulate` -/

theorem zf_updateFlagsSub (flags l r : Word) (n : Nat) :
    Flag.zf.get (updateFlagsSub flags l r (l - r) n) = decide (l = r) := by
  simp only [updateFlagsSub, Flag.get_set, reduceCtorEq, if_true, if_false, decide_eq_decide]
  rw [eq_comm, BitVec.sub_eq_iff_eq_add, show (0 : Word) = 0#64 from rfl, BitVec.zero_add]

theorem df_updateFlagsSub (flags l r res : Word) (n : Nat) :
    Flag.df.get (updateFlagsSub flags l r res n) = Flag.df.get flags := by
  simp [updateFlagsSub, Flag.get_set]

namespace Executor

variable {σ : Type} (ex : Executor σ)

/-- A prefixed string instruction is one iteration. -/
theorem emulate_repeats {inst : Inst} {op : StringOp} {size : StringSize} {again : Bool → Bool}
    (h : inst.iform.repeats = some (op, size, again)) (nextPC : Word) (g : Globals) :
    ex.emulate inst nextPC g = ex.repeated (fun flags => again (Flag.zf.get flags))
      (ex.stringStep inst op) (ex.truncatePC nextPC) g := by
  unfold emulate
  cases hf : inst.iform <;> rw [hf] at h <;> cases h <;> rfl

section

variable (f : Gpr) (inc : Word) (g : Globals)

theorem gpr_advance (r : Gpr) : ex.gpr (ex.advance (ex.wide f) inc g) r =
    if r = f then ex.gpr g f + inc.setWidth _ else ex.gpr g r := by
  rw [advance, gpr_setModified, gpr_writeGPR_wide, readGPR_wide, AddressSize.setWidth_add,
    AddressSize.setWidth_setWidth]

@[simp] theorem aflag_advance : (ex.advance (ex.wide f) inc g).aflag = g.aflag :=
  ex.aflag_writeGPR (ex.wide_family f) _ _

@[simp] theorem memory_advance (reg : Reg) : (ex.advance reg inc g).memory = g.memory :=
  ex.memory_writeGPR _ _ _

end

variable {inst : Inst} {op : StringOp} {g : Globals}

/-- The registers after an iteration. -/
theorem gpr_stringStep (hacc : op = .lods → (inst.reg .reg0).family = some .rax) (r : Gpr) :
    ex.gpr (ex.stringStep inst op g) r =
      if r = .rsi ∧ op.usesSrc = true ∨ r = .rdi ∧ op.usesDest = true then
        ex.gpr g r + (stringopInc inst g).setWidth _
      else if r = .rax ∧ op = .lods then (inst.reg .reg0).merge (ex.gpr g .rax) (g.mem 0)
      else ex.gpr g r := by
  have hsrc : ex.srcReg = ex.wide .rsi := rfl
  have hdest : ex.destReg = ex.wide .rdi := rfl
  cases op with
  | lods =>
      simp only [stringStep, hsrc, gpr_advance, ex.gpr_writeGPR (hacc rfl), StringOp.usesSrc,
        StringOp.usesDest]
      cases r <;> simp
  | _ =>
      simp only [stringStep, hsrc, hdest, gpr_advance, gpr_setMem, compare, gpr_setAflag,
        StringOp.usesSrc, StringOp.usesDest]
      cases r <;> simp

/-- The flags after an iteration: those of the comparison, if there is one. -/
def flagsAfter (inst : Inst) (op : StringOp) (g : Globals) : Word :=
  let acc := ex.readGPR (inst.reg .reg0) g
  match op with
  | .scas => updateFlagsSub g.aflag acc (g.mem 0) (acc - g.mem 0) inst.operandWidth
  | .cmps => updateFlagsSub g.aflag (g.mem 0) (g.mem 1) (g.mem 0 - g.mem 1) inst.operandWidth
  | .stos | .lods | .movs => g.aflag

theorem aflag_stringStep (hacc : op = .lods → (inst.reg .reg0).family = some .rax) :
    (ex.stringStep inst op g).aflag = ex.flagsAfter inst op g := by
  have hsrc : ex.srcReg = ex.wide .rsi := rfl
  have hdest : ex.destReg = ex.wide .rdi := rfl
  cases op with
  | lods =>
      simp only [stringStep, hsrc, aflag_advance]
      exact ex.aflag_writeGPR (hacc rfl) _ _
  | _ => simp only [stringStep, hsrc, hdest, aflag_advance, compare, FlatMachine.aflag_setAflag]; rfl

theorem df_flagsAfter : Flag.df.get (ex.flagsAfter inst op g) = Flag.df.get g.aflag := by
  cases op with
  | scas | cmps => exact df_updateFlagsSub _ _ _ _ _
  | _ => rfl

/-- The cells after an iteration. -/
def cellsAfter (inst : Inst) (op : StringOp) (g : Globals) : Fin 2 → Cell :=
  match op with
  | .stos => (g.setMem 0 (ex.readGPR (inst.reg .reg0) g)).memory
  | .movs => (g.setMem 0 (g.mem 1)).memory
  | .scas | .lods | .cmps => g.memory

theorem memory_stringStep : (ex.stringStep inst op g).memory = ex.cellsAfter inst op g := by
  cases op with
  | lods => exact (ex.memory_advance _ _ _).trans (ex.memory_writeGPR _ _ _)
  | _ => simp only [stringStep, memory_advance]; rfl

@[simp] theorem modifiedRegs_writeGPR (reg : Reg) (val : Word) (g : Globals) :
    (ex.writeGPR reg val g).modifiedRegs = g.modifiedRegs := by
  unfold writeGPR Globals.writeGPR Globals.writeValue
  split_ifs <;> rfl

theorem modifiedRegs_advance (reg : Reg) (inc : Word) (g : Globals) :
    (ex.advance reg inc g).modifiedRegs = Function.update g.modifiedRegs reg true := by
  rw [advance, ← ex.modifiedRegs_writeGPR reg (ex.readGPR reg g + inc) g]
  rfl

/-- The pointers that were moved are marked. -/
theorem modified_stringStep {r : Gpr}
    (hr : r = .rsi ∧ op.usesSrc = true ∨ r = .rdi ∧ op.usesDest = true) :
    (ex.stringStep inst op g).modifiedRegs (ex.wide r) = true := by
  have hsrc : ex.srcReg = ex.wide .rsi := rfl
  have hdest : ex.destReg = ex.wide .rdi := rfl
  have hne : ex.wide .rsi ≠ ex.wide .rdi := fun h => nomatch ex.wide_inj h
  rcases hr with ⟨rfl, huses⟩ | ⟨rfl, huses⟩
  all_goals cases op <;> first
    | contradiction
    | simp [stringStep, hsrc, hdest, modifiedRegs_advance, hne]

end Executor

namespace FlatMachine

variable {c : FlatMachine} {inst : Inst} {op : StringOp} {size : StringSize}
  {again : Bool → Bool} {i : Fin 2} {r : Gpr} {e e' : Flat c.width} {w w' : World (Flat c.width)}
  {g g' : Globals} {pc nextPC : Word}

/-! ## prefixed string instructions -/

/-- The library looks at the bytes of an instruction only. -/
def DecodesAlone (c : FlatMachine) (inst : Inst) : Prop :=
  ∀ bytes bytes' : List Byte, c.xed.decode c.addrSize bytes = some inst →
    bytes'.length = bytes.length → bytes'.take inst.length = bytes.take inst.length →
      c.xed.decode c.addrSize bytes' = some inst

/-- An instruction whose bytes are the same is decoded as before. -/
theorem DecodesAlone.decodes (h : c.DecodesAlone inst) (hd : c.Decodes e inst)
    (hpc : c.pc e' = c.pc e)
    (hbytes : ∀ k < inst.length,
      e'.mem (c.pc e + BitVec.ofNat _ k) = e.mem (c.pc e + BitVec.ofNat _ k)) :
    c.Decodes e' inst := by
  refine h _ _ hd (by simp) ?_
  rw [← List.map_take, ← List.map_take, List.take_range, hpc]
  refine List.map_congr_left fun k hk => hbytes k ?_
  have hlt := List.mem_range.mp hk
  omega

/-- An element among the memory operands, as XED lists it: at a pointer, without a displacement. -/
structure ElementOperand (c : FlatMachine) (inst : Inst) (size : StringSize) (i : Fin 2) (r : Gpr)
    (written : Bool) : Prop where
  operand : ∃ o, inst.memoryOperands[i.val]? = some o ∧ o.name ≠ .agen ∧ o.written = written
  base : (inst.memOperand i).baseReg = c.executor.wide r
  index : (inst.memOperand i).indexReg = .invalid
  displacement : (inst.memOperand i).displacement = 0
  addressWidth : (inst.memOperand i).addressWidth = c.width
  length : (inst.memOperand i).length = size.bytes

/-- A string instruction with a prefix, as XED lists it: its elements in the usual order, the
counter and the accumulator among its operands; it reads `DF`, and one that compares may write
`ZF`. -/
structure IsRep (c : FlatMachine) (inst : Inst) (op : StringOp) (size : StringSize)
    (again : Bool → Bool) : Prop where
  plain : c.Plain inst
  form : inst.iform.repeats = some (op, size, again)
  /-- An element is no longer than a register. -/
  legal : c.executor.IsLegal size.accumulator
  width : inst.operandWidth = 8 * size.bytes
  length : 0 < inst.length ∧ inst.length ≤ 15
  alone : c.DecodesAlone inst
  countOperand : ∃ o ∈ inst.operands, ∃ x, o.name = .reg x ∧ (inst.reg x).family = some .rcx ∧
    o.written = true
  accumulator : op.usesAccumulator = true → inst.reg .reg0 = size.accumulator ∧
    ∃ o ∈ inst.operands, o.name = .reg .reg0 ∧ (op = .lods → o.written = true)
  cells : ∀ i : Fin 2, match op.cells[i.val]? with
    | some r => c.ElementOperand inst size i r (op.writes && decide (i = 0))
    | none => inst.memoryOperands[i.val]? = none
  flags : ∃ rf, inst.rflags = some rf ∧ rf.read.getLsbD Flag.df.bit = true ∧
    rf.written.getLsbD Flag.zf.bit = op.compares ∧ (op.compares = true → rf.mayWrite = true)

/-- What an environment offers to a string instruction. -/
def elements (c : FlatMachine) (e : Flat c.width) : Elements c.width where
  src := c.gpr e .rsi
  dest := c.gpr e .rdi
  acc := c.gpr e .rax
  zf := e.flags .zf
  mem := e.mem

namespace IsRep

variable (h : c.IsRep inst op size again) (hg : c.Ready e inst g)

include h

theorem count : ∃ o ∈ inst.operands, ∃ x, o.name = .reg x ∧
    (inst.reg x).meant.family = some .rcx ∧ o.written = true := by
  obtain ⟨o, ho, x, hname, hfam, hback⟩ := h.countOperand
  refine ⟨o, ho, x, hname, ?_, hback⟩
  rw [Reg.meant_of_family hfam, hfam]

theorem lods_family (hop : op = .lods) : (inst.reg .reg0).family = some .rax := by
  obtain ⟨hreg, -⟩ := h.accumulator (by rw [hop]; rfl)
  rw [hreg]
  cases size <;> rfl

theorem cell (hi : op.cells[i.val]? = some r) :
    c.ElementOperand inst size i r (op.writes && decide (i = 0)) := by
  have hcell := h.cells i
  rw [hi] at hcell
  exact hcell

/-- There is no adjustment of a displacement. -/
theorem adjustment_eq (i : Fin 2) : c.executor.adjustment inst i = 0 := by
  have hform := h.form
  unfold Executor.adjustment Executor.adjustDisplacement
  obtain rfl | rfl := eq_zero_or_one i
  all_goals cases hf : inst.iform <;> rw [hf] at hform <;> cases hform <;> rfl

include hg

/-- The pointers were read. -/
theorem pointer (hi : op.cells[i.val]? = some r) :
    g.usedRegs (c.executor.wide r) = true ∧ c.executor.gpr g r = c.gpr e r := by
  have hcell := h.cell hi
  obtain ⟨o, ho, -⟩ := hcell.operand
  have hlt : i.val < inst.memoryOperands.length := (List.getElem?_eq_some_iff.mp ho).1
  have hrequested := (hg.requested.memory i hlt).1
  rw [hcell.base] at hrequested
  have hfamily := c.executor.wide_family r
  have hused := hrequested.used (Reg.meant_of_family hfamily ▸ hfamily)
  exact ⟨hused.1, hg.loaded.gpr hused.1⟩

/-- What was read of an element. -/
theorem cellRead (hi : op.cells[i.val]? = some r) :
    (g.memory i).present = true ∧ (g.memory i).writeBack = (op.writes && decide (i = 0)) ∧
      (g.memory i).address = (c.gpr e r).setWidth 64 ∧ (g.memory i).size = 8 * size.bytes ∧
      (g.memory i).data = ByteMemory.load e.mem (c.gpr e r) size.bytes := by
  have hcell := h.cell hi
  obtain ⟨o, ho, hname, hwritten⟩ := hcell.operand
  have hread := hg.cells i
  rw [ho] at hread
  have haddr : c.effectiveAddress inst i g = (c.gpr e r).setWidth 64 := by
    rw [effectiveAddress_wide hcell.base hcell.index hcell.displacement hcell.addressWidth,
      h.adjustment_eq, (h.pointer hg hi).2, AddressSize.setWidth_zero]
    exact congrArg _ (BitVec.add_zero _)
  refine ⟨hread.present, hread.writeBack.trans hwritten, hread.address.trans haddr, ?_, ?_⟩
  · rw [hread.size, hcell.length]
  · rw [hread.data hname, hread.address, haddr, hcell.length, Flat.load,
      AddressSize.setWidth_setWidth]

/-- An element, as `Emulate` sees it. -/
theorem mem_eq (hi : op.cells[i.val]? = some r) :
    g.mem i = ByteMemory.load e.mem (c.gpr e r) size.bytes := by
  obtain ⟨-, -, -, -, hdata⟩ := h.cellRead hg hi
  rw [Globals.mem, hdata, ByteMemory.setWidth_load (by decide)]

/-- The accumulator, as `Emulate` sees it. -/
theorem accumulator_eq (hacc : op.usesAccumulator = true) :
    c.executor.gpr g .rax = c.gpr e .rax ∧
      c.executor.readGPR (inst.reg .reg0) g = size.accumulator.part (c.gpr e .rax) := by
  obtain ⟨hreg, o, ho, hname, -⟩ := h.accumulator hacc
  have hfamily : size.accumulator.family = some .rax := by cases size <;> rfl
  have hgpr : c.executor.gpr g .rax = c.gpr e .rax := by
    refine hg.gpr_operand ho hname ?_
    rw [hreg, Reg.meant_of_family hfamily, hfamily]
  rw [hreg, c.executor.readGPR_eq_part hfamily h.legal, hgpr]
  exact ⟨rfl, rfl⟩

/-- How far a pointer moves. -/
theorem add_stringopInc (p : BitVec c.width) :
    p + (Executor.stringopInc inst g).setWidth _ = moved (e.flags .df) size.bytes p := by
  obtain ⟨rf, hrf, hread, -⟩ := h.flags
  have hdf : Flag.df.get g.aflag = e.flags .df :=
    hg.flags.value rf hrf _ (by rw [get_readMask, RFlagsInfo.enters, hread]; rfl)
  have hbytes : (Executor.opSizeBytes inst).setWidth c.width = BitVec.ofNat _ size.bytes := by
    rw [Executor.opSizeBytes, h.width, Nat.mul_div_cancel_left _ (by decide)]
    exact BitVec.setWidth_ofNat_of_le c.addrSize.bits_le _
  unfold Executor.stringopInc moved
  rw [hdf]
  cases e.flags .df with
  | false => rw [if_neg (by decide), if_neg (by decide), hbytes]
  | true =>
      rw [if_pos rfl, if_pos rfl, BitVec.setWidth_neg_of_le c.addrSize.bits_le, hbytes,
        BitVec.sub_eq_add_neg]

/-- What is written back of the memory: the first element, if there is one to be written. -/
theorem written_mem (he : c.executor.emulate inst nextPC g = .emulated pc g') :
    (c.written g' pc e).mem =
      if op.writes then ByteMemory.store e.mem (c.gpr e .rdi) size.bytes (g'.memory 0).data
      else e.mem := by
  have hplaces (j : Fin 2) := congrFun (c.executor.places_of_emulated he) j
  have hfirst : op.cells[(0 : Fin 2).val]? ≠ none := by cases op <;> decide
  have hread (j : Fin 2) :
      ((g.memory j).present && (g.memory j).writeBack) = (op.writes && decide (j = 0)) := by
    cases hj : op.cells[j.val]? with
    | some r =>
        obtain ⟨hpresent, hback, -⟩ := h.cellRead hg hj
        rw [hpresent, hback, Bool.true_and]
    | none =>
        have hcell := h.cells j
        rw [hj] at hcell
        have hnone := hg.cells j
        rw [hcell] at hnone
        have hne : j ≠ 0 := fun h0 => hfirst (h0 ▸ hj)
        simp [hnone, hne]
  have hback (j : Fin 2) :
      ((g'.memory j).present && (g'.memory j).writeBack) = (op.writes && decide (j = 0)) :=
    (congrArg (fun p : Place => p.present && p.writeBack) (hplaces j)).trans (hread j)
  cases hwrites : op.writes with
  | false =>
      have hno (j : Fin 2) : ((g'.memory j).present && (g'.memory j).writeBack) = false := by
        simpa [hwrites] using hback j
      simp [written, storeCell, hno]
  | true =>
      have hcell : op.cells[(0 : Fin 2).val]? = some .rdi := by
        cases op <;> first | rfl | cases hwrites
      obtain ⟨-, -, haddr, hsize, -⟩ := h.cellRead hg hcell
      have haddr' := (congrArg Place.address (hplaces 0)).trans haddr
      have hsize' := (congrArg Place.size (hplaces 0)).trans hsize
      simp only [Globals.places, Cell.place] at haddr' hsize'
      obtain ⟨hmem, -⟩ := written_one (i := 0) (fun j => by simpa [hwrites] using hback j) pc e
      rw [hmem, haddr', hsize', AddressSize.setWidth_setWidth,
        Nat.mul_div_cancel_left _ (by decide : 0 < 8), if_pos rfl]

/-- What is written back of the flags. -/
theorem written_flags (he : c.executor.emulate inst nextPC g = .emulated pc g') :
    (c.written g' pc e).flags .zf =
        (if op.compares then Flag.zf.get g'.aflag else e.flags .zf) ∧
      (Flag.df.get g'.aflag = Flag.df.get g.aflag →
        (c.written g' pc e).flags .df = e.flags .df) := by
  obtain ⟨rf, hrf, hread, hwritten, -⟩ := h.flags
  have hmask : g'.writeBackFlags = Executor.writeMask rf := by
    have hkept : g'.writeBackFlags = g.writeBackFlags :=
      c.executor.emulate_unaffected (fun _ _ _ => rfl) (fun _ _ _ => rfl) (fun _ _ => rfl) he
    rw [hkept, hg.flags.mask, hrf]
    rfl
  have hdf : Flag.df.get g.aflag = e.flags .df :=
    hg.flags.value rf hrf _ (by rw [get_readMask, RFlagsInfo.enters, hread]; rfl)
  simp only [written, hmask, get_writeMask, hwritten]
  refine ⟨trivial, fun hsame => ?_⟩
  rw [hsame, hdf, ite_self]

/-- Without an iteration everything is written back as it was. -/
theorem elements_kept (he : c.executor.emulate inst nextPC g = .emulated pc g) :
    c.elements (c.written g pc e) = c.elements e := by
  have hgpr (r : Gpr) : c.gpr (c.written g pc e) r = c.gpr e r :=
    hg.gpr_written_of_same he rfl
  have hzf : (c.written g pc e).flags .zf = e.flags .zf := by
    rw [(h.written_flags hg he).1]
    cases hcompares : op.compares with
    | false => rw [if_neg (by decide)]
    | true =>
        obtain ⟨rf, hrf, -, hwritten, hmay⟩ := h.flags
        rw [if_pos rfl]
        refine hg.flags.value rf hrf _ ?_
        rw [get_readMask, RFlagsInfo.enters, hmay hcompares, hwritten, hcompares, Bool.true_and,
          Bool.or_true]
  have hmem : (c.written g pc e).mem = e.mem := by
    rw [h.written_mem hg he]
    cases hwrites : op.writes with
    | false => rw [if_neg (by decide)]
    | true =>
        have hcell : op.cells[(0 : Fin 2).val]? = some .rdi := by
          cases op <;> first | rfl | cases hwrites
        obtain ⟨-, -, -, -, hdata⟩ := h.cellRead hg hcell
        have hbytes := size.bytes_le
        rw [if_pos rfl, hdata, ByteMemory.store_load (by omega)]
  ext1
  · exact hgpr .rsi
  · exact hgpr .rdi
  · exact hgpr .rax
  · exact hzf
  · exact hmem

/-- A register after an iteration, written back or not. -/
theorem gpr_done {v : Word}
    (he : c.executor.emulate inst nextPC g = .emulated pc
      (c.executor.writeGPR (c.executor.wide .rcx) v (c.executor.stringStep inst op g)))
    (hr : r ≠ .rcx) :
    c.gpr (c.written (c.executor.writeGPR (c.executor.wide .rcx) v
        (c.executor.stringStep inst op g)) pc e) r =
      if r = .rsi ∧ op.usesSrc = true ∨ r = .rdi ∧ op.usesDest = true then
        moved (e.flags .df) size.bytes (c.gpr e r)
      else if r = .rax ∧ op = .lods then
        size.accumulator.merge (c.gpr e .rax) (ByteMemory.load e.mem (c.gpr e .rsi) size.bytes)
      else c.gpr e r := by
  have hvalue := c.executor.gpr_stringStep (g := g) h.lods_family r
  have hkept : c.executor.gpr (c.executor.writeGPR (c.executor.wide .rcx) v
      (c.executor.stringStep inst op g)) r = c.executor.gpr (c.executor.stringStep inst op g) r := by
    rw [Executor.gpr_writeGPR_wide, if_neg hr]
  split_ifs at hvalue ⊢ with hpointer haccumulator
  · -- a pointer
    obtain ⟨i, hi⟩ : ∃ i : Fin 2, op.cells[i.val]? = some r := by
      rcases hpointer with ⟨rfl, huses⟩ | ⟨rfl, huses⟩
      · exact StringOp.exists_cell_src huses
      · exact StringOp.exists_cell_dest huses
    obtain ⟨hused, hgpr⟩ := h.pointer hg hi
    have hmarked : (c.executor.stringStep inst op g).modifiedRegs (c.executor.wide r) = true :=
      c.executor.modified_stringStep hpointer
    rw [gpr_written_of_modified, hkept, hvalue, hgpr, h.add_stringopInc hg]
    · rw [used_of_emulated he, hused]
    · rw [Executor.modifiedRegs_writeGPR, hmarked]
  · -- the accumulator
    obtain ⟨rfl, rfl⟩ := haccumulator
    obtain ⟨hreg, o, ho, hname, hwritten⟩ := h.accumulator rfl
    have hmeant : (inst.reg .reg0).meant.family = some .rax := by
      rw [Reg.meant_of_family (h.lods_family rfl), h.lods_family rfl]
    rw [hg.gpr_written_operand he ho hname hmeant (.inl (hwritten rfl)), hkept, hvalue, hreg,
      (h.accumulator_eq hg rfl).1, h.mem_eq hg (i := 0) rfl]
  · exact hg.gpr_written_of_same he (hkept.trans hvalue)

/-- An iteration does one element. -/
theorem elements_done {v : Word}
    (he : c.executor.emulate inst nextPC g = .emulated pc
      (c.executor.writeGPR (c.executor.wide .rcx) v (c.executor.stringStep inst op g))) :
    c.elements (c.written (c.executor.writeGPR (c.executor.wide .rcx) v
        (c.executor.stringStep inst op g)) pc e) =
      op.element size (e.flags .df) (c.elements e) := by
  have hsrc := h.gpr_done hg he (r := .rsi) (by decide)
  have hdest := h.gpr_done hg he (r := .rdi) (by decide)
  have hacc := h.gpr_done hg he (r := .rax) (by decide)
  have hzf := (h.written_flags hg he).1
  have hmem := h.written_mem hg he
  rw [c.executor.aflag_writeGPR (c.executor.wide_family .rcx),
    c.executor.aflag_stringStep h.lods_family] at hzf
  rw [Executor.memory_writeGPR, Executor.memory_stringStep] at hmem
  ext1
  · rw [StringOp.element_src]
    exact hsrc.trans (by simp [elements])
  · rw [StringOp.element_dest]
    exact hdest.trans (by simp [elements])
  · rw [StringOp.element_acc]
    exact hacc.trans (by simp [elements])
  · refine hzf.trans ?_
    cases op with
    | scas =>
        refine (if_pos rfl).trans ((zf_updateFlagsSub _ _ _ _).trans ?_)
        rw [(h.accumulator_eq hg rfl).2, h.mem_eq hg (i := 0) rfl]
        rfl
    | cmps =>
        refine (if_pos rfl).trans ((zf_updateFlagsSub _ _ _ _).trans ?_)
        rw [h.mem_eq hg (i := 0) rfl, h.mem_eq hg (i := 1) rfl]
        rfl
    | _ => rfl
  · refine hmem.trans ?_
    cases op with
    | stos =>
        refine (if_pos rfl).trans ((size.store_setMem _ _ _ _ _).trans ?_)
        rw [(h.accumulator_eq hg rfl).2]
        rfl
    | movs =>
        refine (if_pos rfl).trans ((size.store_setMem _ _ _ _ _).trans ?_)
        rw [h.mem_eq hg (i := 1) rfl]
        rfl
    | _ => rfl

end IsRep

/-! ## one call of `Execute(1)` -/

/-- An instruction has a length, so what is behind it is elsewhere. -/
theorem IsRep.behind_ne (h : c.IsRep inst op size again) (e : Flat c.width) :
    c.behind inst e ≠ c.pc e := by
  intro hbehind
  have hzero : BitVec.ofNat c.width inst.length = 0#c.width := BitVec.add_right_eq_self.mp hbehind
  have hpow : 2 ^ 32 ≤ 2 ^ c.width := Nat.pow_le_pow_right (by decide) c.addrSize.le_bits
  have hnat := congrArg BitVec.toNat hzero
  have hlength := h.length
  rw [BitVec.toNat_ofNat, Nat.mod_eq_of_lt (by omega)] at hnat
  exact Nat.ne_of_gt hlength.1 hnat

namespace IsRep

variable (h : c.IsRep inst op size again) (hg : c.Ready w.env inst g)

include h hg

theorem readGPR_counter : c.executor.readGPR c.executor.countReg g = (counter w).setWidth 64 := by
  obtain ⟨o, ho, x, hname, hmeant, -⟩ := h.count
  have hgpr : c.executor.gpr g .rcx = counter w := hg.gpr_operand ho hname hmeant
  rw [← hgpr]
  exact c.executor.readGPR_wide .rcx g

theorem counter_written (he : c.executor.emulate inst nextPC g = .emulated pc g') :
    c.gpr (c.written g' pc w.env) .rcx = c.executor.gpr g' .rcx := by
  obtain ⟨o, ho, x, hname, hmeant, hback⟩ := h.count
  exact hg.gpr_written_operand he ho hname hmeant (.inl hback)

theorem emulate_none (hzero : counter w = 0) :
    c.executor.emulate inst (c.executor.getNextPC inst g) g =
      .emulated (c.executor.truncatePC (c.executor.getNextPC inst g)) g := by
  have hcount : (counter w).setWidth 64 = 0 := by
    rw [hzero]
    simp
  rw [c.executor.emulate_repeats h.form, Executor.repeated, h.readGPR_counter hg]
  exact if_neg fun hne => hne hcount

theorem emulate_one (hpos : counter w ≠ 0) :
    ∃ pc, c.executor.emulate inst (c.executor.getNextPC inst g) g =
        .emulated pc (c.executor.writeGPR (c.executor.wide .rcx) ((counter w).setWidth 64 - 1)
          (c.executor.stringStep inst op g)) ∧
      pc.setWidth c.width =
        if counter w - 1 ≠ 0 ∧ again (Flag.zf.get (c.executor.flagsAfter inst op g)) = true then
          c.pc w.env
        else c.behind inst w.env := by
  have hcount : (counter w).setWidth 64 ≠ 0 := fun h0 =>
    hpos (c.addrSize.setWidth_inj (h0.trans (by simp)))
  have hone : (counter w).setWidth 64 - 1 ≠ 0 ↔ counter w - 1 ≠ 0 := by
    rw [sub_ne_zero, sub_ne_zero]
    exact not_congr ⟨fun h1 => c.addrSize.setWidth_inj (h1.trans c.addrSize.one_setWidth.symm),
      fun h1 => by rw [h1, c.addrSize.one_setWidth]⟩
  have hflags : (c.executor.writeGPR c.executor.countReg ((counter w).setWidth 64 - 1)
      (c.executor.stringStep inst op g)).aflag = c.executor.flagsAfter inst op g :=
    (c.executor.aflag_writeGPR (c.executor.wide_family .rcx) _ _).trans
      (c.executor.aflag_stringStep h.lods_family)
  have he := c.executor.emulate_repeats h.form (c.executor.getNextPC inst g) g
  rw [Executor.repeated, h.readGPR_counter hg] at he
  dsimp only at he
  rw [if_pos hcount, hflags] at he
  split at he
  case isTrue hgo =>
    refine ⟨_, he, ?_⟩
    rw [if_pos ⟨hone.mp hgo.1, hgo.2⟩]
    exact hg.setWidth_rip
  case isFalse hstop =>
    refine ⟨_, he, ?_⟩
    rw [if_neg fun hgo => hstop ⟨hone.mpr hgo.1, hgo.2⟩]
    exact (setWidth_truncatePC _).trans hg.setWidth_getNextPC

end IsRep

/-- With a counter of zero `Execute(1)` leaves the instruction. -/
theorem rep_none (h : c.IsRep inst op size again) (hd : c.Decodes w.env inst)
    (hzero : counter w = 0) :
    ∃ w', c.Step w w' ∧ counter w' = 0 ∧ c.elements w'.env = c.elements w.env ∧
      c.pc w'.env = c.behind inst w.env := by
  obtain ⟨g, hg, hrun⟩ := step_flat h.plain hd
  have he := h.emulate_none hg hzero
  obtain ⟨w', hstep, henv, -⟩ := hrun _ _ he
  refine ⟨w', hstep, ?_, ?_, ?_⟩
  · rw [counter, henv, hg.gpr_written_of_same he rfl]
    exact hzero
  · rw [henv]
    exact h.elements_kept hg he
  · rw [henv, pc_written]
    exact (setWidth_truncatePC _).trans hg.setWidth_getNextPC

/-- Otherwise it does one element, and stays while there is more to do. -/
theorem rep_step (h : c.IsRep inst op size again) (hd : c.Decodes w.env inst)
    (hpos : counter w ≠ 0) :
    ∃ w', c.Step w w' ∧ w'.env.flags .df = w.env.flags .df ∧ counter w' = counter w - 1 ∧
      c.elements w'.env = op.element size (w.env.flags .df) (c.elements w.env) ∧
      c.pc w'.env = if counter w - 1 ≠ 0 ∧ again (c.elements w'.env).zf = true then c.pc w.env
        else c.behind inst w.env := by
  obtain ⟨g, hg, hrun⟩ := step_flat h.plain hd
  obtain ⟨pc, he, hpc⟩ := h.emulate_one hg hpos
  obtain ⟨w', hstep, henv, -⟩ := hrun _ _ he
  obtain ⟨hzf, hdf⟩ := h.written_flags hg he
  have haflag := (c.executor.aflag_writeGPR (c.executor.wide_family .rcx)
    ((counter w).setWidth 64 - 1) _).trans (c.executor.aflag_stringStep (g := g) h.lods_family)
  -- The condition looks at the flag that is written back.
  have hagain : again (Flag.zf.get (c.executor.flagsAfter inst op g)) =
      again (c.elements w'.env).zf := by
    obtain hcompares | hall := IForm.compares_of_repeats h.form
    · rw [← henv, if_pos hcompares, haflag] at hzf
      exact congrArg again hzf.symm
    · rw [hall]
  refine ⟨w', hstep, ?_, ?_, ?_, ?_⟩
  · rw [henv]
    exact hdf (by rw [haflag, c.executor.df_flagsAfter])
  · rw [counter, henv, h.counter_written hg he, Executor.gpr_writeGPR_wide, if_pos rfl,
      AddressSize.setWidth_sub, AddressSize.setWidth_setWidth, AddressSize.setWidth_one]
  · rw [henv]
    exact h.elements_done hg he
  · rw [← hagain, henv, pc_written, hpc]

/-! ## all calls -/

/-- `Execute(1)`, repeated while the program counter is `pc`, ends after `n` calls. -/
inductive RepeatsFor (c : FlatMachine) (pc : BitVec c.width) :
    Nat → World (Flat c.width) → World (Flat c.width) → Prop
  | leave {w w' : World (Flat c.width)} : c.Step w w' → c.pc w'.env ≠ pc → RepeatsFor c pc 1 w w'
  | stay {n : Nat} {w w₁ w' : World (Flat c.width)} : c.Step w w₁ → c.pc w₁.env = pc →
      RepeatsFor c pc n w₁ w' → RepeatsFor c pc (n + 1) w w'

theorem RepeatsFor.unique {pc : BitVec c.width} {m n : Nat} {w w₁ w₂ : World (Flat c.width)}
    (h₁ : c.RepeatsFor pc m w w₁) (h₂ : c.RepeatsFor pc n w w₂) : m = n ∧ w₁ = w₂ := by
  induction h₁ generalizing n w₂ with
  | leave hstep hpc =>
      cases h₂ with
      | leave hstep' => exact ⟨rfl, hstep.unique hstep'⟩
      | stay hstep' hpc' =>
          rw [hstep.unique hstep'] at hpc
          contradiction
  | stay hstep hpc _ ih =>
      cases h₂ with
      | leave hstep' hpc' =>
          rw [hstep.unique hstep'] at hpc
          contradiction
      | stay hstep' _ hrest =>
          rw [hstep.unique hstep'] at ih
          obtain ⟨rfl, rfl⟩ := ih hrest
          exact ⟨rfl, rfl⟩

/-- One iteration of the processor's loop from a state on. -/
def body (op : StringOp) (size : StringSize) (w : World (Flat c.width)) :
    Elements c.width → Elements c.width := op.element size (w.env.flags .df)

/-- How many iterations the processor's loop has. -/
def rounds (op : StringOp) (size : StringSize) (again : Bool → Bool) (w : World (Flat c.width)) :
    Nat :=
  Countdown.rounds (body op size w) (fun x => again x.zf) (counter w).toNat (c.elements w.env)

/-- No iteration overwrites the instruction. -/
def KeepsCode (inst : Inst) (op : StringOp) (size : StringSize) (again : Bool → Bool)
    (w : World (Flat c.width)) : Prop :=
  ∀ j < rounds op size again w, ∀ k < inst.length,
    ((body op size w)^[j] (c.elements w.env)).mem (c.pc w.env + BitVec.ofNat _ k) =
      w.env.mem (c.pc w.env + BitVec.ofNat _ k)

/-- An instruction that writes nothing keeps itself. -/
theorem keepsCode_of_not_writes (hop : op.writes = false) (w : World (Flat c.width)) :
    KeepsCode inst op size again w := by
  have hmem (j : Nat) (x : Elements c.width) : ((body op size w)^[j] x).mem = x.mem := by
    induction j generalizing x with
    | zero => rfl
    | succ j ih =>
        rw [Function.iterate_succ_apply, ih]
        cases op <;> first | rfl | contradiction
  intro j _ k _
  rw [hmem]
  rfl

/-- From `w` to `w₁` one iteration was done, and the program counter stayed. -/
structure Stays (op : StringOp) (size : StringSize) (again : Bool → Bool)
    (w w₁ : World (Flat c.width)) : Prop where
  direction : w₁.env.flags .df = w.env.flags .df
  counter : (counter w₁).toNat + 1 = (counter w).toNat
  elements : c.elements w₁.env = body op size w (c.elements w.env)
  goesOn : again (c.elements w₁.env).zf = true
  pc : c.pc w₁.env = c.pc w.env

namespace Stays

variable {w₁ : World (Flat c.width)} (h : Stays op size again w w₁)

include h

theorem body_eq : body op size w₁ = body op size w := by
  rw [body, h.direction, body]

/-- Any number of further iterations. -/
theorem iterate_eq (j : Nat) : (body op size w₁)^[j] (c.elements w₁.env) =
    (body op size w)^[j + 1] (c.elements w.env) := by
  rw [h.body_eq, h.elements, Function.iterate_succ_apply]

theorem rounds_eq : rounds op size again w = rounds op size again w₁ + 1 := by
  have hgoesOn := h.goesOn
  rw [h.elements] at hgoesOn
  rw [rounds, ← h.counter, Countdown.rounds_succ_of_again hgoesOn, rounds, h.body_eq, h.elements]

theorem keepsCode (hpos : 0 < rounds op size again w₁) (hk : KeepsCode inst op size again w) :
    (∀ k < inst.length, w₁.env.mem (c.pc w.env + BitVec.ofNat _ k) =
      w.env.mem (c.pc w.env + BitVec.ofNat _ k)) ∧ KeepsCode inst op size again w₁ := by
  have hrounds := h.rounds_eq
  have hsame (k : Nat) (hlt : k < inst.length) :
      w₁.env.mem (c.pc w.env + BitVec.ofNat _ k) = w.env.mem (c.pc w.env + BitVec.ofNat _ k) := by
    rw [← hk 1 (by omega) k hlt]
    exact congrFun (congrArg Elements.mem h.elements) _
  refine ⟨hsame, fun j hj k hlt => ?_⟩
  rw [h.iterate_eq, h.pc, hsame k hlt]
  exact hk (j + 1) (by omega) k hlt

end Stays

/-- A counter that is not down yet. -/
theorem pred_of_toNat {v n : Nat} {x : BitVec v} (hn : x.toNat = n + 1) :
    x ≠ 0 ∧ (x - 1).toNat = n ∧ (x - 1 = 0 ↔ n = 0) := by
  have hpos : x ≠ 0 := by
    rintro rfl
    simp at hn
  have hpred := Bits.toNat_pred hpos
  refine ⟨hpos, by omega, fun h0 => ?_, fun h0 => BitVec.eq_of_toNat_eq ?_⟩
  · have hzero := congrArg BitVec.toNat h0
    simp only [BitVec.ofNat_eq_ofNat, BitVec.toNat_ofNat, Nat.zero_mod] at hzero hpred
    omega
  · simp only [BitVec.ofNat_eq_ofNat, BitVec.toNat_ofNat, Nat.zero_mod] at hpred ⊢
    omega

/-- The loop, if there is at least one iteration. -/
theorem rep_run (h : c.IsRep inst op size again) (n : Nat) : ∀ w : World (Flat c.width),
    (counter w).toNat = n + 1 → c.Decodes w.env inst → KeepsCode inst op size again w →
    ∃ w', c.RepeatsFor (c.pc w.env) (rounds op size again w) w w' ∧
      (counter w').toNat + rounds op size again w = n + 1 ∧
      c.elements w'.env = (body op size w)^[rounds op size again w] (c.elements w.env) ∧
      c.pc w'.env = c.behind inst w.env := by
  induction n with
  | zero =>
      intro w hn hd _
      obtain ⟨hpos, hpred, hlast⟩ := pred_of_toNat hn
      obtain ⟨w', hstep, -, hcount, helements, hpc⟩ := rep_step h hd hpos
      have hrounds : rounds op size again w = 1 := by
        rw [rounds, hn, Countdown.rounds_one]
      rw [if_neg fun hgo => hgo.1 (hlast.mpr rfl)] at hpc
      rw [hrounds]
      exact ⟨w', .leave hstep (hpc ▸ h.behind_ne w.env), by rw [hcount, hpred], helements, hpc⟩
  | succ n ih =>
      intro w hn hd hk
      obtain ⟨hpos, hpred, hlast⟩ := pred_of_toNat hn
      obtain ⟨w₁, hstep, hdf, hcount, helements, hpc⟩ := rep_step h hd hpos
      have hn₁ : (counter w₁).toNat = n + 1 := by rw [hcount, hpred]
      by_cases hgo : again (c.elements w₁.env).zf = true
      · -- the program counter stays
        rw [if_pos ⟨mt hlast.mp (Nat.succ_ne_zero n), hgo⟩] at hpc
        have hstays : Stays op size again w w₁ := ⟨hdf, by omega, helements, hgo, hpc⟩
        have hfirst : 0 < rounds op size again w₁ := by
          rw [rounds, hn₁]
          exact Countdown.rounds_pos _ _ _ _
        obtain ⟨hsame, hk₁⟩ := hstays.keepsCode hfirst hk
        obtain ⟨w', hleaves, hcount', helements', hpc'⟩ :=
          ih w₁ hn₁ (h.alone.decodes hd hpc hsame) hk₁
        rw [hpc] at hleaves
        rw [hstays.rounds_eq]
        refine ⟨w', .stay hstep hpc hleaves, by omega, ?_, ?_⟩
        · rw [helements', hstays.iterate_eq]
        · rw [hpc', behind, hpc, behind]
      · -- the condition fails
        rw [if_neg fun hgo' => hgo hgo'.2] at hpc
        have hrounds : rounds op size again w = 1 := by
          rw [rounds, hn]
          refine Countdown.rounds_succ_of_not_again ?_
          rw [← Bool.not_eq_true]
          rw [helements] at hgo
          exact hgo
        rw [hrounds]
        exact ⟨w₁, .leave hstep (hpc ▸ h.behind_ne w.env), by omega, helements, hpc⟩

/-- The loop, with any counter. -/
theorem rep_ends (h : c.IsRep inst op size again) (hd : c.Decodes w.env inst)
    (hk : KeepsCode inst op size again w) :
    ∃ w', c.RepeatsFor (c.pc w.env) (max 1 (rounds op size again w)) w w' ∧
      (counter w').toNat + rounds op size again w = (counter w).toNat ∧
      c.elements w'.env = (body op size w)^[rounds op size again w] (c.elements w.env) ∧
      c.pc w'.env = c.behind inst w.env := by
  cases hn : (counter w).toNat with
  | zero =>
      have hzero : counter w = 0 := BitVec.eq_of_toNat_eq (by simpa using hn)
      obtain ⟨w', hstep, hcount, helements, hpc⟩ := rep_none h hd hzero
      have hrounds : rounds op size again w = 0 := by
        rw [rounds, hn, Countdown.rounds]
      rw [hrounds]
      exact ⟨w', .leave hstep (hpc ▸ h.behind_ne w.env), by simp [hcount], helements, hpc⟩
  | succ n =>
      have hpos : 0 < rounds op size again w := by
        rw [rounds, hn]
        exact Countdown.rounds_pos _ _ _ _
      rw [Nat.max_eq_right hpos]
      exact rep_run h n w hn hd hk

/-- **One iteration at a time is the processor's loop.**  `Execute(1)`, repeated while the program
counter stays on the instruction, ends after as many calls as the loop has iterations, or after one
if it has none, and then the count, the pointers, the accumulator, `ZF` and the memory are those of
the loop. -/
theorem rep_is_loop (h : c.IsRep inst op size again) (hd : c.Decodes w.env inst)
    (hk : KeepsCode inst op size again w) :
    Countdown.IsRounds (body op size w) (fun x => again x.zf) (counter w).toNat
        (c.elements w.env) (rounds op size again w) ∧
      ((∀ z, again z = true) → rounds op size again w = (counter w).toNat) ∧
      ∃ w', (∀ m w'', c.RepeatsFor (c.pc w.env) m w w'' ↔
          m = max 1 (rounds op size again w) ∧ w'' = w') ∧
        (counter w').toNat = (counter w).toNat - rounds op size again w ∧
        (op.usesSrc = true → c.gpr w'.env .rsi =
          moved (w.env.flags .df) (rounds op size again w * size.bytes) (c.gpr w.env .rsi)) ∧
        (op.usesDest = true → c.gpr w'.env .rdi =
          moved (w.env.flags .df) (rounds op size again w * size.bytes) (c.gpr w.env .rdi)) ∧
        c.elements w'.env = (body op size w)^[rounds op size again w] (c.elements w.env) ∧
        c.pc w'.env = c.behind inst w.env := by
  have hrounds := Countdown.isRounds_rounds (body op size w) (fun x => again x.zf)
    (counter w).toNat (c.elements w.env)
  obtain ⟨w', hleaves, hcount, helements, hpc⟩ := rep_ends h hd hk
  obtain ⟨hsrc, hdest⟩ := op.iterate_element size (w.env.flags .df) (rounds op size again w)
    (c.elements w.env)
  refine ⟨hrounds, fun hall => hrounds.eq_of_forall fun x => hall x.zf, w', fun m w'' => ⟨?_, ?_⟩,
    by omega, fun huses => ?_, fun huses => ?_, helements, hpc⟩
  · intro hm
    exact hm.unique hleaves
  · rintro ⟨rfl, rfl⟩
    exact hleaves
  · rw [if_pos huses] at hsrc
    exact (congrArg Elements.src helements).trans hsrc
  · rw [if_pos huses] at hdest
    exact (congrArg Elements.dest helements).trans hdest

/-! ### a sample -/

theorem isRep_repeScas : repeScasMachine.IsRep repeScas .scas .b id where
  plain := plain_repeScas
  form := rfl
  legal := by
    unfold Executor.IsLegal
    decide
  width := rfl
  length := by decide
  alone := by
    intro bytes bytes' hdecode hlength _
    cases bytes with
    | nil => cases hdecode
    | cons b bytes =>
        cases bytes' with
        | nil => cases hlength
        | cons b' bytes' => rfl
  countOperand := ⟨.register .reg2 true, by simp [repeScas, Inst.scalar], .reg2, rfl, rfl, rfl⟩
  accumulator := fun _ => ⟨rfl, .register .reg0 false, by simp [repeScas, Inst.scalar], rfl, fun h => by cases h⟩
  cells := by
    intro i
    obtain rfl | rfl := eq_zero_or_one i
    · exact ⟨⟨_, rfl, (fun h => by cases h), rfl⟩, rfl, rfl, rfl, rfl, rfl⟩
    · rfl
  flags := ⟨repeScasFlags, rfl, by decide, by decide, fun _ => rfl⟩

/-- `RCX` is two, and everything else is zero. -/
def repeScasTwo : World (Flat repeScasMachine.width) :=
  .start ⟨Function.update (fun _ => 0) (.gpr64 .rcx) 2, fun _ => false, fun _ => 0⟩

theorem rounds_repeScasTwo : rounds .scas .b id repeScasTwo = 2 := by decide +kernel

/-- Both bytes are equal to `AL`, and the instruction takes two calls. -/
theorem rep_is_loop_repeScas :
    ∃ w', repeScasMachine.RepeatsFor (repeScasMachine.pc repeScasTwo.env) 2 repeScasTwo w' ∧
      (counter w').toNat = 0 := by
  have hd : repeScasMachine.Decodes repeScasTwo.env repeScas := decodes_sample rfl
  obtain ⟨-, -, w', hleaves, hcount, -⟩ :=
    rep_is_loop isRep_repeScas hd (keepsCode_of_not_writes rfl repeScasTwo)
  have htwo : (counter repeScasTwo).toNat = 2 := by decide +kernel
  rw [rounds_repeScasTwo, htwo] at hcount
  exact ⟨w', (hleaves 2 w').mpr ⟨by rw [rounds_repeScasTwo]; rfl, rfl⟩, hcount⟩

end FlatMachine

end Microx
