import Microx.Executor.FlatRead
import Microx.Executor.Guard
import Microx.Executor.Stepping
import Microx.Executor.Traffic

/-!
# Microx.Executor.BitString

`BT`, `BTS`, `BTR` and `BTC` with a bit offset in a register.

The operand in memory is the start of a bit string, and the offset is a signed
number: it selects a cell before or behind the start, and a bit in that cell.
The code divides the offset as an unsigned number and goes eight bytes for each
cell, whatever the width; `CellReached` says for which offsets this comes to the
same address.  The bit number that it leaves in the register is always right,
and the register of the environment never changes.
-/

namespace Microx

open Hoare

variable {σ : Type}

/-- The width of addresses of a memory operand. -/
def addressBits (addressWidth : Nat) : Nat :=
  if addressWidth = 32 then 32 else if addressWidth = 16 then 16 else 64

theorem addressBits_le (aw : Nat) : addressBits aw ≤ 64 := by
  unfold addressBits
  split_ifs <;> decide

theorem truncateAddress_eq_iff (aw : Nat) (x y : Word) :
    Executor.truncateAddress aw x = Executor.truncateAddress aw y ↔
      x.setWidth (addressBits aw) = y.setWidth (addressBits aw) := by
  have hinj (n : Nat) (hn : n ≤ 64) : (x.setWidth n).setWidth 64 = (y.setWidth n).setWidth 64 ↔
      x.setWidth n = y.setWidth n := by
    constructor
    · intro h
      have h' := congrArg (BitVec.setWidth n) h
      rw [BitVec.setWidth_setWidth_of_le _ hn, BitVec.setWidth_setWidth_of_le _ hn,
        BitVec.setWidth_eq, BitVec.setWidth_eq] at h'
      exact h'
    · intro h
      rw [h]
  by_cases h32 : aw = 32
  · subst h32
    exact hinj 32 (by decide)
  · by_cases h16 : aw = 16
    · subst h16
      exact hinj 16 (by decide)
    · have h64 : addressBits aw = 64 := by simp [addressBits, h32, h16]
      rw [h64]
      simp [Executor.truncateAddress, h32, h16]

/-- The address that the code computes reaches the cell with the bit at offset `k`. -/
def CellReached (w aw : Nat) (k : Int) : Prop :=
  (0 ≤ k ∧ k < w) ∨ (w = 64 ∧ (0 ≤ k ∨ addressBits aw ≠ 64)) ∨
    (w = 32 ∧ addressBits aw = 16 ∧ k / 32 % 2 ^ 14 = 0)

theorem cellReached_iff {w aw : Nat} (hw : w = 16 ∨ w = 32 ∨ w = 64) (x : BitVec w) :
    (8 * (x.setWidth 64 / BitVec.ofNat 64 w)).setWidth (addressBits aw) =
      (BitVec.ofInt 64 ((w / 8 : Nat) * (x.toInt / w))).setWidth (addressBits aw) ↔
        CellReached w aw x.toInt := by
  have haw : addressBits aw = 16 ∨ addressBits aw = 32 ∨ addressBits aw = 64 := by
    unfold addressBits
    split_ifs <;> simp
  have hlt := x.isLt
  unfold CellReached
  generalize addressBits aw = n at *
  rw [← BitVec.toNat_inj, BitVec.toNat_setWidth, BitVec.toNat_setWidth, BitVec.toNat_mul,
    BitVec.toNat_udiv, BitVec.toNat_setWidth, BitVec.toNat_ofInt, BitVec.toNat_ofNat,
    BitVec.toInt_eq_toNat_cond]
  generalize x.toNat = t at *
  rcases hw with rfl | rfl | rfl <;> rcases haw with rfl | rfl | rfl <;> simp <;> split <;> omega

/-! ## the instructions -/

/-- `BT`, `BTS`, `BTR` or `BTC` with an operand in memory and a bit offset in a register, the way
XED lists its operands. -/
structure IsBitString (ex : Executor σ) (inst : Inst) : Prop where
  form : ∃ op lock, inst.iform = .bitMEMvGPRv op lock ∧ (op = .bt → lock = false)
  operandWidth : inst.operandWidth = 16 ∨ inst.operandWidth = 32 ∨ inst.operandWidth = 64
  family : ∃ r, (inst.reg .reg0).family = some r
  width : ex.width (inst.reg .reg0) = inst.operandWidth
  memory : ∃ op, inst.memoryOperands = [op] ∧ op.name = .mem0
  writes : ∀ op ∈ inst.operands, op.written = true → ∀ r, op.name = .reg r →
    (inst.reg r).largestEnclosing = .rflags
  noStack : ¬inst.UsesStackOp
  notNop : Executor.isNop inst = false

/-- An environment that adds the parts of an address to the base of the segment. -/
def AddsUp (ex : Executor σ) (segBase : RegName → Word) : Prop :=
  ∀ seg base index scale disp size hint s,
    (ex.computeAddress seg base index scale disp size hint s).1 =
      segBase seg + base + index * scale + disp

namespace Executor

variable (ex : Executor σ)

/-- The bit offset, a signed number as wide as the operand. -/
def bitOffset (inst : Inst) (g : Globals) : Int :=
  ((ex.readGPR (inst.reg .reg0) g).setWidth inst.operandWidth).toInt

/-- The address that the memory operand has by itself. -/
def baseAddress (segBase : RegName → Word) (inst : Inst) (g : Globals) : Word :=
  segBase (.reg (segmentReg (inst.memOperand 0))) + ex.memBase inst (inst.memOperand 0) g +
    ex.readGPR (inst.memOperand 0).indexReg g * (inst.memOperand 0).scale +
    (inst.memOperand 0).displacement

/-- The address of the cell that has the bit. -/
def bitCell (segBase : RegName → Word) (inst : Inst) (g : Globals) : Word :=
  truncateAddress (inst.memOperand 0).addressWidth (ex.baseAddress segBase inst g +
    BitVec.ofInt 64 ((inst.operandWidth / 8 : Nat) * (ex.bitOffset inst g / inst.operandWidth)))

/-- The address of the cell that `ReadMemory` takes. -/
def takenCell (segBase : RegName → Word) (inst : Inst) (g : Globals) : Word :=
  truncateAddress (inst.memOperand 0).addressWidth (ex.baseAddress segBase inst g +
    8 * (ex.readGPR (inst.reg .reg0) g / BitVec.ofNat 64 inst.operandWidth))

end Executor

section

variable {ex : Executor σ} {inst : Inst} (hb : IsBitString ex inst)

include hb

theorem IsBitString.readGPR_eq (g : Globals) : ∃ r, ex.readGPR (inst.reg .reg0) g =
    ((g.regs (.gpr64 r)).setWidth inst.operandWidth).setWidth 64 := by
  obtain ⟨r, hr⟩ := hb.family
  have hw := hb.operandWidth
  rw [← hb.width] at hw ⊢
  refine ⟨r, ?_⟩
  rw [Executor.readGPR, Globals.readGPR]
  unfold Globals.readValue Executor.width at *
  rw [Reg.largestEnclosing_of_family hr]
  cases hreg : inst.reg .reg0 <;> simp_all [Reg.family, Reg.isGPR8h, Reg.widthBits64]

theorem IsBitString.readGPR_writeGPR (v : Word) (g : Globals) :
    ex.readGPR (inst.reg .reg0) (ex.writeGPR (inst.reg .reg0) v g) =
      (v.setWidth inst.operandWidth).setWidth 64 := by
  obtain ⟨r, hr⟩ := hb.family
  have hw := hb.operandWidth
  rw [← hb.width] at hw ⊢
  cases hreg : inst.reg .reg0 with
  | gpr64 f | gpr32 f | gpr16 f =>
      simp [Executor.readGPR, Executor.writeGPR, Globals.readGPR, Globals.writeGPR,
        Globals.readValue, Globals.writeValue, Globals.setReg, Executor.width, Reg.widthBits64,
        Reg.isGPR8h, Bits.setWidth_put]
  | gpr8 f => simp [hreg, Executor.width, Reg.widthBits64] at hw
  | gpr8h f => simp [hreg, Executor.width, Reg.widthBits64] at hw
  | _ => simp [hreg, Reg.family] at hr

/-- The bit offset, read without its sign. -/
theorem IsBitString.readGPR_bits (g : Globals) :
    ∃ x : BitVec inst.operandWidth, ex.readGPR (inst.reg .reg0) g = x.setWidth 64 ∧
      ex.bitOffset inst g = x.toInt := by
  obtain ⟨r, hr⟩ := hb.readGPR_eq g
  have hw : inst.operandWidth ≤ 64 := by
    rcases hb.operandWidth with h | h | h <;> rw [h] <;> decide
  refine ⟨_, hr, ?_⟩
  rw [Executor.bitOffset, hr, BitVec.setWidth_setWidth_of_le _ hw, BitVec.setWidth_eq]

theorem IsBitString.adjustDisplacement_eq (g : Globals) :
    ex.adjustDisplacement inst 0 g =
      (8 * (ex.readGPR (inst.reg .reg0) g / BitVec.ofNat 64 inst.operandWidth),
        ex.writeGPR (inst.reg .reg0)
          (ex.readGPR (inst.reg .reg0) g % BitVec.ofNat 64 inst.operandWidth) g) := by
  obtain ⟨op, lock, hform, hlock⟩ := hb.form
  unfold Executor.adjustDisplacement Executor.getBitOpByteOffset
  rw [hform]
  cases op with
  | bt =>
      rw [hlock rfl]
      rfl
  | bts => rfl
  | btc => rfl
  | btr => rfl

/-- The bit number that is left in the register. -/
theorem IsBitString.bitNumber_eq (g : Globals) :
    ex.readGPR (inst.reg .reg0) (ex.writeGPR (inst.reg .reg0)
      (ex.readGPR (inst.reg .reg0) g % BitVec.ofNat 64 inst.operandWidth) g) =
      BitVec.ofInt 64 (ex.bitOffset inst g % inst.operandWidth) := by
  obtain ⟨x, hx, hoffset⟩ := hb.readGPR_bits g
  have hw := hb.operandWidth
  have hlt := x.isLt
  rw [hb.readGPR_writeGPR, hoffset, hx]
  generalize inst.operandWidth = w at *
  apply BitVec.eq_of_toNat_eq
  rw [BitVec.toNat_setWidth, BitVec.toNat_setWidth, BitVec.toNat_umod, BitVec.toNat_setWidth,
    BitVec.toNat_ofNat, BitVec.toNat_ofInt, BitVec.toInt_eq_toNat_cond]
  generalize x.toNat = t at *
  rcases hw with rfl | rfl | rfl <;> simp <;> split <;> omega

/-- **The cell** is the right one exactly when the code's address can reach it. -/
theorem IsBitString.takenCell_eq_iff (segBase : RegName → Word) (g : Globals) :
    ex.takenCell segBase inst g = ex.bitCell segBase inst g ↔
      CellReached inst.operandWidth (inst.memOperand 0).addressWidth (ex.bitOffset inst g) := by
  obtain ⟨x, hx, hoffset⟩ := hb.readGPR_bits g
  have hle := addressBits_le (inst.memOperand 0).addressWidth
  rw [Executor.takenCell, Executor.bitCell, truncateAddress_eq_iff, BitVec.setWidth_add _ _ hle,
    BitVec.setWidth_add _ _ hle, BitVec.add_right_inj, hx, hoffset]
  exact cellReached_iff hb.operandWidth x

end

/-! ## reading the cell -/

/-- A register depends on the buffers only. -/
theorem readGPR_congr (ex : Executor σ) {g g' : Globals} (h : g'.regs = g.regs) (reg : Reg) :
    ex.readGPR reg g' = ex.readGPR reg g := by
  simp only [Executor.readGPR, Globals.readGPR, Globals.readValue, h]

/-- Where an access to data goes. -/
def Event.address : Event → Option Word
  | .readMem addr .. | .writeMem addr .. => some addr
  | _ => none

/-- Since the accesses `a₀` there were accesses, all of them to the cell at one address. -/
def OnlyCell (a₀ : List Event) (addr : Word) : Observation σ := fun _ t =>
  ∃ events, t.filter Event.isAccess = a₀ ++ events ∧ events ≠ [] ∧
    ∀ e ∈ events, e.address = some addr

theorem OnlyCell.snoc {a₀ t : List Event} {addr : Word} {s s' : σ} {e : Event}
    (h : OnlyCell a₀ addr s t) (he : e.isAccess = true) (haddr : e.address = some addr) :
    OnlyCell a₀ addr s' (t ++ [e]) := by
  obtain ⟨events, htrace, -, hall⟩ := h
  refine ⟨events ++ [e], by simp [htrace, he], by simp, fun e' he' => ?_⟩
  simp only [List.mem_append, List.mem_singleton] at he'
  cases he' with
  | inl hmem => exact hall e' hmem
  | inr heq => rw [heq, haddr]

/-- What `ReadMemory` leaves behind. -/
structure BitCellRead (ex : Executor σ) (segBase : RegName → Word) (inst : Inst)
    (w w' : World σ) : Prop where
  accesses : Sat (OnlyCell w.accesses (ex.takenCell segBase inst w.globals)) w'
  address : (w'.globals.memory 0).address = ex.takenCell segBase inst w.globals
  other : (w'.globals.memory 1).present = false
  bitNumber : ex.readGPR (inst.reg .reg0) w'.globals =
    BitVec.ofInt 64 (ex.bitOffset inst w.globals % inst.operandWidth)

/-- A cell that was read. -/
theorem readCell_ok {ex : Executor σ} {hint : MemRequestHint} {i : Fin 2} {w w' : World σ}
    (h : ex.readCell hint i w = .ok () w') :
    ∃ env data, w' = (w.called env (.readMem (w.globals.memory i).address (w.globals.memory i).size
      hint true)).withGlobals (Globals.setData i data) := by
  obtain ⟨g, w₁, hg, h⟩ := bind_eq_ok.mp h
  cases hg
  obtain ⟨r, w₂, hcall, h⟩ := bind_eq_ok.mp h
  obtain ⟨_, w₃, hset, hcheck⟩ := bind_eq_ok.mp h
  cases hset
  obtain ⟨ok, data⟩ := r
  cases ok with
  | true =>
      cases hcheck
      cases hr : ex.readMem (w.globals.memory i).address (w.globals.memory i).size hint
          (w.globals.memory i).data w.env with
      | mk ok r =>
          simp only [Executor.callReadMem, hr] at hcall
          cases hcall
          exact ⟨_, _, rfl⟩
  | false => cases hcheck

/-- An address that was computed. -/
theorem callComputeAddress_ok {ex : Executor σ} {segBase : RegName → Word}
    (hadd : AddsUp ex segBase) {seg : RegName} {base index scale disp addr : Word} {size : Nat}
    {hint : MemRequestHint} {w w' : World σ}
    (h : ex.callComputeAddress seg base index scale disp size hint w = .ok addr w') :
    addr = segBase seg + base + index * scale + disp ∧
      ∃ env, w' = w.called env (.computeAddress seg base index scale disp size hint) := by
  cases hr : ex.computeAddress seg base index scale disp size hint w.env with
  | mk a env =>
      have hsum := hadd seg base index scale disp size hint w.env
      rw [hr] at hsum
      simp only [Executor.callComputeAddress, hr] at h
      cases h
      exact ⟨hsum, env, rfl⟩

variable {ex : Executor σ} {segBase : RegName → Word} {inst : Inst} {w w' : World σ}

/-- The cell of a bit operation before it has an address. -/
theorem IsBitString.memory_describeCell (hb : IsBitString ex inst) (op : Operand) (g : Globals) :
    (ex.describeCell inst op 0 g).memory 0 =
      { g.memory 0 with
        present := true
        writeBack := op.written
        opName := op.name
        segReg := Executor.segmentReg (inst.memOperand 0)
        baseReg := (inst.memOperand 0).baseReg
        indexReg := (inst.memOperand 0).indexReg
        base := ex.memBase inst (inst.memOperand 0) g
        index := ex.readGPR (inst.memOperand 0).indexReg g
        scale := (inst.memOperand 0).scale
        displacement := (inst.memOperand 0).displacement +
          8 * (ex.readGPR (inst.reg .reg0) g / BitVec.ofNat 64 inst.operandWidth) } := by
  simp [Executor.describeCell, hb.adjustDisplacement_eq, Globals.setCell]

theorem IsBitString.regs_describeCell (hb : IsBitString ex inst) (op : Operand) (g : Globals) :
    (ex.describeCell inst op 0 g).regs = (ex.writeGPR (inst.reg .reg0)
      (ex.readGPR (inst.reg .reg0) g % BitVec.ofNat 64 inst.operandWidth) g).regs := by
  simp [Executor.describeCell, hb.adjustDisplacement_eq, Globals.setCell]

/-- The end of `ReadMemory`: the cell is placed and its data was read. -/
theorem BitCellRead.of_placed {v : World σ} {addr : Word} {env : σ} {op : Operand} {data : Data}
    (hb : IsBitString ex inst)
    (haddr : Executor.truncateAddress (inst.memOperand 0).addressWidth addr =
      ex.takenCell segBase inst w.globals)
    (hacc : v.accesses = w.accesses) (hother : (v.globals.memory 1).present = false)
    (hregs : v.globals.regs = (ex.writeGPR (inst.reg .reg0)
      (ex.readGPR (inst.reg .reg0) w.globals % BitVec.ofNat 64 inst.operandWidth) w.globals).regs) :
    BitCellRead ex segBase inst w
      (((v.withGlobals (Executor.placeCell (inst.memOperand 0) 0 addr)).called env
        (.readMem (Executor.truncateAddress (inst.memOperand 0).addressWidth addr)
          (8 * (inst.memOperand 0).length) (Executor.memHint op) true)).withGlobals
            (Globals.setData 0 data)) := by
  have hacc' : v.trace.filter Event.isAccess = w.accesses := hacc
  constructor
  · refine ⟨[.readMem (Executor.truncateAddress (inst.memOperand 0).addressWidth addr)
      (8 * (inst.memOperand 0).length) (Executor.memHint op) true], ?_, by simp, ?_⟩
    · simp [World.withGlobals, World.called, FlatMachine.isAccess_memHint, hacc']
    · simp [Event.address, haddr]
  · simp [World.withGlobals, World.called, Executor.placeCell, Globals.setData, Globals.setCell, haddr]
  · simp [World.withGlobals, World.called, Executor.placeCell, Globals.setData, Globals.setCell, hother]
  · rw [← hb.bitNumber_eq]
    exact readGPR_congr ex hregs _

theorem readMemory_bitString (hb : IsBitString ex inst) (hadd : AddsUp ex segBase)
    (h : ex.readMemory inst w = .ok () w') : BitCellRead ex segBase inst w w' := by
  obtain ⟨op, hops, hname⟩ := hb.memory
  have hskip (op : Operand) (h : op.name.isMemory = false) : ex.readMemoryAt inst op = pure () := by
    unfold Executor.readMemoryAt
    cases hname : op.name <;> simp_all [OperandName.isMemory]
  obtain ⟨_, w₁, habsent, h⟩ := bind_eq_ok.mp h
  cases habsent
  rw [forM_filter hskip, show inst.operands.filter (·.name.isMemory) = [op] from hops] at h
  obtain ⟨_, w₂, h, hend⟩ := bind_eq_ok.mp h
  cases hend
  have hcell : ex.readMemoryAt inst op = ex.readMemoryOperand inst op 0 := by
    unfold Executor.readMemoryAt
    rw [hname]
  rw [hcell] at h
  obtain ⟨_, w₃, hdescribe, h⟩ := bind_eq_ok.mp h
  obtain ⟨g, w₄, hg, h⟩ := bind_eq_ok.mp h
  obtain ⟨addr, w₅, hcall, h⟩ := bind_eq_ok.mp h
  obtain ⟨_, w₆, hplace, h⟩ := bind_eq_ok.mp h
  rw [if_neg (by simp [hname])] at h
  obtain ⟨env, data, rfl⟩ := readCell_ok h
  cases hdescribe
  cases hg
  have hcell := hb.memory_describeCell op (Executor.absentCells w.globals)
  have hbase : ex.memBase inst (inst.memOperand 0) (Executor.absentCells w.globals) =
      ex.memBase inst (inst.memOperand 0) w.globals := rfl
  have hread (reg : Reg) : ex.readGPR reg (Executor.absentCells w.globals) =
      ex.readGPR reg w.globals := rfl
  rw [hbase, hread, hread] at hcell
  obtain ⟨hsum, env₅, hw₅⟩ := callComputeAddress_ok hadd hcall
  have haddr : Executor.truncateAddress (inst.memOperand 0).addressWidth addr =
      ex.takenCell segBase inst w.globals := by
    rw [hsum]
    simp only [World.withGlobals, hcell, Executor.takenCell, Executor.baseAddress, BitVec.add_assoc]
  cases hplace
  refine BitCellRead.of_placed hb haddr ?_ ?_ ?_
  · rw [hw₅]
    simp [World.accesses, World.called, World.withGlobals, Event.isAccess]
  · rw [hw₅]
    simp [World.called, World.withGlobals, Executor.describeCell, hb.adjustDisplacement_eq,
      Globals.setCell, Executor.absentCells]
  · have hwrite (val : Word) :
        (ex.writeGPR (inst.reg .reg0) val (Executor.absentCells w.globals)).regs =
          (ex.writeGPR (inst.reg .reg0) val w.globals).regs := by
      unfold Executor.writeGPR Globals.writeGPR
      split_ifs <;> rfl
    rw [hw₅, ← hwrite, ← hread]
    exact hb.regs_describeCell op _

/-! ## one instruction -/

/-- The bit operation of a step from `w` to `w'`, with its registers in `w₂` and its operands in
`w₃`, was the one on the bit string. -/
structure BitExact (ex : Executor σ) (segBase : RegName → Word) (inst : Inst)
    (w w₂ w₃ w' : World σ) : Prop where
  /-- The cell read and written back. -/
  cell : Sat (OnlyCell w₂.accesses (ex.bitCell segBase inst w₂.globals)) w'
  bitNumber : ex.readGPR (inst.reg .reg0) w₃.globals =
    BitVec.ofInt 64 (ex.bitOffset inst w₂.globals % inst.operandWidth)
  /-- Where the cell is in a flat memory, its bit is the one of the bit string. -/
  bit : ∀ mem : BitVec (addressBits (inst.memOperand 0).addressWidth) → BitVec 8,
    (ByteMemory.load mem ((w₃.globals.memory 0).address.setWidth _) (inst.operandWidth / 8) :
        BitVec inst.operandWidth).getLsbD (ex.readGPR (inst.reg .reg0) w₃.globals).toNat =
      ByteMemory.bitAt mem ((ex.baseAddress segBase inst w₂.globals).setWidth _)
        (ex.bitOffset inst w₂.globals)
  /-- The register of the environment. -/
  kept : ∀ events, w'.trace = w.trace ++ events →
    RegName.reg (ex.widestRegister (inst.reg .reg0)) ∉ writtenNames events

/-- The FPU has no part in it. -/
theorem readFPU_sameRegs (w₀ : World σ) :
    Triple (fun v => v.accesses = w₀.accesses ∧ v.globals.regs = w₀.globals.regs) ex.readFPUState
      (fun _ v => v.accesses = w₀.accesses ∧ v.globals.regs = w₀.globals.regs)
      fun _ v => v.accesses = w₀.accesses ∧ v.globals.regs = w₀.globals.regs := by
  refine triple_readGlobals fun g => ?_
  split
  · refine Triple.bind (Q := fun _ v => v.accesses = w₀.accesses ∧
      v.globals.regs = w₀.globals.regs) (fun v hv => ?_) fun r => ?_
    · simpa [Executor.callReadFPU, World.accesses, World.called, Event.isAccess] using hv
    · refine Triple.bind (Triple.update fun v hv => hv) fun _ => ?_
      cases r.1 with
      | true => exact Triple.pure fun _ h => h
      | false => exact Triple.throw fun _ h => h
  · exact Triple.pure fun _ h => h

theorem readOperands_bitString (hb : IsBitString ex inst) (hadd : AddsUp ex segBase)
    (h : ex.readOperands inst w = .ok () w') : BitCellRead ex segBase inst w w' := by
  obtain ⟨_, w₁, hfpu, h⟩ := bind_eq_ok.mp h
  obtain ⟨_, w₂, hcopy, h⟩ := bind_eq_ok.mp h
  have hsame : Meets _ _ (ex.readFPUState w) := readFPU_sameRegs w w ⟨rfl, rfl⟩
  rw [hfpu] at hsame
  cases hcopy
  have hregs : (Executor.whenMMX Executor.copyMMXStateToFPU w₁.globals).regs = w.globals.regs := by
    rw [← hsame.2]
    unfold Executor.whenMMX
    split <;> rfl
  have hread := readMemory_bitString hb hadd h
  have hreg (reg : Reg) : ex.readGPR reg (w₁.withGlobals
      (Executor.whenMMX Executor.copyMMXStateToFPU)).globals = ex.readGPR reg w.globals :=
    readGPR_congr ex hregs reg
  have htaken : ex.takenCell segBase inst (w₁.withGlobals
      (Executor.whenMMX Executor.copyMMXStateToFPU)).globals =
      ex.takenCell segBase inst w.globals := by
    simp only [Executor.takenCell, Executor.baseAddress, Executor.memBase, hreg]
  have hoffset : ex.bitOffset inst (w₁.withGlobals
      (Executor.whenMMX Executor.copyMMXStateToFPU)).globals = ex.bitOffset inst w.globals := by
    simp only [Executor.bitOffset, hreg]
  constructor
  · rw [← htaken, ← hsame.1]
    exact hread.accesses
  · rw [← htaken]
    exact hread.address
  · exact hread.other
  · rw [← hoffset]
    exact hread.bitNumber

/-- What comes after the cell was read only writes it back. -/
theorem carryOut_onlyCell (nextPC : Word) {a₀ : List Event} {addr : Word} :
    Triple (fun v => Sat (OnlyCell a₀ addr) v ∧ (v.globals.memory 0).address = addr ∧
        (v.globals.memory 1).present = false) (ex.carryOut inst nextPC)
      (fun _ v => Sat (OnlyCell a₀ addr) v ∧ (v.globals.memory 0).address = addr ∧
        (v.globals.memory 1).present = false) fun _ => Sat (OnlyCell a₀ addr) := by
  rintro w ⟨hcell, haddr, hother⟩
  refine (carryOut_unmoved ex w inst nextPC).conseq (fun _ h => h) (fun _ v hv => ?_)
    (fun _ v hv => ?_) w ⟨rfl, rfl, rfl⟩
  · have hzero := congrArg Place.address (congrFun hv.2.2 0)
    have hone := congrArg Place.present (congrFun hv.2.2 1)
    refine ⟨?_, hzero.trans haddr, hone.trans hother⟩
    rw [Sat, hv.1, hv.2.1]
    exact hcell
  · rw [Sat, hv.1, hv.2.1]
    exact hcell

theorem onlyCell_commits (a₀ : List Event) (addr : Word) :
    CommitInvariant ex (OnlyCell a₀ addr) where
  writeReg _ _ _ h := by simpa [OnlyCell, Event.isAccess] using h
  writeFPU _ h := by simpa [OnlyCell, Event.isAccess] using h

theorem writeOperands_onlyCell (a₀ : List Event) (addr : Word) :
    Triple (fun v => Sat (OnlyCell a₀ addr) v ∧ (v.globals.memory 0).address = addr ∧
        (v.globals.memory 1).present = false) ex.writeOperands
      (fun _ => Sat (OnlyCell a₀ addr)) fun _ => Sat (OnlyCell a₀ addr) := by
  refine Triple.bind (Q := fun _ => Sat (OnlyCell a₀ addr)) (Triple.bind
    (Q := fun _ v => Sat (OnlyCell a₀ addr) v ∧ (v.globals.memory 1).present = false) ?_ fun _ => ?_)
    fun _ => (onlyCell_commits a₀ addr).writeFPUState.bind fun _ => onGlobals_keeps _
  · refine triple_getGlobals fun w hw => ?_
    dsimp only
    split
    · exact Triple.pure fun v hv => hv ▸ ⟨hw.1, hw.2.2⟩
    · refine Triple.bind (Q := fun _ v => Sat (OnlyCell a₀ addr) v ∧
        (v.globals.memory 1).present = false) ?_ fun ok => ?_
      · rintro v rfl
        refine ⟨?_, hw.2.2⟩
        exact OnlyCell.snoc hw.1 rfl (congrArg some hw.2.1)
      · cases ok with
        | true => exact Triple.pure fun _ h => h
        | false => exact Triple.throw fun _ h => h.1
  · refine triple_getGlobals fun w hw => ?_
    dsimp only
    rw [if_pos (by simp [hw.2])]
    exact Triple.pure fun v hv => hv ▸ hw.1

/-- The rest of the step. -/
theorem perform_onlyCell (hb : IsBitString ex inst) (hadd : AddsUp ex segBase) {w₂ w₃ : World σ}
    (hread : ex.readOperands inst w₂ = .ok () w₃) :
    Meets (fun _ => Sat (OnlyCell w₂.accesses (ex.takenCell segBase inst w₂.globals)))
      (fun _ => Sat (OnlyCell w₂.accesses (ex.takenCell segBase inst w₂.globals)))
      ((ex.perform inst >>= ex.commit) w₂) := by
  obtain ⟨haccesses, haddr, hother, -⟩ := readOperands_bitString hb hadd hread
  have hperform : ex.perform inst w₂ = (do
      let nextPC ← ex.carryOut inst (ex.getNextPC inst w₂.globals)
      ex.writeOperands
      pure nextPC) w₃ := by
    unfold Executor.perform
    rw [run_bind_ok (run_getGlobals w₂), hb.notNop, if_neg (by decide), run_bind_ok hread]
  refine Triple.bind (P := (· = w₂))
    (Q := fun _ => Sat (OnlyCell w₂.accesses (ex.takenCell segBase inst w₂.globals))) ?_
    (fun nextPC => (onlyCell_commits _ _).commit nextPC) w₂ rfl
  intro v hv
  rw [show v = w₂ from hv, hperform]
  refine Triple.bind ((carryOut_onlyCell _).pre fun v hv => hv) (fun nextPC =>
      Triple.bind (writeOperands_onlyCell _ _) fun _ => pure_keeps _) w₃ ⟨haccesses, haddr, hother⟩

/-- The register of the environment is never written. -/
theorem IsBitString.kept (hb : IsBitString ex inst) {w w₁ w' : World σ}
    (hfetch : ex.fetch w = .ok inst w₁) (hd : KeepsDiscipline ex w w') :
    ∀ events, w'.trace = w.trace ++ events →
      RegName.reg (ex.widestRegister (inst.reg .reg0)) ∉ writtenNames events := by
  intro events htrace hmem
  obtain ⟨events', htrace', hd⟩ := hd
  have heq : events' = events := List.append_cancel_left (htrace'.symm.trans htrace)
  obtain ⟨r, hr⟩ := hb.family
  have hname : ex.widestRegister (inst.reg .reg0) = ex.wide r := Executor.widestRegister_of_family hr
  have hslot : (ex.wide r).largestEnclosing = .gpr64 r :=
    Reg.largestEnclosing_of_family (ex.wide_family r)
  have hpc : ex.wide r ≠ ex.pcReg := by
    intro h
    rw [h, ex.largestEnclosing_pcReg] at hslot
    contradiction
  rw [← heq, hname] at hmem
  obtain ⟨inst', w₁', hfetch', hback⟩ := hd.written_back _ hmem hpc
  rw [hfetch] at hfetch'
  cases hfetch'
  generalize hreg : ex.wide r = reg at hback
  cases hback with
  | operand hop hw hn =>
      have hflags := hb.writes _ hop hw _ hn
      have hscalar : ∀ reg : Reg, reg.largestEnclosing = .rflags → reg.isScalar = true := by
        intro reg h
        cases reg <;> simp_all [Reg.largestEnclosing, Reg.isScalar]
      rw [hreg, Executor.largestEnclosing_widestRegister (hscalar _ hflags), hflags] at hslot
      contradiction
  | stack h => exact hb.noStack h
  | pointer hform _ =>
      obtain ⟨op, lock, hbit, -⟩ := hb.form
      rw [hbit] at hform
      cases hform

theorem setWidth_ofInt {n : Nat} (hn : n ≤ 64) (z : Int) :
    (BitVec.ofInt 64 z).setWidth n = BitVec.ofInt n z := by
  have hdvd : ((2 ^ n : Nat) : Int) ∣ ((2 ^ 64 : Nat) : Int) :=
    Int.natCast_dvd_natCast.mpr (Nat.pow_dvd_pow 2 hn)
  have hmod := Int.emod_emod_of_dvd z hdvd
  have hnonneg := Int.emod_nonneg z (show ((2 ^ 64 : Nat) : Int) ≠ 0 by decide)
  apply BitVec.eq_of_toNat_eq
  rw [BitVec.toNat_setWidth, BitVec.toNat_ofInt, BitVec.toNat_ofInt, ← hmod,
    Int.toNat_emod hnonneg (Int.natCast_nonneg _), Int.toNat_natCast]

theorem setWidth_truncateAddress (aw : Nat) (x : Word) :
    (Executor.truncateAddress aw x).setWidth (addressBits aw) = x.setWidth (addressBits aw) := by
  rw [← truncateAddress_eq_iff]
  unfold Executor.truncateAddress
  split_ifs <;> simp

/-- In the right cell the bit number is that of the bit. -/
theorem BitCellRead.bit_eq (hb : IsBitString ex inst) {w₂ w₃ : World σ}
    (h : BitCellRead ex segBase inst w₂ w₃)
    (hcell : ex.takenCell segBase inst w₂.globals = ex.bitCell segBase inst w₂.globals)
    (mem : BitVec (addressBits (inst.memOperand 0).addressWidth) → BitVec 8) :
    (ByteMemory.load mem ((w₃.globals.memory 0).address.setWidth _) (inst.operandWidth / 8) :
        BitVec inst.operandWidth).getLsbD (ex.readGPR (inst.reg .reg0) w₃.globals).toNat =
      ByteMemory.bitAt mem ((ex.baseAddress segBase inst w₂.globals).setWidth _)
        (ex.bitOffset inst w₂.globals) := by
  have hle := addressBits_le (inst.memOperand 0).addressWidth
  have hbytes : 8 * (inst.operandWidth / 8) = inst.operandWidth ∧ 0 < inst.operandWidth / 8 := by
    rcases hb.operandWidth with h | h | h <;> rw [h] <;> decide
  have hwidth : (inst.operandWidth : Int) = 8 * (inst.operandWidth / 8 : Nat) := by omega
  have hnumber : (BitVec.ofInt 64 (ex.bitOffset inst w₂.globals % inst.operandWidth)).toNat =
      (ex.bitOffset inst w₂.globals % inst.operandWidth).toNat := by
    have hpos : (0 : Int) < inst.operandWidth := by omega
    have hnonneg := Int.emod_nonneg (ex.bitOffset inst w₂.globals) (Int.ne_of_gt hpos)
    have hlt := Int.emod_lt_of_pos (ex.bitOffset inst w₂.globals) hpos
    have hsmall : inst.operandWidth ≤ 64 := by
      rcases hb.operandWidth with h | h | h <;> rw [h] <;> decide
    rw [BitVec.toNat_ofInt]
    omega
  rw [h.address, hcell, h.bitNumber, hnumber, Executor.bitCell, setWidth_truncateAddress,
    BitVec.setWidth_add _ _ hle, setWidth_ofInt hle, hwidth]
  exact ByteMemory.getLsbD_load_cell hbytes.2 (Nat.le_of_eq hbytes.1) _

/-- The cell that was accessed. -/
theorem OnlyCell.unique {a₀ t : List Event} {addr addr' : Word} {s : σ}
    (h : OnlyCell a₀ addr s t) (h' : OnlyCell a₀ addr' s t) : addr = addr' := by
  obtain ⟨events, htrace, hne, haddr⟩ := h
  obtain ⟨events', htrace', -, haddr'⟩ := h'
  have heq : events = events' := List.append_cancel_left (htrace.symm.trans htrace')
  obtain ⟨e, he⟩ := List.exists_mem_of_ne_nil events hne
  have hsome := (haddr e he).symm.trans (haddr' e (heq ▸ he))
  exact Option.some.inj hsome

/-- The step accesses one cell. -/
theorem execute_onlyCell (hinit : ex.isInitialized = true) (hadd : AddsUp ex segBase)
    (hb : IsBitString ex inst) {w w₁ w₂ w₃ : World σ} (hfetch : ex.fetch w = .ok inst w₁)
    (hstate : ex.readState inst w₁ = .ok () w₂) (hread : ex.readOperands inst w₂ = .ok () w₃) :
    Meets (fun _ => Sat (OnlyCell w₂.accesses (ex.takenCell segBase inst w₂.globals)))
      (fun _ => Sat (OnlyCell w₂.accesses (ex.takenCell segBase inst w₂.globals)))
      (ex.execute 1 w) := by
  have hrun : ex.executeInstruction w = (ex.perform inst >>= ex.commit) w₂ := by
    unfold Executor.executeInstruction
    rw [run_bind_ok hfetch, run_bind_ok hstate]
  rw [Executor.execute_one hinit, hrun]
  exact perform_onlyCell hb hadd hread

/-- **Bit-string addressing** is exact if and only if the cell of the bit can be reached: the bit
number and the register of the environment are always right. -/
theorem bitExact_iff (hinit : ex.isInitialized = true) (hadd : AddsUp ex segBase)
    (hb : IsBitString ex inst) {w w₁ w₂ w₃ : World σ} (hfetch : ex.fetch w = .ok inst w₁)
    (hstate : ex.readState inst w₁ = .ok () w₂) (hread : ex.readOperands inst w₂ = .ok () w₃) :
    Meets (fun _ w' => BitExact ex segBase inst w w₂ w₃ w')
        (fun _ w' => BitExact ex segBase inst w w₂ w₃ w') (ex.execute 1 w) ↔
      CellReached inst.operandWidth (inst.memOperand 0).addressWidth
        (ex.bitOffset inst w₂.globals) := by
  have hcells := readOperands_bitString hb hadd hread
  have hexact {w' : World σ} (hd : KeepsDiscipline ex w w')
      (hcell : Sat (OnlyCell w₂.accesses (ex.takenCell segBase inst w₂.globals)) w') :
      BitExact ex segBase inst w w₂ w₃ w' ↔ CellReached inst.operandWidth
        (inst.memOperand 0).addressWidth (ex.bitOffset inst w₂.globals) := by
    rw [← hb.takenCell_eq_iff segBase]
    constructor
    · intro h
      exact OnlyCell.unique hcell h.cell
    · intro heq
      exact ⟨heq ▸ hcell, hcells.bitNumber, hcells.bit_eq hb heq, hb.kept hfetch hd⟩
  have hcell := execute_onlyCell hinit hadd hb hfetch hstate hread
  have hdisciplined := executeInstruction_disciplined ex w
  rw [Executor.execute_one hinit] at hcell ⊢
  cases hr : ex.executeInstruction w with
  | ok _ w' =>
      rw [hr] at hcell hdisciplined
      exact hexact hdisciplined.1 hcell
  | error _ w' =>
      rw [hr] at hcell hdisciplined
      exact hexact hdisciplined hcell

/-! ### an offset past the cell -/

namespace FlatMachine

/-- `BTS [RAX], ECX`. -/
def btsEcx : Inst :=
  .scalar (.bitMEMvGPRv .bts false) 3 32
    [⟨.mem0, true, true, false, .explicit⟩, .register .reg0 false] (fun _ => .gpr32 .rcx)
    (fun _ => ⟨.seg .ds, .gpr64 .rax, .invalid, 0, 0, 64, 4⟩) 0

theorem isBitString_btsEcx : IsBitString (oneInst btsEcx).executor btsEcx where
  form := ⟨.bts, false, rfl, nofun⟩
  operandWidth := .inr (.inl rfl)
  family := ⟨.rcx, rfl⟩
  width := rfl
  memory := ⟨_, rfl, rfl⟩
  writes := by
    intro op hop hw r hname
    simp [btsEcx, Inst.scalar, Operand.register] at hop
    rcases hop with rfl | rfl
    · cases hname
    · cases hw
  noStack := by
    rintro (⟨_, _, _, _, h⟩ | ⟨_, h | h⟩) <;> cases h
  notNop := rfl

theorem addsUp_oneInst (inst : Inst) : AddsUp (oneInst inst).executor fun _ => 0 := by
  intro seg base index scale disp size hint s
  simp

/-- All zero but for `RCX`. -/
def startRcx (c : FlatMachine) (k : Data) : World (Flat c.width) :=
  .start ⟨fun r => if r = .gpr64 .rcx then k else 0, fun _ => false, fun _ => 0⟩

/-- The bit offset that `BTS [RAX], ECX` takes. -/
def btsOffset : ExecM (Flat (oneInst btsEcx).width) Int := do
  let _ ← (oneInst btsEcx).executor.fetch
  (oneInst btsEcx).executor.readState btsEcx
  let g ← getGlobals
  (oneInst btsEcx).executor.readOperands btsEcx
  pure ((oneInst btsEcx).executor.bitOffset btsEcx g)

/-- A result, by evaluation. -/
theorem ok_of_decide {α : Type} [DecidableEq α] {m : ExecM σ α} {w : World σ} {a : α}
    (h : (match m w with
      | .ok b _ => decide (b = a)
      | .error _ _ => false) = true) : ∃ w', m w = .ok a w' := by
  cases hr : m w with
  | ok b w' =>
      rw [hr] at h
      exact ⟨w', by rw [of_decide_eq_true h]⟩
  | error status w' =>
      rw [hr] at h
      cases h

theorem reads_of_btsOffset {w w' : World (Flat (oneInst btsEcx).width)} {k : Int}
    (h : btsOffset w = .ok k w') :
    ∃ w₁ w₂ w₃, (oneInst btsEcx).executor.fetch w = .ok btsEcx w₁ ∧
      (oneInst btsEcx).executor.readState btsEcx w₁ = .ok () w₂ ∧
      (oneInst btsEcx).executor.readOperands btsEcx w₂ = .ok () w₃ ∧
      (oneInst btsEcx).executor.bitOffset btsEcx w₂.globals = k := by
  obtain ⟨inst, w₁, hfetch, h⟩ := bind_eq_ok.mp h
  obtain ⟨_, w₂, hstate, h⟩ := bind_eq_ok.mp h
  obtain ⟨g, _, hg, h⟩ := bind_eq_ok.mp h
  cases hg
  obtain ⟨_, w₃, hread, h⟩ := bind_eq_ok.mp h
  cases h
  obtain ⟨_, _, hfetch', hinst, -⟩ := fetch_flat (c := oneInst btsEcx) (w := w) (decodes_sample rfl)
  rw [hfetch] at hfetch'
  cases hfetch'
  subst hinst
  exact ⟨_, _, _, hfetch, hstate, hread, rfl⟩

theorem btsOffset_32 : ∃ w', btsOffset (startRcx (oneInst btsEcx) 32) = .ok 32 w' :=
  ok_of_decide (by decide +kernel)

theorem btsOffset_5 : ∃ w', btsOffset (startRcx (oneInst btsEcx) 5) = .ok 5 w' :=
  ok_of_decide (by decide +kernel)

-- No whole step is to be evaluated.
attribute [local irreducible] Executor.execute

/-- `BTS [RAX], ECX` with an offset of 32 takes the bit at offset 64. -/
theorem bitString_inexact : ¬∀ (c : FlatMachine) (inst : Inst) (w w₁ w₂ w₃ : World (Flat c.width)),
    IsBitString c.executor inst → c.executor.fetch w = .ok inst w₁ →
    c.executor.readState inst w₁ = .ok () w₂ → c.executor.readOperands inst w₂ = .ok () w₃ →
      Meets (fun _ w' => BitExact c.executor (fun _ => 0) inst w w₂ w₃ w')
        (fun _ w' => BitExact c.executor (fun _ => 0) inst w w₂ w₃ w')
        (c.executor.execute 1 w) := by
  intro h
  obtain ⟨_, hoffset⟩ := btsOffset_32
  obtain ⟨w₁, w₂, w₃, hfetch, hstate, hread, hk⟩ := reads_of_btsOffset hoffset
  have hexact := h (oneInst btsEcx) btsEcx _ _ _ _ isBitString_btsEcx hfetch hstate hread
  have hcell := execute_onlyCell rfl (addsUp_oneInst btsEcx) isBitString_btsEcx hfetch hstate hread
  have hreached : CellReached 32 64 32 := by
    rw [← hk]
    refine (isBitString_btsEcx.takenCell_eq_iff (fun _ => 0) w₂.globals).mp ?_
    cases hr : (oneInst btsEcx).executor.execute 1 (startRcx (oneInst btsEcx) 32) with
    | ok _ w' | error _ w' =>
        rw [hr] at hcell hexact
        exact OnlyCell.unique hcell hexact.cell
  have haddress : addressBits 64 = 64 := rfl
  simp [CellReached, haddress] at hreached

/-- The bit at offset 5. -/
theorem bitExact_iff_five : ∃ w₂ w₃, (oneInst btsEcx).executor.bitOffset btsEcx w₂.globals = 5 ∧
    Meets (fun _ w' => BitExact (oneInst btsEcx).executor (fun _ => 0) btsEcx
        (startRcx (oneInst btsEcx) 5) w₂ w₃ w')
      (fun _ w' => BitExact (oneInst btsEcx).executor (fun _ => 0) btsEcx
        (startRcx (oneInst btsEcx) 5) w₂ w₃ w')
      ((oneInst btsEcx).executor.execute 1 (startRcx (oneInst btsEcx) 5)) := by
  obtain ⟨_, hoffset⟩ := btsOffset_5
  obtain ⟨w₁, w₂, w₃, hfetch, hstate, hread, hk⟩ := reads_of_btsOffset hoffset
  refine ⟨w₂, w₃, hk, ?_⟩
  refine (bitExact_iff rfl (addsUp_oneInst btsEcx) isBitString_btsEcx hfetch hstate hread).mpr ?_
  rw [hk]
  exact .inl ⟨by decide, by decide⟩

end FlatMachine

end Microx
