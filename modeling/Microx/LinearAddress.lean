import Microx.CallbackValues
import Microx.Executor.Guard
import Microx.Memory.Flat

/-!
# Microx.LinearAddress

The address at which a memory operand is accessed.

`Process.compute_address` adds the base of the segment to the parts of the
address, and `ReadMemory` masks the sum down to the width of the operand's
address.  The base is masked as well, so the address is the linear one exactly
when that masking changes nothing (`linear_address_iff`): always at the width of
the mode, and else as long as segment and offset stay below the shorter width.
-/

namespace Microx

open Hoare

/-! ## one memory operand -/

namespace Executor

variable {σ : Type} (ex : Executor σ)

/-- The cell after its address was asked for and its data read. -/
def filledCell (memop : MemOperand) (address : Word) (data : Data) (c : Cell) : Cell :=
  { c with
    address := truncateAddress memop.addressWidth address
    size := 8 * memop.length
    data := data }

/-- The cell of an operand, as `ReadMemory` describes it to `ComputeAddress`. -/
def describedCellAt (inst : Inst) (op : Operand) (i : Fin 2) (w : World σ) : Cell :=
  (ex.describeCell inst op i w.globals).memory i

/-- What `ComputeAddress` answers for an operand, and the environment it leaves. -/
def askedAddress (inst : Inst) (op : Operand) (i : Fin 2) (w : World σ) : Word × σ :=
  let c := ex.describedCellAt inst op i w
  ex.computeAddress (.reg c.segReg) c.base c.index c.scale c.displacement c.size (memHint op) w.env

/-- The request for the address of an operand. -/
def addressRequest (inst : Inst) (op : Operand) (i : Fin 2) (w : World σ) : Event :=
  let c := ex.describedCellAt inst op i w
  .computeAddress (.reg c.segReg) c.base c.index c.scale c.displacement c.size (memHint op)

/-- The address of an operand: the answer, masked. -/
def operandAddress (inst : Inst) (op : Operand) (i : Fin 2) (w : World σ) : Word :=
  truncateAddress (inst.memOperand i).addressWidth (ex.askedAddress inst op i w).1

/-- The world in which the data of an operand is read. -/
def placedWorld (inst : Inst) (op : Operand) (i : Fin 2) (w : World σ) : World σ :=
  ((w.withGlobals (ex.describeCell inst op i)).called (ex.askedAddress inst op i w).2
    (ex.addressRequest inst op i w)).withGlobals
      (placeCell (inst.memOperand i) i (ex.askedAddress inst op i w).1)

theorem memory_placedWorld (inst : Inst) (op : Operand) (i : Fin 2) (w : World σ) :
    (ex.placedWorld inst op i w).globals.memory i =
      filledCell (inst.memOperand i) (ex.askedAddress inst op i w).1 0
        (ex.describedCellAt inst op i w) :=
  Function.update_self _ _ _

/-- Reading a memory operand is reading its cell, once that has its place. -/
theorem run_readMemoryOperand {inst : Inst} {op : Operand} {i : Fin 2} (hop : op.name ≠ .agen)
    (w : World σ) :
    ex.readMemoryOperand inst op i w = ex.readCell (memHint op) i (ex.placedWorld inst op i w) := by
  unfold readMemoryOperand
  rw [if_neg hop]
  rfl

/-- Reading a cell makes one request, for its place. -/
theorem run_readCell (hint : MemRequestHint) (i : Fin 2) (w : World σ) :
    let c := w.globals.memory i
    let r := ex.readMem c.address c.size hint c.data w.env
    ex.readCell hint i w = check r.1 .errorReadMem
      ((w.called r.2.2 (.readMem c.address c.size hint r.1)).withGlobals
        (Globals.setData i r.2.1)) :=
  rfl

/-- What filling a cell asks for. -/
theorem readCell_ok {hint : MemRequestHint} {i : Fin 2} {w w' : World σ}
    (h : ex.readCell hint i w = .ok () w') :
    let c := w.globals.memory i
    ∃ data env, ex.readMem c.address c.size hint c.data w.env = (true, data, env) ∧
      w' = (w.called env (.readMem c.address c.size hint true)).withGlobals
        (Globals.setData i data) := by
  intro c
  rw [run_readCell] at h
  rcases hr : ex.readMem c.address c.size hint c.data w.env with ⟨ok, data, env⟩
  rw [hr] at h
  cases ok with
  | false => cases h
  | true => cases h; exact ⟨_, _, rfl, rfl⟩

/-- What reading a memory operand asks for. -/
theorem readMemoryOperand_ok {inst : Inst} {op : Operand} {i : Fin 2}
    {w w' : World σ} (hop : op.name ≠ .agen) (h : ex.readMemoryOperand inst op i w = .ok () w') :
    let c := (ex.describeCell inst op i w.globals).memory i
    let memop := inst.memOperand i
    let r := ex.computeAddress (.reg c.segReg) c.base c.index c.scale c.displacement c.size
      (memHint op) w.env
    let address := truncateAddress memop.addressWidth r.1
    ∃ data env, ex.readMem address (8 * memop.length) (memHint op) 0 r.2 = (true, data, env) ∧
      w'.globals.memory i = filledCell memop r.1 data c ∧
      w'.trace = w.trace ++
        [.computeAddress (.reg c.segReg) c.base c.index c.scale c.displacement c.size (memHint op),
          .readMem address (8 * memop.length) (memHint op) true] := by
  intro c memop r address
  rw [ex.run_readMemoryOperand hop] at h
  have hcell := ex.memory_placedWorld inst op i w
  obtain ⟨data, env, hread, hw'⟩ := ex.readCell_ok h
  rw [hcell] at hread hw'
  refine ⟨data, env, hread, ?_, ?_⟩
  · rw [hw']
    change ((ex.placedWorld inst op i w).globals.setData i data).memory i = _
    rw [Globals.setData, hcell]
    exact Function.update_self _ _ _
  · rw [hw']
    exact List.append_assoc _ _ _

/-! ### accesses -/

/-- Reading an operand, however it ends, asks for its address and then reads at `addr`. -/
def ReadsAt (inst : Inst) (op : Operand) (i : Fin 2) (w : World σ) (addr : Word) : Prop :=
  let seen (ok : Bool) (w' : World σ) : Prop := w'.trace = w.trace ++ [ex.addressRequest inst op i w,
    .readMem addr (8 * (inst.memOperand i).length) (memHint op) ok]
  Meets (fun _ => seen true) (fun _ => seen false) (ex.readMemoryOperand inst op i w)

/-- The cell of a memory operand. -/
def cellIndex : OperandName → Option (Fin 2)
  | .agen | .mem0 => some 0
  | .mem1 => some 1
  | _ => none

/-- Once the operands that are left and the instruction itself are through, writing the cell back
writes at `addr` or not at all, however it ends. -/
def WritesAt (inst : Inst) (i : Fin 2) (w : World σ) (addr : Word) : Prop :=
  ∀ (ops : List Operand) w₁ pc pc' w₂ w₃, (∀ op ∈ ops, cellIndex op.name ≠ some i) →
    ops.forM (ex.readMemoryAt inst) w = .ok () w₁ → ex.carryOut inst pc w₁ = .ok pc' w₂ →
    w₃.globals = w₂.globals →
    let seen (ok : Bool) (w' : World σ) : Prop :=
      ∃ data, w'.trace = w₃.trace ++ [.writeMem addr (8 * (inst.memOperand i).length) data ok]
    Meets (fun _ w' => w'.trace = w₃.trace ∨ seen true w') (fun _ => seen false) (ex.writeCell i w₃)

/-- **Reading** is at the address of the operand. -/
theorem readsAt_operandAddress {inst : Inst} {op : Operand} {i : Fin 2} (hop : op.name ≠ .agen)
    (w : World σ) : ex.ReadsAt inst op i w (ex.operandAddress inst op i w) := by
  unfold ReadsAt
  rw [ex.run_readMemoryOperand hop, run_readCell, memory_placedWorld]
  generalize hr : ex.readMem _ _ _ _ _ = r
  obtain ⟨ok, data, env⟩ := r
  cases ok <;> exact List.append_assoc _ _ _

/-- Reading another operand moves no cell but its own. -/
theorem places_readMemoryAt {inst : Inst} {op : Operand} {i : Fin 2} {w w' : World σ}
    (hop : cellIndex op.name ≠ some i) (h : ex.readMemoryAt inst op w = .ok () w') :
    w'.globals.places i = w.globals.places i := by
  have hoperand (j : Fin 2) (hj : i ≠ j) (h : ex.readMemoryOperand inst op j w = .ok () w') :
      w'.globals.places i = w.globals.places i := by
    have hplaced : (ex.placedWorld inst op j w).globals.places i = w.globals.places i := by
      rw [← ex.places_describeCell inst op hj w.globals]
      simp [placedWorld, placeCell, Globals.places, Globals.setCell, World.withGlobals,
        World.called, hj]
    by_cases hname : op.name = .agen
    · unfold readMemoryOperand at h
      rw [if_pos hname] at h
      cases h
      exact hplaced
    · rw [ex.run_readMemoryOperand hname] at h
      obtain ⟨data, env, -, rfl⟩ := ex.readCell_ok h
      simpa [World.withGlobals, World.called] using hplaced
  cases hname : op.name <;> rw [hname] at hop <;> simp only [readMemoryAt, hname] at h
  case agen => exact hoperand 0 (fun hi => hop (by rw [hi]; rfl)) h
  case mem0 => exact hoperand 0 (fun hi => hop (by rw [hi]; rfl)) h
  case mem1 => exact hoperand 1 (fun hi => hop (by rw [hi]; rfl)) h
  all_goals cases h; rfl

theorem places_readMemory {inst : Inst} {ops : List Operand} {i : Fin 2}
    (hops : ∀ op ∈ ops, cellIndex op.name ≠ some i) {w w' : World σ}
    (h : ops.forM (ex.readMemoryAt inst) w = .ok () w') :
    w'.globals.places i = w.globals.places i := by
  induction ops generalizing w with
  | nil => cases h; rfl
  | cons op ops ih =>
      obtain ⟨_, w₁, h₁, h₂⟩ := bind_eq_ok.mp h
      rw [ih (fun x hx => hops x (List.mem_cons_of_mem _ hx)) h₂]
      exact ex.places_readMemoryAt (hops op List.mem_cons_self) h₁

/-- Writing a cell back makes one request, for its place. -/
theorem run_writeCell (i : Fin 2) (w : World σ) :
    let c := w.globals.memory i
    let r := ex.writeMem c.address c.size c.data w.env
    ex.writeCell i w = if !c.present || !c.writeBack then .ok () w
      else check r.1 .errorWriteMem
        (w.called r.2 (.writeMem c.address c.size (Bits.low c.size c.data) r.1)) := by
  intro c r
  rw [writeCell, run_bind_ok (run_getGlobals w)]
  split <;> rfl

/-- **Writing back** is at the address of the operand. -/
theorem writesAt_operandAddress {inst : Inst} {op : Operand} {i : Fin 2} (hop : op.name ≠ .agen)
    {w w' : World σ} (h : ex.readMemoryOperand inst op i w = .ok () w') :
    ex.WritesAt inst i w' (ex.operandAddress inst op i w) := by
  intro ops w₁ pc pc' w₂ w₃ hops hread hcarry hw₃ seen
  obtain ⟨data, env, -, hcell, -⟩ := ex.readMemoryOperand_ok hop h
  have hcarried := carryOut_unmoved ex w₁ inst pc w₁ ⟨rfl, rfl, rfl⟩
  rw [hcarry] at hcarried
  have hplace : w₃.globals.places i = w'.globals.places i := by
    rw [hw₃, hcarried.2.2, ex.places_readMemory hops hread]
  simp only [Globals.places, Cell.place, hcell, filledCell, Place.mk.injEq] at hplace
  obtain ⟨-, -, haddress, hsize⟩ := hplace
  rw [run_writeCell, haddress, hsize]
  split
  · exact .inl rfl
  · generalize hr : ex.writeMem _ _ _ _ = r
    obtain ⟨ok, env⟩ := r
    cases ok with
    | true => exact .inr ⟨_, rfl⟩
    | false => exact ⟨_, rfl⟩

end Executor

/-! ## `compute_address` -/

/-- The thread answers `base` when asked for the base of a segment. -/
def Thread.SegmentBase {τ : Type} (thread : Thread τ) (seg : RegName) (t : τ) (base : Int) : Prop :=
  ∃ v t', thread.readRegister (.base seg) .memorySegmentAddress t = .ok v t' ∧
    convertToInteger v = .ok base

namespace Proc

variable {μ π τ : Type} {thread : Thread τ}

/-- What `compute_address` adds up. -/
theorem computeAddress_of_segmentBase {seg : RegName} {hint : MemRequestHint}
    {p : ProcOver μ π τ} {segBase : Nat} (h : thread.SegmentBase seg p.thread segBase)
    (hlt : segBase < 2 ^ p.memory.addressSize.bits) (hint_ne : hint ≠ .addressGeneration)
    (base index scale disp size : Nat) :
    ∃ p', computeAddress thread seg base index scale disp size hint p =
      .ok ((segBase + base + index * scale + disp : Nat) : Int) p' := by
  obtain ⟨v, t, hread, hconv⟩ := h
  have hmask : (segBase : Int) % (p.memory.addressMask + 1 : Nat) = segBase := by
    rw [Memory.addressMask, Nat.one_shiftLeft, Nat.sub_add_cancel (Nat.two_pow_pos _)]
    exact_mod_cast Nat.mod_eq_of_lt hlt
  refine ⟨{ p with thread := t }, ?_⟩
  have hvalue : readRegister thread (.base seg) .memorySegmentAddress p =
      .ok (segBase : Int) { p with thread := t } := by
    rw [readRegister, run_bind_ok (show onThread _ p = .ok v { p with thread := t } by
      simp only [onThread, hread]), hconv]
    rfl
  have hbase : Proc.segBase thread seg hint p = .ok (segBase : Int) { p with thread := t } := by
    rw [Proc.segBase, if_pos hint_ne, run_bind_ok hvalue]
    exact congrArg (EStateM.Result.ok · _) hmask
  rw [computeAddress, run_bind_ok hbase]
  push_cast
  rfl

end Proc

namespace Binding

variable {τ : Type} {thread : Thread τ}

/-- A converted integer reaches the executor cut to 64 bits. -/
theorem toNat_ofInt_setWidth (n : Nat) :
    ((BitVec.ofInt 512 (n : Int)).setWidth 64).toNat = n % 2 ^ 64 := by
  have hle : 64 ≤ 512 := by omega
  rw [BitVec.toNat_setWidth, BitVec.ofInt_natCast, BitVec.toNat_ofNat,
    Nat.mod_mod_of_dvd _ (Nat.pow_dvd_pow 2 hle)]

/-- The sum of a segment base and the parts of an address is far from the limit of a conversion. -/
theorem sum_lt {segBase : Nat} (h : segBase < 2 ^ 64) (base index scale disp : Word) {k : Nat}
    (hk : 130 ≤ k) :
    segBase + base.toNat + index.toNat * scale.toNat + disp.toNat < 2 ^ k := by
  have hproduct : index.toNat * scale.toNat ≤ 2 ^ 64 * 2 ^ 64 :=
    Nat.mul_le_mul index.isLt.le scale.isLt.le
  have hbase := base.isLt
  have hdisp := disp.isLt
  calc segBase + base.toNat + index.toNat * scale.toNat + disp.toNat
      < 2 ^ 130 := by omega
    _ ≤ 2 ^ k := Nat.pow_le_pow_right (by omega) hk

/-- **The answer of `ComputeAddress`**, over a segment with a base. -/
theorem computeAddress_of_segmentBase {addrSize : AddressSize} {seg : RegName}
    {hint : MemRequestHint} {b : Binding (Proc τ)} {segBase : Nat} (herr : b.hasError = false)
    (h : thread.SegmentBase seg b.self.thread segBase)
    (hlt : segBase < 2 ^ b.self.memory.addressSize.bits) (hint_ne : hint ≠ .addressGeneration)
    (base index scale disp : Word) (size : Nat) :
    (computeAddress (Proc.methods thread) addrSize seg base index scale disp size hint b).1.toNat =
      (segBase + base.toNat + index.toNat * scale.toNat + disp.toNat) % 2 ^ 64 := by
  have hbits : segBase < 2 ^ 64 := by
    refine hlt.trans_le (Nat.pow_le_pow_right (by omega) ?_)
    cases b.self.memory.addressSize <;> simp [AddressSize.bits]
  obtain ⟨p, hp⟩ := Proc.computeAddress_of_segmentBase h hlt hint_ne base.toNat index.toNat
    scale.toNat disp.toNat (size / 8)
  have hfits : ((segBase + base.toNat + index.toNat * scale.toNat + disp.toNat : Nat) : Int) <
      2 ^ 512 := by exact_mod_cast sum_lt hbits base index scale disp (k := 512) (by omega)
  have hcall : (Proc.methods thread).computeAddress seg base.toNat index.toNat scale.toNat
      disp.toNat (size / 8) hint b.self = .ok (.int ((segBase + base.toNat +
        index.toNat * scale.toNat + disp.toNat : Nat) : Int)) p := run_bind_ok hp
  unfold computeAddress call
  rw [herr, hcall]
  simp only [Bool.false_eq_true, if_false, readValue_int hfits, if_true]
  exact toNat_ofInt_setWidth _

end Binding

/-! ## linear addresses -/

/-- The widths an address can have. -/
def AddressSize.addressWidths : AddressSize → List Nat
  | .x32 => [16, 32]
  | .x64 => [32, 64]

/-- The offset of a cell: base, scaled index and signed displacement. -/
def Cell.offset (c : Cell) : Int :=
  c.base.toNat + c.index.toNat * c.scale.toNat + c.displacement.toInt

/-- Masking a sum `s + e` down to a part `m` of an address space `n` is no loss exactly when the sum
stays below `m` or wraps around in `n`. -/
theorem add_emod_eq_emod_iff {s e m n : Int} (hs : 0 ≤ s) (hsn : s < n) (he : 0 ≤ e) (hem : e < m)
    (hdvd : m ∣ n) : (s + e) % m = (s + e) % n ↔ s + e < m ∨ n ≤ s + e := by
  have hmn : m ≤ n := Int.le_of_dvd (by omega) hdvd
  rcases lt_or_ge (s + e) n with hlt | hge
  · rw [Int.emod_eq_of_lt (by omega) hlt]
    constructor
    · intro h
      exact .inl (h ▸ Int.emod_lt_of_pos _ (by omega))
    · rintro (h | h)
      · exact Int.emod_eq_of_lt (by omega) h
      · omega
  · -- The sum lies one turn above its remainder, which is below `e`.
    have hn : (s + e) % n = s + e - n := by
      rw [← Int.sub_emod_right, Int.emod_eq_of_lt (by omega) (by omega)]
    have hm : (s + e) % m = s + e - n := by
      rw [← Int.emod_emod_of_dvd _ hdvd, hn, Int.emod_eq_of_lt (by omega) (by omega)]
    rw [hn, hm]
    exact ⟨fun _ => .inr hge, fun _ => rfl⟩

theorem AddressSize.le_of_mem_addressWidths {size : AddressSize} {a : Nat}
    (ha : a ∈ size.addressWidths) : a ≤ size.bits ∧ a ≤ 64 := by
  revert ha
  cases size <;> simp [addressWidths, bits] <;> omega

/-- As an unsigned number, a displacement is the signed one but for a multiple of `2 ^ 64`. -/
theorem toNat_emod_eq_toInt_emod (x : Word) {m : Int} (h : m ∣ 2 ^ 64) :
    (x.toNat : Int) % m = x.toInt % m := by
  have hmod : (x.toNat : Int).bmod (2 ^ 64) % 2 ^ 64 = x.toNat % 2 ^ 64 := Int.bmod_emod
  rw [← Int.emod_emod_of_dvd x.toInt h, BitVec.toInt_eq_toNat_bmod, hmod,
    Int.emod_emod_of_dvd _ h]

/-- Truncating an address takes its remainder. -/
theorem toNat_truncateAddress_of_mem {size : AddressSize} {a : Nat} (ha : a ∈ size.addressWidths)
    (x : Word) : (Executor.truncateAddress a x).toNat = x.toNat % 2 ^ a := by
  have hcases : a = 16 ∨ a = 32 ∨ a = 64 := by
    cases size <;> simp only [AddressSize.addressWidths, List.mem_cons, List.not_mem_nil,
      or_false] at ha <;> omega
  rcases hcases with rfl | rfl | rfl <;> simp [Executor.truncateAddress] <;> omega

namespace Process

variable {τ : Type}

/-- The address of an operand, as the segment base and the offset determine it. -/
theorem toNat_operandAddress (process : Process) {thread : Thread τ} {inst : Inst} {op : Operand}
    {i : Fin 2} {w : State τ} (hop : op.name ≠ .agen)
    (ha : (inst.memOperand i).addressWidth ∈ process.addrSize.addressWidths)
    (herr : w.env.hasError = false) {segBase : Nat}
    (hlt : segBase < 2 ^ w.env.self.memory.addressSize.bits) :
    let ex := process.executor thread
    let c := ex.describedCellAt inst op i w
    thread.SegmentBase (.reg c.segReg) w.env.self.thread segBase →
    ((ex.operandAddress inst op i w).toNat : Int) =
      (segBase + c.offset % 2 ^ (inst.memOperand i).addressWidth) %
        2 ^ (inst.memOperand i).addressWidth := by
  intro ex c hseg
  have hne : Executor.memHint op ≠ .addressGeneration := by
    unfold Executor.memHint
    rw [if_neg hop]
    split_ifs <;> simp
  have hvalue : (ex.askedAddress inst op i w).1.toNat =
      (segBase + c.base.toNat + c.index.toNat * c.scale.toNat + c.displacement.toNat) % 2 ^ 64 :=
    Binding.computeAddress_of_segmentBase herr hseg hlt hne _ _ _ _ _
  have hle := (AddressSize.le_of_mem_addressWidths ha).2
  rw [Executor.operandAddress, toNat_truncateAddress_of_mem ha, hvalue,
    Nat.mod_mod_of_dvd _ (Nat.pow_dvd_pow 2 hle)]
  generalize (inst.memOperand i).addressWidth = a at hle ⊢
  have hdvd : (2 : Int) ^ a ∣ 2 ^ 64 := pow_dvd_pow 2 hle
  have hdisp := toNat_emod_eq_toInt_emod c.displacement hdvd
  push_cast
  rw [Int.add_emod_emod, Cell.offset, ← add_assoc, ← add_assoc,
    Int.add_emod, hdisp, ← Int.add_emod]

/-- **Linear addresses.**  Reading a memory operand reads, and writing it back writes, at one
address.  It is the segment base plus the offset cut to the width of the address exactly when that
sum stays below the width or wraps around in the address space. -/
theorem linear_address_iff (process : Process) (thread : Thread τ) (inst : Inst) (op : Operand)
    (i : Fin 2) (w : State τ) (hop : op.name ≠ .agen)
    (ha : (inst.memOperand i).addressWidth ∈ process.addrSize.addressWidths)
    (hsize : w.env.self.memory.addressSize = process.addrSize) (herr : w.env.hasError = false)
    (segBase : Nat) (hlt : segBase < 2 ^ process.addrSize.bits) :
    let ex := process.executor thread
    let c := ex.describedCellAt inst op i w
    let address := ex.operandAddress inst op i w
    let offset := c.offset % 2 ^ (inst.memOperand i).addressWidth
    thread.SegmentBase (.reg c.segReg) w.env.self.thread segBase →
    ex.ReadsAt inst op i w address ∧
    (∀ w', ex.readMemoryOperand inst op i w = .ok () w' → ex.WritesAt inst i w' address) ∧
    ((address.toNat : Int) = (segBase + offset) % 2 ^ process.addrSize.bits ↔
      segBase + offset < 2 ^ (inst.memOperand i).addressWidth ∨
        2 ^ process.addrSize.bits ≤ segBase + offset) := by
  intro ex c address offset hseg
  refine ⟨ex.readsAt_operandAddress hop w, fun w' h => ex.writesAt_operandAddress hop h, ?_⟩
  have hvalue : (address.toNat : Int) = (segBase + offset) %
      2 ^ (inst.memOperand i).addressWidth :=
    process.toNat_operandAddress hop ha herr (hsize ▸ hlt) hseg
  have hdvd : (2 : Int) ^ (inst.memOperand i).addressWidth ∣ 2 ^ process.addrSize.bits :=
    pow_dvd_pow 2 (AddressSize.le_of_mem_addressWidths ha).1
  have hpos : (0 : Int) < 2 ^ (inst.memOperand i).addressWidth := Int.pow_pos (by omega)
  rw [hvalue]
  exact add_emod_eq_emod_iff (by omega) (by exact_mod_cast hlt) (Int.emod_nonneg _ hpos.ne')
    (Int.emod_lt_of_pos _ hpos) hdvd

/-! ### a sample -/

/-- A thread whose segment `FS` starts at `2 ^ 32`; all other registers are zero. -/
def fsThread : Thread Unit where
  readRegister name _ := pure (.int (if name = .base (.reg (.seg .fs)) then 2 ^ 32 else 0))
  writeRegister _ _ := pure ()
  readFPU := pure (.bytes [])
  writeFPU _ := pure ()

/-- A 64-bit process whose library decodes nothing. -/
def undecoded64 : Process := { undecoded with addrSize := .x64 }

/-- The operand `fs:[a]`, one byte, with an address of a given width and a base register. -/
def fsByte (baseReg : Reg) (addressWidth : Nat) : MemOperand where
  segReg := .seg .fs
  baseReg := baseReg
  indexReg := .invalid
  scale := 1
  displacement := 0
  addressWidth := addressWidth
  length := 1

/-- `mov al, fs:[a]`. -/
def movFs (baseReg : Reg) (addressWidth : Nat) : Inst :=
  .scalar (.other 0) 4 8 [] (fun _ => .gpr8 .rax) (fun _ => fsByte baseReg addressWidth) 0

/-- A memory operand that is read. -/
def readMem0 : Operand := ⟨.mem0, true, false, false, .explicit⟩

/-- A process without memory, about to execute. -/
def noMemory : State Unit :=
  World.start (Binding.start ⟨{ Memory.twoBytePages with addressSize := .x64 }, ()⟩)

theorem segmentBase_fsThread : fsThread.SegmentBase (.reg (.seg .fs)) () (2 ^ 32 : Nat) :=
  ⟨.int (2 ^ 32), (), rfl, rfl⟩

-- Applied to a closed state, a theorem about `ReadsAt` would have Lean run the operand.
attribute [local irreducible] Executor.ReadsAt

theorem linear_address_iff_fs :
    let ex := undecoded64.executor fsThread
    let inst := movFs (.gpr64 .rax) 64
    let c := ex.describedCellAt inst readMem0 0 noMemory
    ((ex.operandAddress inst readMem0 0 noMemory).toNat : Int) =
      ((2 ^ 32 : Nat) + c.offset % 2 ^ (inst.memOperand 0).addressWidth) %
        2 ^ undecoded64.addrSize.bits := by
  intro ex inst c
  have hiff := linear_address_iff undecoded64 fsThread inst readMem0 0 noMemory
    (by decide) (by decide) rfl rfl (2 ^ 32) (by decide) segmentBase_fsThread
  have hoffset : c.offset = 0 := by decide +kernel
  refine hiff.2.2.mpr (.inl ?_)
  change ((2 ^ 32 : Nat) : Int) + c.offset % 2 ^ 64 < 2 ^ 64
  rw [hoffset]
  decide

/-- **With an address-size prefix** the base of the segment is cut as well: over a segment at
`2 ^ 32`, `mov al, fs:[eax]` with `eax = 0` reads at `0` where `2 ^ 32` is meant. -/
theorem linear_address_ne :
    let ex := undecoded64.executor fsThread
    let inst := movFs (.gpr32 .rax) 32
    let c := ex.describedCellAt inst readMem0 0 noMemory
    ex.ReadsAt inst readMem0 0 noMemory 0 ∧
      ((2 ^ 32 : Nat) + c.offset % 2 ^ (inst.memOperand 0).addressWidth) %
        2 ^ undecoded64.addrSize.bits = 2 ^ 32 := by
  intro ex inst c
  have hname : readMem0.name ≠ .agen := by decide
  have hzero : ex.operandAddress inst readMem0 0 noMemory = 0 := by decide +kernel
  have hoffset : c.offset = 0 := by decide +kernel
  have hreads := @Executor.readsAt_operandAddress _ ex inst readMem0 0 hname noMemory
  rw [hzero] at hreads
  refine ⟨hreads, ?_⟩
  rw [hoffset]
  decide

end Process

end Microx
