import Microx.MemoryMap
import Microx.Lib.Bits

/-!
# Microx.Reg

The registers of `xed_reg_enum_t`, as the executor tells them apart: their
class, their width and the registers that enclose them.

General-purpose registers come in families; `gpr32 .rax` is `EAX`.  The widths
of the registers the executor knows nothing about are XED's, see `Xed` in
`Microx.Inst`.
-/

namespace Microx

/-- `uintptr_t`. -/
abbrev Word := BitVec 64

/-- `struct Data`: 64 bytes, enough for the largest register. -/
abbrev Data := BitVec 512

/-- `union FPU`: the 512 bytes of an `FXSAVE` area. -/
abbrev FPU := BitVec 4096

/-- The general-purpose families, in XED's order. -/
inductive Gpr where
  | rax | rcx | rdx | rbx | rsp | rbp | rsi | rdi
  | r8 | r9 | r10 | r11 | r12 | r13 | r14 | r15
  deriving DecidableEq, Repr

/-- `AH`, `CH`, `DH` and `BH`. -/
inductive Gpr8h where
  | ah | ch | dh | bh
  deriving DecidableEq, Repr

/-- The family a high byte register belongs to. -/
def Gpr8h.family : Gpr8h → Gpr
  | .ah => .rax
  | .ch => .rcx
  | .dh => .rdx
  | .bh => .rbx

/-- The segment registers. -/
inductive Seg where
  | cs | ds | es | ss | fs | gs
  deriving DecidableEq, Repr

/-- `xed_reg_enum_t`. -/
inductive Reg where
  | invalid
  | gpr64 (g : Gpr)
  | gpr32 (g : Gpr)
  | gpr16 (g : Gpr)
  | gpr8 (g : Gpr)
  | gpr8h (h : Gpr8h)
  | rip | eip | ip
  | rflags | eflags | flags
  | seg (s : Seg)
  /-- Class `X87`. -/
  | x87 (i : Fin 8)
  /-- Class `PSEUDOX87`. -/
  | pseudoX87 (i : Fin 8)
  | mmx (i : Fin 8)
  | xmm (i : Fin 32)
  | ymm (i : Fin 32)
  | zmm (i : Fin 32)
  /-- The pseudo-registers of instructions that push, and of those that pop. -/
  | stackpush | stackpop
  | tsc | tscaux
  /-- Registers the executor has no special case for: control, debug, mask, bound, … -/
  | other (i : Fin 256)
  deriving DecidableEq, Repr

namespace Reg

/-! ## classes -/

/-- Class `X87` or `PSEUDOX87`. -/
def isX87 : Reg → Bool
  | .x87 _ | .pseudoX87 _ => true
  | _ => false

def isMMX : Reg → Bool
  | .mmx _ => true
  | _ => false

/-- `XED_REG_STACKPUSH` or `XED_REG_STACKPOP`. -/
def isStackOp : Reg → Bool
  | .stackpush | .stackpop => true
  | _ => false

/-- `XED_REG_GPR8h_FIRST <= reg && reg <= XED_REG_GPR8h_LAST`. -/
def isGPR8h : Reg → Bool
  | .gpr8h _ => true
  | _ => false

/-! ## enclosing registers -/

/-- `xed_get_largest_enclosing_register`.  The largest register around an `XMM` or a `YMM`
register is a `YMM`, see the note in `ExecuteNative`. -/
def largestEnclosing : Reg → Reg
  | .gpr64 g | .gpr32 g | .gpr16 g | .gpr8 g => .gpr64 g
  | .gpr8h h => .gpr64 h.family
  | .rip | .eip | .ip => .rip
  | .rflags | .eflags | .flags => .rflags
  | .xmm i | .ymm i => .ymm i
  | r => r

/-- `xed_get_largest_enclosing_register32`. -/
def largestEnclosing32 : Reg → Reg
  | .gpr64 g | .gpr32 g | .gpr16 g | .gpr8 g => .gpr32 g
  | .gpr8h h => .gpr32 h.family
  | .rip | .eip | .ip => .eip
  | .rflags | .eflags | .flags => .eflags
  | .xmm i | .ymm i => .ymm i
  | r => r

/-- `if (!executor->has_avx512)`: a `ZMM` register becomes a `YMM` register. -/
def withoutAVX512 : Reg → Reg
  | .zmm i => .ymm i
  | r => r

/-- `if (!executor->has_avx)`: a `YMM` register becomes an `XMM` register. -/
def withoutAVX : Reg → Reg
  | .ymm i => .xmm i
  | r => r

/-! ## widths -/

/-- `xed_get_register_width_bits64`; `special` are the widths of the registers that are not
general-purpose, flag, segment or vector registers. -/
def widthBits64 (special : Reg → Nat) : Reg → Nat
  | .invalid => 0
  | .gpr64 _ | .rip | .rflags | .mmx _ => 64
  | .gpr32 _ | .eip | .eflags => 32
  | .gpr16 _ | .ip | .flags | .seg _ => 16
  | .gpr8 _ | .gpr8h _ => 8
  | .xmm _ => 128
  | .ymm _ => 256
  | .zmm _ => 512
  | r => special r

end Reg

/-! ## an enumeration -/

def Gpr.all : List Gpr :=
  [.rax, .rcx, .rdx, .rbx, .rsp, .rbp, .rsi, .rdi, .r8, .r9, .r10, .r11, .r12, .r13, .r14, .r15]

theorem Gpr.mem_all (g : Gpr) : g ∈ Gpr.all := by cases g <;> decide

def Gpr8h.all : List Gpr8h := [.ah, .ch, .dh, .bh]

theorem Gpr8h.mem_all (h : Gpr8h) : h ∈ Gpr8h.all := by cases h <;> decide

def Seg.all : List Seg := [.cs, .ds, .es, .ss, .fs, .gs]

theorem Seg.mem_all (s : Seg) : s ∈ Seg.all := by cases s <;> decide

/-- The place of a register in `Reg.all`. -/
def Reg.number : Reg → Nat
  | .invalid => 0
  | .flags => 1
  | .eflags => 2
  | .rflags => 3
  | .ip => 4
  | .eip => 5
  | .rip => 6
  | .stackpush => 7
  | .stackpop => 8
  | .tsc => 9
  | .tscaux => 10
  | .gpr8h h => 11 + h.ctorIdx
  | .seg s => 15 + s.ctorIdx
  | .gpr16 g => 21 + g.ctorIdx
  | .gpr32 g => 37 + g.ctorIdx
  | .gpr64 g => 53 + g.ctorIdx
  | .gpr8 g => 69 + g.ctorIdx
  | .mmx i => 85 + i
  | .x87 i => 93 + i
  | .pseudoX87 i => 101 + i
  | .xmm i => 109 + i
  | .ymm i => 141 + i
  | .zmm i => 173 + i
  | .other i => 205 + i

/-- The registers, in one possible order. -/
def Reg.all : List Reg :=
  [Reg.invalid, .flags, .eflags, .rflags, .ip, .eip, .rip, .stackpush, .stackpop, .tsc,
    .tscaux] ++
    Gpr8h.all.map Reg.gpr8h ++ Seg.all.map Reg.seg ++
    Gpr.all.map Reg.gpr16 ++ Gpr.all.map Reg.gpr32 ++ Gpr.all.map Reg.gpr64 ++ Gpr.all.map Reg.gpr8 ++
    (List.finRange 8).map Reg.mmx ++ (List.finRange 8).map Reg.x87 ++
    (List.finRange 8).map Reg.pseudoX87 ++ (List.finRange 32).map Reg.xmm ++
    (List.finRange 32).map Reg.ymm ++ (List.finRange 32).map Reg.zmm ++ (List.finRange 256).map Reg.other

theorem Reg.mem_all (r : Reg) : r ∈ Reg.all := by
  cases r <;> simp [Reg.all, Gpr.mem_all, Gpr8h.mem_all, Seg.mem_all]

theorem Reg.map_number_all : Reg.all.map Reg.number = List.range 461 := by
  decide +kernel

theorem Reg.nodup_all : Reg.all.Nodup := by
  apply List.Nodup.of_map Reg.number
  rw [Reg.map_number_all]
  exact List.nodup_range

/-! ## flags -/

/-- The condition codes the executor reads and writes one by one. -/
inductive Flag where
  | cf | pf | af | zf | sf | df | of
  deriving DecidableEq, Repr

/-- The bit of a flag in `union Flags`. -/
def Flag.bit : Flag → Nat
  | .cf => 0
  | .pf => 2
  | .af => 4
  | .zf => 6
  | .sf => 7
  | .df => 10
  | .of => 11

/-- The order of the `READ_FLAG` and `WRITE_FLAG` lines. -/
def Flag.all : List Flag := [.cf, .pf, .af, .zf, .sf, .df, .of]

theorem Flag.mem_all (f : Flag) : f ∈ Flag.all := by cases f <;> decide

theorem Flag.nodup_all : Flag.all.Nodup := by decide

theorem Flag.bit_inj {f f' : Flag} (h : f.bit = f'.bit) : f = f' := by
  cases f <;> cases f' <;> first | rfl | contradiction

theorem Flag.bit_lt (f : Flag) : f.bit < 12 := by cases f <;> decide

/-- A field of `union Flags`. -/
def Flag.get (f : Flag) (flags : Word) : Bool := flags.getLsbD f.bit

/-- Assign a field of `union Flags`. -/
def Flag.set (f : Flag) (flags : Word) (b : Bool) : Word := Bits.put f.bit 1 flags (BitVec.ofBool b)

theorem Flag.get_set (f f' : Flag) (flags : Word) (b : Bool) :
    f.get (f'.set flags b) = if f = f' then b else f.get flags := by
  have hf := f.bit_lt
  rw [Flag.get, Flag.set, Bits.getLsbD_put _ _ _ _ _ (by omega)]
  by_cases h : f = f'
  · subst h
    simp
  · have hne : f.bit ≠ f'.bit := fun hb => h (Flag.bit_inj hb)
    rw [if_neg (by omega), if_neg h, Flag.get]

end Microx
