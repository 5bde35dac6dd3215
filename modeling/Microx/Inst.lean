import Microx.Reg

/-!
# Microx.Inst

What the executor asks XED about a decoded instruction, and what it hands to
XED's encoder and to the processor.

XED and the processor are not part of the repository: they are the parameters
`Xed` and `Cpu`.  Instruction forms the executor never looks at are `other`.
-/

namespace Microx

/-! ## instruction forms -/

/-- The conditions of `Jcc`. -/
inductive Cond where
  | nle | ns | l | np | nz | nb | no | nl | nbe | be | z | p | s | o | b | le
  deriving DecidableEq, Repr

/-- `RELBRb`, `RELBRz` and `RELBRd`. -/
inductive RelBr where
  | b | z | d
  deriving DecidableEq, Repr

/-- The element size of a string instruction. -/
inductive StringSize where
  | b | w | d | q
  deriving DecidableEq, Repr

/-- The string instructions. -/
inductive StringOp where
  | stos | scas | lods | movs | cmps
  deriving DecidableEq, Repr

/-- The string instructions that take `REP`. -/
inductive RepOp where
  | stos | lods | movs
  deriving DecidableEq, Repr

/-- The string instructions that take `REPE` and `REPNE`. -/
inductive RepCmpOp where
  | scas | cmps
  deriving DecidableEq, Repr

/-- `BT`, `BTS`, `BTC` and `BTR`. -/
inductive BitOp where
  | bt | bts | btc | btr
  deriving DecidableEq, Repr

/-- `xed_iform_enum_t`; a form keeps XED's name, a family of forms its parameters. -/
inductive IForm where
  | leaGPRvAGEN
  | jcc (c : Cond) (rel : RelBr)
  | loopneRELBRb | loopeRELBRb | loopRELBRb
  | jcxzRELBRb | jecxzRELBRb | jrcxzRELBRb
  | xbeginRELBRz | xabortIMMb | xend
  | jmpMEMv | jmpGPRv | jmpRELBR (rel : RelBr)
  | callNearRELBRz | callNearRELBRd | callNearMEMv | callNearGPRv
  | retNear | retNearIMMw
  | callFarMEMp2 | callFarPTRpIMMw | jmpFarMEMp2 | jmpFarPTRpIMMw | retFarIMMw | retFar
  | string (op : StringOp) (size : StringSize)
  | rep (op : RepOp) (size : StringSize)
  | repe (op : RepCmpOp) (size : StringSize)
  | repne (op : RepCmpOp) (size : StringSize)
  | pushMEMv | pushGPRvFFr6 | pushGPRv50 | pushIMMz | pushIMMb
  | popMEMv | popGPRv8F | popGPRv58
  | leave
  | pushSeg (s : Seg)
  | popSeg (s : Seg)
  | movMEMwSEG | movGPRvSEG | movSEGMEMw | movSEGGPR16
  | pushf | pushfd | pushfq
  | popf | popfd | popfq
  | pusha | pushad | popa | popad | enterIMMwIMMb
  | xlat
  | rdtscp | rdtsc
  /-- `BT*_MEMv_IMMb`, with or without a `LOCK` prefix. -/
  | bitMEMvIMMb (op : BitOp) (lock : Bool)
  /-- `BT*_MEMv_GPRv`, with or without a `LOCK` prefix. -/
  | bitMEMvGPRv (op : BitOp) (lock : Bool)
  | other (n : Nat)
  deriving DecidableEq, Repr

/-- `xed_category_enum_t`. -/
inductive Category where
  | nop | widenop
  | system
  | threeDNow | mpx | aes | rdrand | rdseed | segop | syscall | interrupt | sysret
  | xsave | xsaveopt | iostringop | rdwrfsgs | vtx
  | avx | avx2 | avx2gather
  | avx512 | avx512_4fmaps | avx512_4vnniw | avx512_bitalg | avx512_vbmi
  | other (n : Nat)
  deriving DecidableEq, Repr

/-- `xed_attribute_enum_t`, those that make an instruction unsupported. -/
inductive Attribute where
  | ring0 | protectedMode | farXfer | exceptionBr
  | x87MmxStateR | x87MmxStateW | x87MmxStateCW
  | xmmStateR | xmmStateW | xmmStateCW
  | kmask | maskop | maskopEvex | maskAsControl | maskVariableMemop
  deriving DecidableEq, Repr

/-! ## operands -/

/-- `XED_OPERAND_REG` and `XED_OPERAND_REG0` to `XED_OPERAND_REG8`. -/
inductive RegOp where
  | reg | reg0 | reg1 | reg2 | reg3 | reg4 | reg5 | reg6 | reg7 | reg8
  deriving DecidableEq, Repr

/-- `xed_operand_enum_t`. -/
inductive OperandName where
  | agen | mem0 | mem1
  | reg (r : RegOp)
  | imm0 | imm0signed | imm1 | imm1Bytes
  | other (n : Nat)
  deriving DecidableEq, Repr

/-- `xed_operand_visibility_enum_t`. -/
inductive Visibility where
  | explicit | implicit | suppressed
  deriving DecidableEq, Repr

/-- `xed_operand_t`. -/
structure Operand where
  name : OperandName
  read : Bool
  written : Bool
  conditionalWrite : Bool
  visibility : Visibility
  deriving DecidableEq, Repr

/-- `XED_OPERAND_AGEN`, `XED_OPERAND_MEM0` or `XED_OPERAND_MEM1`. -/
def OperandName.isMemory : OperandName → Bool
  | .agen | .mem0 | .mem1 => true
  | _ => false

/-- An instruction has up to two memory operands. -/
instance instNeZeroTwo : NeZero 2 := ⟨two_ne_zero⟩

/-- What XED knows of the `i`-th memory operand. -/
structure MemOperand where
  segReg : Reg
  baseReg : Reg
  indexReg : Reg
  scale : Word
  displacement : Word
  addressWidth : Nat
  /-- In bytes. -/
  length : Nat
  deriving DecidableEq, Repr

/-- `xed_simple_flag_t`. -/
structure RFlagsInfo where
  read : BitVec 32
  written : BitVec 32
  mayWrite : Bool
  deriving DecidableEq, Repr

/-- `xed_decoded_inst_t`, with the `xed_inst_t` it points to. -/
structure Inst where
  iform : IForm
  iclass : Nat
  category : Category
  hasAttribute : Attribute → Bool
  /-- In bytes. -/
  length : Nat
  /-- The effective operand width, in bits. -/
  operandWidth : Nat
  operands : List Operand
  reg : RegOp → Reg
  memOperand : Fin 2 → MemOperand
  rflags : Option RFlagsInfo
  /-- Sign-extended. -/
  branchDisplacement : Word
  unsignedImmediate : Word
  /-- Sign-extended. -/
  signedImmediate : Word
  immediateIsSigned : Bool
  immediateWidthBits : Nat
  secondImmediate : Word

/-! ## the encoder and the processor -/

/-- `xed_encoder_operand_t`. -/
inductive EncOperand where
  | invalid
  | reg (r : Reg) (widthBits : Nat)
  /-- A `RIP`-relative operand; its displacement is a placeholder until it points to a cell. -/
  | mem (widthBits : Nat) (toCell : Bool)
  | imm0 (value : Word) (widthBits : Nat)
  | simm0 (value : Word) (widthBits : Nat)
  | imm1 (value : Word) (widthBits : Nat)
  deriving DecidableEq, Repr

/-- `xed_encoder_instruction_t`; the mode is always the 64-bit one. -/
structure EncInst where
  iclass : Nat
  operandWidth : Nat
  operands : List EncOperand
  deriving DecidableEq, Repr

/-- The machine state around the call into the executable area. -/
structure NativeState where
  gpr : Gpr → Word
  xmm : Fin 8 → BitVec 128
  rflags : Word
  /-- The memory cell that `RIP`-relative operands point to. -/
  cell : Data
  fpu : FPU

/-- What the signal handlers saw. -/
inductive Signal where
  | none | segv | bus | fpe | ill
  deriving DecidableEq, Repr

/-- The XED library. -/
structure Xed where
  /-- The widths of the registers `Reg.widthBits64` does not know. -/
  special : Reg → Nat
  /-- The enumeration order of `xed_reg_enum_t`. -/
  regs : List Reg
  nodup_regs : regs.Nodup
  mem_regs : ∀ r, r ∈ regs
  decode : AddressSize → List Byte → Option Inst
  encode : EncInst → Bool

/-- The processor the executor runs on. -/
structure Cpu where
  /-- Run an encoded instruction; after a signal, what the saved state then holds. -/
  native : EncInst → NativeState → Signal × NativeState
  /-- The stack pointer of the executor itself. -/
  stackPointer : Word
  /-- The FPU state of the executor itself. -/
  fpu : FPU

namespace Xed

variable (xed : Xed)

/-- The number of a register. -/
def index (r : Reg) : Int := xed.regs.idxOf r

/-- `static_cast<xed_reg_enum_t>`. -/
def ofIndex (i : Int) : Reg := xed.regs.getD i.toNat .invalid

/-- An XED that enumerates the registers like `Reg.all`, with a decoder and an encoder. -/
def ofDecoder (decode : AddressSize → List Byte → Option Inst) (encode : EncInst → Bool) : Xed where
  special _ := 64
  regs := Reg.all
  nodup_regs := Reg.nodup_all
  mem_regs := Reg.mem_all
  decode := decode
  encode := encode

end Xed

/-! ## samples -/

/-- A register operand that is read, and perhaps written. -/
def Operand.register (x : RegOp) (written : Bool) : Operand :=
  ⟨.reg x, true, written, false, .suppressed⟩

/-- No memory operand. -/
def MemOperand.none : MemOperand := ⟨.invalid, .invalid, .invalid, 0, 0, 64, 0⟩

/-- An instruction without attributes, flags and immediates. -/
def Inst.scalar (iform : IForm) (length operandWidth : Nat) (operands : List Operand)
    (reg : RegOp → Reg) (memOperand : Fin 2 → MemOperand) (branchDisplacement : Word) : Inst where
  iform := iform
  iclass := 0
  category := .other 0
  hasAttribute _ := false
  length := length
  operandWidth := operandWidth
  operands := operands
  reg := reg
  memOperand := memOperand
  rflags := none
  branchDisplacement := branchDisplacement
  unsignedImmediate := 0
  signedImmediate := 0
  immediateIsSigned := false
  immediateWidthBits := 0
  secondImmediate := 0

/-- `NOP`. -/
def nopInst : Inst :=
  { Inst.scalar (.other 0) 1 32 [] (fun _ => .invalid) (fun _ => .none) 0 with category := .nop }

end Microx
