import Rv32emu.Insn

/-!
# `rv_decode`

The decoder of 32-bit words and of the 16-bit RVC encodings. It writes into a node; fields that a
format does not have keep their value, which is 0 in a new node. The opcode selections by `funct3`
and `funct7` are functions of their own (`opcodeOfLoad`, …), so that a fact about every opcode a
format can produce is one case analysis.

* `rvDecodeInto` : `illegal` is the return value `false`, with the node as far as it was written;
  `abort` is an `assert` of the source that fails (`op_cmisc_alu` on the RV64 and reserved
  encodings);
* `rvDecode` : the decoder of the user-mode builds on a zeroed node;
* `isCompressed`, `insnLen` : the length `block_translate` steps over.
-/

namespace Rv32emu

/-- The result of `rv_decode`. -/
inductive Decoded
  | ok (ir : Insn)
  | illegal (ir : Insn)
  | abort
  deriving DecidableEq, Repr

/-- The tail of a decoder: `ir` with the selected opcode, or `return false`. -/
def Decoded.select (ir : Insn) : Option Opcode → Decoded
  | some op => .ok { ir with opcode := op }
  | none => .illegal ir

def isCompressed (insn : Word) : Bool := insn &&& 3 ≠ 3

/-- The number of bytes `block_translate` advances by. -/
def insnLen (insn : Word) : Word := if isCompressed insn then 2 else 4

def signExtendH (x : Word) : Word := (x.setWidth 16).signExtend 32

def signExtendB (x : Word) : Word := (x.setWidth 8).signExtend 32

/-! ## Fields of a 32-bit word -/

def decodeRd (insn : Word) : Reg := insn.extractLsb' 7 5
def decodeRs1 (insn : Word) : Reg := insn.extractLsb' 15 5
def decodeRs2 (insn : Word) : Reg := insn.extractLsb' 20 5
def decodeFunct3 (insn : Word) : Nat := (insn.extractLsb' 12 3).toNat
def decodeFunct7 (insn : Word) : Nat := (insn.extractLsb' 25 7).toNat
def decodeUtypeImm (insn : Word) : Word := insn &&& 0xfffff000
def decodeItypeImm (insn : Word) : Word := (insn &&& 0xfff00000).sshiftRight 20

def decodeStypeImm (insn : Word) : Word :=
  ((insn &&& 0xfe000000) ||| ((insn &&& 0xf80) <<< 13)).sshiftRight 20

def decodeBtypeImm (insn : Word) : Word :=
  ((insn &&& 0x80000000) ||| ((insn &&& 0x80) <<< 23) ||| ((insn &&& 0x7e000000) >>> 1) |||
    ((insn &&& 0xf00) <<< 12)).sshiftRight 19

def decodeJtypeImm (insn : Word) : Word :=
  ((insn &&& 0x80000000) ||| ((insn &&& 0xff000) <<< 11) ||| ((insn &&& 0x100000) <<< 2) |||
    ((insn &&& 0x7fe00000) >>> 9)).sshiftRight 11

/-! ## Formats -/

def decodeItype (ir : Insn) (insn : Word) : Insn :=
  { ir with imm := decodeItypeImm insn, rs1 := decodeRs1 insn, rd := decodeRd insn }

def decodeUtype (ir : Insn) (insn : Word) : Insn :=
  { ir with imm := decodeUtypeImm insn, rd := decodeRd insn }

def decodeStype (ir : Insn) (insn : Word) : Insn :=
  { ir with imm := decodeStypeImm insn, rs2 := decodeRs2 insn, rs1 := decodeRs1 insn }

def decodeRtype (ir : Insn) (insn : Word) : Insn :=
  { ir with rs2 := decodeRs2 insn, rs1 := decodeRs1 insn, rd := decodeRd insn }

def decodeBtype (ir : Insn) (insn : Word) : Insn :=
  { ir with imm := decodeBtypeImm insn, rs2 := decodeRs2 insn, rs1 := decodeRs1 insn }

def decodeJtype (ir : Insn) (insn : Word) : Insn :=
  { ir with imm := decodeJtypeImm insn, rd := decodeRd insn }

/-- `rs3` is stored through the union, into the low byte of `imm`. -/
def decodeR4type (ir : Insn) (insn : Word) : Insn :=
  { ir with rd := decodeRd insn, rs1 := decodeRs1 insn, rs2 := decodeRs2 insn,
            imm := (ir.imm &&& 0xffffff00) ||| insn >>> 27,
            rm := BitVec.ofNat 8 (decodeFunct3 insn) }

/-! ## 32-bit opcodes -/

def opcodeOfLoad : Nat → Option Opcode
  | 0 => some .lb
  | 1 => some .lh
  | 2 => some .lw
  | 4 => some .lbu
  | 5 => some .lhu
  | _ => none

def opLoad (ir : Insn) (insn : Word) : Decoded :=
  .select (decodeItype ir insn) (opcodeOfLoad (decodeFunct3 insn))

/-- `case 1` of `op_op_imm`. -/
def opcodeOfSlli (imm : Word) : Option Opcode :=
  if imm = 0b011000000000 then some .clz
  else if imm = 0b011000000001 then some .ctz
  else if imm = 0b011000000010 then some .cpop
  else if imm = 0b011000000100 then some .sextb
  else if imm = 0b011000000101 then some .sexth
  else if imm.sshiftRight 5 = 0b0100100 then some .bclri
  else if imm.sshiftRight 5 = 0b0110100 then some .binvi
  else if imm.sshiftRight 5 = 0b0010100 then some .bseti
  else if imm &&& 0x20 ≠ 0 then none
  else some .slli

/-- `case 5` of `op_op_imm`. -/
def opcodeOfSrli (imm : Word) : Option Opcode :=
  if imm.sshiftRight 5 = 0b0110000 then some .rori
  else if imm = 0b001010000111 then some .orcb
  else if imm = 0b011010011000 then some .rev8
  else if imm.sshiftRight 5 = 0b0100100 then some .bexti
  else if imm &&& 0x20 ≠ 0 then none
  else if imm &&& ~~~0x1f ≠ 0 then some .srai
  else some .srli

def opcodeOfOpImm (imm : Word) : Nat → Option Opcode
  | 0 => some .addi
  | 1 => opcodeOfSlli imm
  | 2 => some .slti
  | 3 => some .sltiu
  | 4 => some .xori
  | 5 => opcodeOfSrli imm
  | 6 => some .ori
  | 7 => some .andi
  | _ => none

/-- An integer computation with destination `x0` is decoded as `nop`. -/
def opOpImm (ir : Insn) (insn : Word) : Decoded :=
  let ir := decodeItype ir insn
  if ir.rd = regZero then .ok { ir with opcode := .nop }
  else match opcodeOfOpImm ir.imm (decodeFunct3 insn) with
    | some op => .ok { ir with opcode := op }
    -- the opcode of a shift is stored before its amount is checked
    | none => .illegal { ir with opcode := if decodeFunct3 insn = 1 then .slli else .srai }

def opAuipc (ir : Insn) (insn : Word) : Decoded :=
  let ir := decodeUtype ir insn
  if ir.rd = regZero then .ok { ir with opcode := .nop } else .ok { ir with opcode := .auipc }

def opcodeOfStore : Nat → Option Opcode
  | 0 => some .sb
  | 1 => some .sh
  | 2 => some .sw
  | _ => none

def opStore (ir : Insn) (insn : Word) : Decoded :=
  .select (decodeStype ir insn) (opcodeOfStore (decodeFunct3 insn))

/-- The selection of `op_op` by `funct7` and `funct3`. -/
def opcodeOfOp (rs2 : Reg) (funct3 : Nat) : Nat → Option Opcode
  | 0b0000000 =>
    match funct3 with
    | 0 => some .add
    | 1 => some .sll
    | 2 => some .slt
    | 3 => some .sltu
    | 4 => some .xor
    | 5 => some .srl
    | 6 => some .or
    | 7 => some .and
    | _ => none
  | 0b0000001 =>
    match funct3 with
    | 0 => some .mul
    | 1 => some .mulh
    | 2 => some .mulhsu
    | 3 => some .mulhu
    | 4 => some .div
    | 5 => some .divu
    | 6 => some .rem
    | 7 => some .remu
    | _ => none
  | 0b0010000 =>
    match funct3 with
    | 2 => some .sh1add
    | 4 => some .sh2add
    | 6 => some .sh3add
    | _ => none
  | 0b0000101 =>
    match funct3 with
    | 6 => some .max
    | 4 => some .min
    | 7 => some .maxu
    | 5 => some .minu
    | 1 => some .clmul
    | 3 => some .clmulh
    | 2 => some .clmulr
    | _ => none
  | 0b0110000 =>
    match funct3 with
    | 1 => some .rol
    | 5 => some .ror
    | _ => none
  | 0b0000100 => if rs2 ≠ 0 then none else some .zexth
  | 0b0100100 =>
    match funct3 with
    | 1 => some .bclr
    | 5 => some .bext
    | _ => none
  | 0b0110100 => if funct3 ≠ 1 then none else some .binv
  | 0b0010100 => if funct3 ≠ 1 then none else some .bset
  | 0b0100000 =>
    match funct3 with
    | 0 => some .sub
    | 5 => some .sra
    | 7 => some .andn
    | 6 => some .orn
    | 4 => some .xnor
    | _ => none
  | _ => none

def opOp (ir : Insn) (insn : Word) : Decoded :=
  let ir := decodeRtype ir insn
  if ir.rd = regZero then .ok { ir with opcode := .nop }
  else .select ir (opcodeOfOp ir.rs2 (decodeFunct3 insn) (decodeFunct7 insn))

def opLui (ir : Insn) (insn : Word) : Decoded :=
  let ir := decodeUtype ir insn
  if ir.rd = regZero then .ok { ir with opcode := .nop } else .ok { ir with opcode := .lui }

def opcodeOfBranch : Nat → Option Opcode
  | 0 => some .beq
  | 1 => some .bne
  | 4 => some .blt
  | 5 => some .bge
  | 6 => some .bltu
  | 7 => some .bgeu
  | _ => none

def opBranch (ir : Insn) (insn : Word) : Decoded :=
  .select (decodeBtype ir insn) (opcodeOfBranch (decodeFunct3 insn))

def opJalr (ir : Insn) (insn : Word) : Decoded := .ok { decodeItype ir insn with opcode := .jalr }

def opJal (ir : Insn) (insn : Word) : Decoded := .ok { decodeJtype ir insn with opcode := .jal }

/-- `csr_is_writable`, on the sign-extended immediate read as unsigned. -/
def csrIsWritable (csr : Word) : Bool := csr.ult 0xc00

/-- `sret` is decoded in `SYSTEM` builds only. -/
def opcodeOfSystem (system : Bool) (insn imm : Word) : Nat → Option Opcode
  | 0 =>
    if insn >>> 25 = 0b0001001 then some .sfencevma
    else if imm = 0 then some .ecall
    else if imm = 1 then some .ebreak
    else if imm = 0x105 then some .wfi
    else if system ∧ imm = 0x102 then some .sret
    else if imm = 0x302 then some .mret
    else none
  | 1 => some .csrrw
  | 2 => some .csrrs
  | 3 => some .csrrc
  | 5 => some .csrrwi
  | 6 => some .csrrsi
  | 7 => some .csrrci
  | _ => none

def opSystem (system : Bool) (ir : Insn) (insn : Word) : Decoded :=
  let ir := decodeItype ir insn
  match opcodeOfSystem system insn ir.imm (decodeFunct3 insn) with
  | some op =>
    if csrIsWritable ir.imm || ir.rs1 = regZero then .ok { ir with opcode := op }
    else .illegal { ir with opcode := op }
  | none => .illegal ir

def opMiscMem (ir : Insn) (insn : Word) : Decoded :=
  match decodeFunct3 insn with
  | 0 => .ok { ir with opcode := .fence }
  | 1 => .ok { ir with opcode := .fencei }
  | _ => .illegal ir

def opcodeOfAmo : Nat → Option Opcode
  | 0b00010 => some .lrw
  | 0b00011 => some .scw
  | 0b00001 => some .amoswapw
  | 0b00000 => some .amoaddw
  | 0b00100 => some .amoxorw
  | 0b01100 => some .amoandw
  | 0b01000 => some .amoorw
  | 0b10000 => some .amominw
  | 0b10100 => some .amomaxw
  | 0b11000 => some .amominuw
  | 0b11100 => some .amomaxuw
  | _ => none

def opAmo (ir : Insn) (insn : Word) : Decoded :=
  .select (decodeRtype ir insn) (opcodeOfAmo (decodeFunct7 insn / 4))

def opLoadFp (ir : Insn) (insn : Word) : Decoded := .ok { decodeItype ir insn with opcode := .flw }

def opStoreFp (ir : Insn) (insn : Word) : Decoded := .ok { decodeStype ir insn with opcode := .fsw }

def opcodeOfOpFp (rm : Nat) (rs2 : Reg) : Nat → Option Opcode
  | 0b0000000 => some .fadds
  | 0b0000100 => some .fsubs
  | 0b0001000 => some .fmuls
  | 0b0001100 => some .fdivs
  | 0b0101100 => some .fsqrts
  | 0b0010000 =>
    match rm with
    | 0 => some .fsgnjs
    | 1 => some .fsgnjns
    | 2 => some .fsgnjxs
    | _ => none
  | 0b1100000 => if rs2 = 0 then some .fcvtws else if rs2 = 1 then some .fcvtwus else none
  | 0b0010100 =>
    match rm with
    | 0 => some .fmins
    | 1 => some .fmaxs
    | _ => none
  | 0b1110000 =>
    match rm with
    | 0 => some .fmvxw
    | 1 => some .fclasss
    | _ => none
  | 0b1010000 =>
    match rm with
    | 2 => some .feqs
    | 1 => some .flts
    | 0 => some .fles
    | _ => none
  | 0b1101000 => if rs2 = 0 then some .fcvtsw else if rs2 = 1 then some .fcvtswu else none
  | 0b1111000 => some .fmvwx
  | _ => none

def opOpFp (ir : Insn) (insn : Word) : Decoded :=
  let rm := decodeFunct3 insn
  let ir := { decodeRtype ir insn with rm := BitVec.ofNat 8 rm }
  .select ir (opcodeOfOpFp rm ir.rs2 (decodeFunct7 insn))

def opMadd (ir : Insn) (insn : Word) : Decoded :=
  .ok { decodeR4type ir insn with opcode := .fmadds }
def opMsub (ir : Insn) (insn : Word) : Decoded :=
  .ok { decodeR4type ir insn with opcode := .fmsubs }
def opNmsub (ir : Insn) (insn : Word) : Decoded :=
  .ok { decodeR4type ir insn with opcode := .fnmsubs }
def opNmadd (ir : Insn) (insn : Word) : Decoded :=
  .ok { decodeR4type ir insn with opcode := .fnmadds }

/-! ## RVC encodings -/

def cDecodeRs1 (insn : Word) : Reg := insn.extractLsb' 7 5
def cDecodeRs2 (insn : Word) : Reg := insn.extractLsb' 2 5
def cDecodeRd (insn : Word) : Reg := insn.extractLsb' 7 5

def cDecodeRs1c (insn : Word) : Reg := (insn.extractLsb' 7 3).setWidth 5 ||| 8

/-- `c_decode_rs2c(insn) | 0x08`, which is also `c_decode_rdc(insn) | 0x08`. -/
def cDecodeRs2c (insn : Word) : Reg := (insn.extractLsb' 2 3).setWidth 5 ||| 8

def cDecodeCaddi4spnNzuimm (insn : Word) : Word :=
  ((insn &&& 0x1800) >>> 7) ||| ((insn &&& 0x780) >>> 1) ||| ((insn &&& 0x40) >>> 4) |||
    ((insn &&& 0x20) >>> 2)

def cDecodeCaddi16spNzimm (insn : Word) : Word :=
  let tmp := ((insn &&& 0x1000) >>> 3) ||| ((insn &&& 0x40) >>> 2) ||| ((insn &&& 0x20) <<< 1) |||
    ((insn &&& 0x18) <<< 4) ||| ((insn &&& 0x4) <<< 3)
  if tmp &&& 0x200 ≠ 0 then 0xfffffc00 ||| tmp else tmp

def cDecodeCluiNzimm (insn : Word) : Word :=
  let tmp := ((insn &&& 0x1000) <<< 5) ||| ((insn &&& 0x7c) <<< 10)
  if tmp &&& 0x20000 ≠ 0 then 0xfffc0000 ||| tmp else tmp

/-- The loop ORs `mask >> i` for `i = 0..10`, `mask` a 16-bit value. -/
def cDecodeCaddiImm (insn : Word) : Word :=
  let mask : BitVec 16 := ((insn &&& 0x1000) <<< 3).setWidth 16
  let sign := (List.range 11).foldl (fun tmp i => tmp ||| (mask >>> i).setWidth 32) (0 : Word)
  signExtendH (sign ||| ((insn &&& 0x7c) >>> 2))

def cDecodeCitypeImm (insn : Word) : Word :=
  let tmp := ((insn &&& 0x1000) >>> 7) ||| ((insn &&& 0x7c) >>> 2)
  if tmp &&& 0x20 ≠ 0 then 0xffffffc0 ||| tmp else tmp

def cDecodeCjtypeImm (insn : Word) : Word :=
  let tmp : BitVec 16 := (((insn &&& 0x38) >>> 2) ||| ((insn &&& 0x800) >>> 7) |||
    ((insn &&& 0x4) <<< 3) ||| ((insn &&& 0x80) >>> 1) ||| ((insn &&& 0x40) <<< 1) |||
    ((insn &&& 0x600) >>> 1) ||| ((insn &&& 0x100) <<< 2) ||| ((insn &&& 0x1000) >>> 1)).setWidth 16
  let tmp := (List.range 4).foldl
    (fun (tmp : BitVec 16) i => tmp ||| ((0x0800 &&& tmp) <<< (i + 1))) tmp
  tmp.signExtend 32

def cDecodeCbtypeShamt (insn : Word) : BitVec 8 :=
  (((insn &&& 0x1000) >>> 7) ||| ((insn &&& 0x7c) >>> 2)).setWidth 8

def cDecodeCbtypeImm (insn : Word) : BitVec 16 :=
  let tmp : BitVec 16 := (((insn &&& 0x18) >>> 2) ||| ((insn &&& 0xc00) >>> 7) |||
    ((insn &&& 0x4) <<< 3) ||| ((insn &&& 0x60) <<< 1) ||| ((insn &&& 0x1000) >>> 4)).setWidth 16
  (List.range 8).foldl (fun (tmp : BitVec 16) i => tmp ||| ((0x0100 &&& tmp) <<< (i + 1))) tmp

/-- The scaled offset of `c.lw`, `c.sw`, `c.flw` and `c.fsw`. -/
def cDecodeClImm (insn : Word) : Word :=
  ((insn &&& 0x40) >>> 4) ||| ((insn &&& 0x1c00) >>> 7) ||| ((insn &&& 0x20) <<< 1)

/-- The scaled offset of `c.lwsp` and `c.flwsp`. -/
def cDecodeClwspImm (insn : Word) : Word :=
  ((insn &&& 0x70) >>> 2) ||| ((insn &&& 0x0c) <<< 4) ||| ((insn &&& 0x1000) >>> 7)

/-- The scaled offset of `c.swsp` and `c.fswsp`. -/
def cDecodeCswspImm (insn : Word) : Word := ((insn &&& 0x1e00) >>> 7) ||| ((insn &&& 0x180) >>> 1)

def opCaddi (ir : Insn) (insn : Word) : Decoded :=
  let rd := cDecodeRd insn
  if rd = 0 then .ok { ir with rd, opcode := .cnop }
  else .ok { ir with rd, imm := cDecodeCitypeImm insn, opcode := .caddi }

def opCaddi4spn (ir : Insn) (insn : Word) : Decoded :=
  let imm := cDecodeCaddi4spnNzuimm insn
  let ir := { ir with imm, rd := cDecodeRs2c insn }
  if imm = 0 then .illegal ir else .ok { ir with opcode := .caddi4spn }

def opCli (ir : Insn) (insn : Word) : Decoded :=
  .ok { ir with imm := cDecodeCitypeImm insn, rd := cDecodeRd insn, opcode := .cli }

def opClui (ir : Insn) (insn : Word) : Decoded :=
  let rd := cDecodeRd insn
  if rd = 0 then .ok { ir with rd, opcode := .cnop }
  else if rd = 2 then
    let imm := cDecodeCaddi16spNzimm insn
    if imm = 0 then .illegal { ir with rd, imm } else .ok { ir with rd, imm, opcode := .caddi16sp }
  else
    let imm := cDecodeCluiNzimm insn
    if imm = 0 then .illegal { ir with rd, imm } else .ok { ir with rd, imm, opcode := .clui }

/-- The arithmetic group of `op_cmisc_alu`; the other four selectors are asserted unreachable. -/
def opcodeOfCa : Nat → Option Opcode
  | 0 => some .csub
  | 1 => some .cxor
  | 2 => some .cor
  | 3 => some .cand
  | _ => none

def opCmiscAlu (ir : Insn) (insn : Word) : Decoded :=
  match (insn.extractLsb' 10 2).toNat with
  | 0 =>
    let shamt := cDecodeCbtypeShamt insn
    let rs1 := cDecodeRs1c insn
    if shamt &&& 0x20 ≠ 0 then .illegal { ir with shamt, rs1 }
    else .ok { ir with shamt, rs1, opcode := if rs1 = 0 ∨ shamt = 0 then .cnop else .csrli }
  | 1 =>
    let shamt := cDecodeCbtypeShamt insn
    if shamt &&& 0x20 ≠ 0 then .illegal { ir with shamt, rs1 := cDecodeRs1 insn }
    else .ok { ir with shamt, rs1 := cDecodeRs1 insn, opcode := .csrai }
  | 2 => .ok { ir with rs1 := cDecodeRs1c insn, imm := cDecodeCaddiImm insn, opcode := .candi }
  | _ =>
    match opcodeOfCa (((insn &&& 0x1000) >>> 10) ||| ((insn &&& 0x60) >>> 5)).toNat with
    | some op =>
      .ok { ir with rs1 := cDecodeRs1c insn, rs2 := cDecodeRs2c insn, rd := cDecodeRs1c insn,
                    opcode := op }
    | none => .abort

def opCslli (ir : Insn) (insn : Word) : Decoded :=
  let rd := cDecodeRd insn
  .ok { ir with imm := ((insn &&& 0x1000) >>> 7) ||| ((insn &&& 0x7c) >>> 2), rd,
                opcode := if rd ≠ 0 then .cslli else .cnop }

def opClwsp (ir : Insn) (insn : Word) : Decoded :=
  let rd := cDecodeRd insn
  .ok { ir with imm := cDecodeClwspImm insn, rd, opcode := if rd ≠ 0 then .clwsp else .cnop }

def opCswsp (ir : Insn) (insn : Word) : Decoded :=
  .ok { ir with imm := cDecodeCswspImm insn, rs2 := cDecodeRs2 insn, opcode := .cswsp }

def opClw (ir : Insn) (insn : Word) : Decoded :=
  .ok { ir with imm := cDecodeClImm insn, rd := cDecodeRs2c insn, rs1 := cDecodeRs1c insn,
                opcode := .clw }

def opCsw (ir : Insn) (insn : Word) : Decoded :=
  .ok { ir with imm := cDecodeClImm insn, rs1 := cDecodeRs1c insn, rs2 := cDecodeRs2c insn,
                opcode := .csw }

def opCj (ir : Insn) (insn : Word) : Decoded :=
  .ok { ir with imm := cDecodeCjtypeImm insn, opcode := .cj }

def opCjal (ir : Insn) (insn : Word) : Decoded :=
  .ok { ir with imm := signExtendH (cDecodeCjtypeImm insn), opcode := .cjal }

def opCcr (ir : Insn) (insn : Word) : Decoded :=
  let rs1 := cDecodeRs1 insn
  let rs2 := cDecodeRs2 insn
  let ir := { ir with rs1, rs2, rd := rs1 }
  if insn &&& 0x1000 = 0 then
    if rs2 = 0 then
      if rs1 = 0 then .illegal ir else .ok { ir with opcode := .cjr }
    else .ok { ir with opcode := if rs1 ≠ 0 then .cmv else .cnop }
  else if rs1 = 0 ∧ rs2 = 0 then .ok { ir with opcode := .ebreak }
  else if rs1 ≠ 0 ∧ rs2 ≠ 0 then .ok { ir with opcode := .cadd }
  else if rs1 ≠ 0 then .ok { ir with opcode := .cjalr }
  else .ok { ir with opcode := .cnop }

def opCbeqz (ir : Insn) (insn : Word) : Decoded :=
  .ok { ir with imm := signExtendH ((cDecodeCbtypeImm insn).setWidth 32), rs1 := cDecodeRs1c insn,
                opcode := .cbeqz }

def opCbnez (ir : Insn) (insn : Word) : Decoded :=
  .ok { ir with imm := signExtendH ((cDecodeCbtypeImm insn).setWidth 32), rs1 := cDecodeRs1c insn,
                opcode := .cbnez }

def opCflwsp (ir : Insn) (insn : Word) : Decoded :=
  .ok { ir with imm := cDecodeClwspImm insn, rd := cDecodeRd insn, opcode := .cflwsp }

def opCfswsp (ir : Insn) (insn : Word) : Decoded :=
  .ok { ir with imm := cDecodeCswspImm insn, rs2 := cDecodeRs2 insn, opcode := .cfswsp }

def opCflw (ir : Insn) (insn : Word) : Decoded :=
  .ok { ir with imm := cDecodeClImm insn, rd := cDecodeRs2c insn, rs1 := cDecodeRs1c insn,
                opcode := .cflw }

def opCfsw (ir : Insn) (insn : Word) : Decoded :=
  .ok { ir with imm := cDecodeClImm insn, rs1 := cDecodeRs1c insn, rs2 := cDecodeRs2c insn,
                opcode := .cfsw }

/-! ## The jump tables -/

/-- `rv_jump_table`, indexed by `insn[6:2]`. -/
def rvJumpTable (system : Bool) (ir : Insn) (insn : Word) : Decoded :=
  match (insn.extractLsb' 2 5).toNat with
  | 0b00000 => opLoad ir insn
  | 0b00001 => opLoadFp ir insn
  | 0b00011 => opMiscMem ir insn
  | 0b00100 => opOpImm ir insn
  | 0b00101 => opAuipc ir insn
  | 0b01000 => opStore ir insn
  | 0b01001 => opStoreFp ir insn
  | 0b01011 => opAmo ir insn
  | 0b01100 => opOp ir insn
  | 0b01101 => opLui ir insn
  | 0b10000 => opMadd ir insn
  | 0b10001 => opMsub ir insn
  | 0b10010 => opNmsub ir insn
  | 0b10011 => opNmadd ir insn
  | 0b10100 => opOpFp ir insn
  | 0b11000 => opBranch ir insn
  | 0b11001 => opJalr ir insn
  | 0b11011 => opJal ir insn
  | 0b11100 => opSystem system ir insn
  | _ => .illegal ir

/-- `rvc_jump_table`, indexed by `insn[15:13]` and the quadrant `insn[1:0]`. -/
def rvcJumpTable (ir : Insn) (insn : Word) : Decoded :=
  match (insn.extractLsb' 13 3).toNat, (insn.extractLsb' 0 2).toNat with
  | 0b000, 0b00 => opCaddi4spn ir insn
  | 0b000, 0b01 => opCaddi ir insn
  | 0b000, 0b10 => opCslli ir insn
  | 0b001, 0b01 => opCjal ir insn
  | 0b010, 0b00 => opClw ir insn
  | 0b010, 0b01 => opCli ir insn
  | 0b010, 0b10 => opClwsp ir insn
  | 0b011, 0b00 => opCflw ir insn
  | 0b011, 0b01 => opClui ir insn
  | 0b011, 0b10 => opCflwsp ir insn
  | 0b100, 0b01 => opCmiscAlu ir insn
  | 0b100, 0b10 => opCcr ir insn
  | 0b101, 0b01 => opCj ir insn
  | 0b110, 0b00 => opCsw ir insn
  | 0b110, 0b01 => opCbeqz ir insn
  | 0b110, 0b10 => opCswsp ir insn
  | 0b111, 0b00 => opCfsw ir insn
  | 0b111, 0b01 => opCbnez ir insn
  | 0b111, 0b10 => opCfswsp ir insn
  | _, _ => .illegal ir

/-- `rv_decode`; `system` is `RV32_HAS(SYSTEM)` and `extC` is `RV32_HAS(EXT_C)`. -/
def rvDecodeInto (system extC : Bool) (ir : Insn) (insn : Word) : Decoded :=
  if extC && isCompressed insn then rvcJumpTable ir (insn &&& 0xffff)
  else rvJumpTable system ir insn

/-- `rv_decode` of the user-mode builds. -/
def rvDecode (extC : Bool) (insn : Word) : Decoded := rvDecodeInto false extC {} insn

end Rv32emu
