import Rv32emu.SysTemplate

/-!
# Decoding into a used node

`rv_decode` writes the fields of a format and leaves the others as they are. `__trap_handler` decodes
one word after the other into the same node, so the fields of earlier words are still there.

* `Fields`, `Opcode.reads` : the fields that the handler of an opcode reads;
* `Insn.Alike` : nodes that agree on them, so that the handler cannot tell them apart
  (`Insn.Alike.same`, `sysRvop_congr`);
* `rvDecodeInto_alike` : what was in the node before changes neither the verdict of the decoder nor a
  field that is read.
-/

namespace Rv32emu

/-- A set of fields of `rv_insn_t`; `rs3` is the low byte of `imm`. -/
structure Fields where
  imm : Bool := false
  rd : Bool := false
  rs1 : Bool := false
  rs2 : Bool := false
  rs3 : Bool := false
  shamt : Bool := false
  rm : Bool := false
  deriving DecidableEq, Repr

namespace Fields

abbrev none : Fields := {}
abbrev imm_ : Fields := { imm := true }
abbrev immRd : Fields := { imm := true, rd := true }
abbrev immRs1 : Fields := { imm := true, rs1 := true }
abbrev immRs2 : Fields := { imm := true, rs2 := true }
abbrev itype : Fields := { imm := true, rd := true, rs1 := true }
abbrev stype : Fields := { imm := true, rs1 := true, rs2 := true }
abbrev rtype : Fields := { rd := true, rs1 := true, rs2 := true }
abbrev fp : Fields := { rd := true, rs1 := true, rs2 := true, rm := true }
abbrev r4type : Fields := { rd := true, rs1 := true, rs2 := true, rs3 := true, rm := true }
abbrev shamtRs1 : Fields := { rs1 := true, shamt := true }
abbrev rs1_ : Fields := { rs1 := true }

end Fields

/-- The fields that the handler of an opcode reads. -/
def Opcode.reads : Opcode → Fields
  | .lui | .auipc | .jal | .caddi4spn | .caddi | .cli | .caddi16sp | .clui | .cslli | .clwsp
  | .cflwsp => .immRd
  | .jalr | .lb | .lh | .lw | .lbu | .lhu | .addi | .slti | .sltiu | .xori | .ori | .andi | .slli
  | .srli | .srai | .csrrw | .csrrs | .csrrc | .csrrwi | .csrrsi | .csrrci | .clz | .ctz | .cpop
  | .sextb | .sexth | .rori | .orcb | .rev8 | .bclri | .bexti | .binvi | .bseti | .flw | .clw
  | .cflw => .itype
  | .beq | .bne | .blt | .bge | .bltu | .bgeu | .sb | .sh | .sw | .fsw | .csw | .cfsw => .stype
  | .add | .sub | .sll | .slt | .sltu | .xor | .srl | .sra | .or | .and | .mul | .mulh | .mulhsu
  | .mulhu | .div | .divu | .rem | .remu | .sh1add | .sh2add | .sh3add | .andn | .orn | .xnor
  | .max | .maxu | .min | .minu | .zexth | .rol | .ror | .clmul | .clmulh | .clmulr | .bclr | .bext
  | .binv | .bset | .lrw | .scw | .amoswapw | .amoaddw | .amoxorw | .amoandw | .amoorw | .amominw
  | .amomaxw | .amominuw | .amomaxuw | .csub | .cxor | .cor | .cand | .cjr | .cmv | .cjalr
  | .cadd => .rtype
  | .fmadds | .fmsubs | .fnmsubs | .fnmadds => .r4type
  | .fadds | .fsubs | .fmuls | .fdivs | .fsqrts | .fsgnjs | .fsgnjns | .fsgnjxs | .fmins | .fmaxs
  | .fcvtws | .fcvtwus | .fmvxw | .feqs | .flts | .fles | .fclasss | .fcvtsw | .fcvtswu
  | .fmvwx => .fp
  | .csrli | .csrai => .shamtRs1
  | .candi | .cbeqz | .cbnez => .immRs1
  | .cj | .cjal => .imm_
  | .cswsp | .cfswsp => .immRs2
  | .sfencevma => .rs1_
  | _ => .none

/-- Two nodes with the same opcode that agree on the fields it reads. -/
structure Insn.Alike (a b : Insn) : Prop where
  opcode : a.opcode = b.opcode
  imm : b.opcode.reads.imm = true → a.imm = b.imm
  rd : b.opcode.reads.rd = true → a.rd = b.rd
  rs1 : b.opcode.reads.rs1 = true → a.rs1 = b.rs1
  rs2 : b.opcode.reads.rs2 = true → a.rs2 = b.rs2
  rs3 : b.opcode.reads.rs3 = true → a.rs3 = b.rs3
  shamt : b.opcode.reads.shamt = true → a.shamt = b.shamt
  rm : b.opcode.reads.rm = true → a.rm = b.rm

/-! ## Handlers -/

/-- Two nodes that a body of each shape cannot tell apart, given that they have the same opcode. -/
def Code.Same (a b : Insn) : Code → Prop
  | .set dst val => dst a = dst b ∧ val a = val b
  | .load _ _ addr _ | .flw addr => addr a = addr b ∧ a.rd = b.rd
  | .store _ _ addr _ | .fsw addr => addr a = addr b ∧ a.rs2 = b.rs2
  | .lrw => a.rs1 = b.rs1 ∧ a.rd = b.rd
  | .scw | .amo _ => a.rs1 = b.rs1 ∧ a.rs2 = b.rs2 ∧ a.rd = b.rd
  | .fpu f => ∀ sf, f sf a = f sf b
  | .fpuX f => (∀ sf, f sf a = f sf b) ∧ a.rd = b.rd
  | .csr f => (∀ env, f env a = f env b) ∧ a.rd = b.rd ∧ a.imm = b.imm
  | .branch _ => a.rs1 = b.rs1 ∧ a.rs2 = b.rs2 ∧ a.imm = b.imm
  | .cbranch _ => a.rs1 = b.rs1 ∧ a.imm = b.imm
  | .jal => a.rd = b.rd ∧ a.imm = b.imm
  | .jalr => a.rd = b.rd ∧ a.rs1 = b.rs1 ∧ a.imm = b.imm
  | .cjal | .cj => a.imm = b.imm
  | .cjr | .cjalr => a.rs1 = b.rs1
  | .leave => a.opcode = .sfencevma → a.rs1 = b.rs1
  | .skip | .fencei | .ecall | .ebreak _ | .mret | .fail => True

theorem sysExec_congr (env : SysEnv) (raise : Raise) {a b : Insn} (hop : a.opcode = b.opcode) {code : Code}
    (h : code.Same a b) (lk : Links) (cycle : BitVec 64) (pc : Word) :
    code.sysExec env raise a lk cycle pc = code.sysExec env raise b lk cycle pc := by
  cases code with
  | set dst val => simp only [Code.sysExec, Code.exec, h.1, h.2]
  | fpu f =>
    have hf : f env.fp a = f env.fp b := h env.fp
    simp only [Code.sysExec, Code.exec, hf]
  | load compress mask addr read | flw addr => simp only [Code.sysExec, h.1, h.2]
  | store compress mask addr write | fsw addr => simp only [Code.sysExec, h.1, h.2]
  | lrw => simp only [Code.sysExec, h.1, h.2]
  | scw | amo f => simp only [Code.sysExec, h.1, h.2.1, h.2.2]
  | fpuX f => simp only [Code.sysExec, Code.exec, h.1, h.2]
  | csr f =>
    obtain ⟨hf, hrd, himm⟩ := h
    have hside : csrSideEffects a = csrSideEffects b := by
      funext old s
      simp only [csrSideEffects, hop, himm]
    simp only [Code.sysExec, hf, hrd, hside]
  | branch untaken => simp only [Code.sysExec, h.1, h.2.1, h.2.2]
  | cbranch untaken => simp only [Code.sysExec, h.1, h.2]
  | jal => simp only [Code.sysExec, h.1, h.2]
  | jalr => simp only [Code.sysExec, h.1, h.2.1, h.2.2]
  | cjal | cj | cjr | cjalr => simp only [Code.sysExec, show _ = _ from h]
  | leave =>
    simp only [Code.sysExec, hop]
    by_cases hs : b.opcode = .sfencevma
    · simp only [h (hop.trans hs)]
    · simp only [hs, if_false]
  | skip | fencei | ecall | ebreak compress | mret => rfl
  | fail => simp only [Code.sysExec, hop]

theorem sysEndOp_congr {a b : Insn} (hop : a.opcode = b.opcode) (lk : Links) (cycle : BitVec 64)
    (pc : Word) : sysEndOp a lk cycle pc = sysEndOp b lk cycle pc := by
  rw [sysEndOp, sysEndOp, hop]

theorem sysNextop_congr {a b : Insn} (hop : a.opcode = b.opcode) (lk : Links) (noNext : Bool)
    (cycle : BitVec 64) (pc : Word) :
    sysNextop a lk noNext cycle pc = sysNextop b lk noNext cycle pc := by
  simp only [sysNextop, hop, sysEndOp_congr hop]

theorem sysRvop_congr (env : SysEnv) (raise : Raise) {a b : Insn} (hop : a.opcode = b.opcode)
    (h : (rvop b.opcode).Same a b) (lk : Links) (noNext : Bool) (cycle : BitVec 64) (pc : Word) :
    sysRvop env raise a lk noNext cycle pc = sysRvop env raise b lk noNext cycle pc := by
  simp only [sysRvop, hop, sysExec_congr env raise hop h, sysNextop_congr hop, sysEndOp_congr hop]

/-- **A handler reads the fields of its opcode only.** -/
theorem Insn.Alike.same {a b : Insn} (h : a.Alike b) : (rvop b.opcode).Same a b := by
  obtain ⟨imm, rd, rs1, rs2, opcode, shamt, rm, imm2, fuse, pc⟩ := b
  obtain ⟨imm', rd', rs1', rs2', opcode', shamt', rm', imm2', fuse', pc'⟩ := a
  obtain ⟨hop, himm, hrd, hrs1, hrs2, hrs3, hshamt, hrm⟩ := h
  simp only at hop himm hrd hrs1 hrs2 hrs3 hshamt hrm
  subst hop
  cases opcode'
  case lui | auipc | jal | caddi4spn | caddi | cli | caddi16sp | clui | cslli | clwsp | cflwsp
      =>
    obtain rfl := himm rfl
    obtain rfl := hrd rfl
    exact ⟨rfl, rfl⟩
  case jalr | lb | lh | lw | lbu | lhu | addi | slti | sltiu | xori | ori | andi | slli | srli |
      srai | csrrw | csrrs | csrrc | csrrwi | csrrsi | csrrci | clz | ctz | cpop | sextb | sexth
      | rori | orcb | rev8 | bclri | bexti | binvi | bseti | flw | clw | cflw =>
    obtain rfl := himm rfl
    obtain rfl := hrd rfl
    obtain rfl := hrs1 rfl
    first | exact ⟨rfl, rfl⟩ | exact ⟨rfl, rfl, rfl⟩ | exact ⟨fun _ => rfl, rfl, rfl⟩
  case beq | bne | blt | bge | bltu | bgeu | sb | sh | sw | fsw | csw | cfsw =>
    obtain rfl := himm rfl
    obtain rfl := hrs1 rfl
    obtain rfl := hrs2 rfl
    first | exact ⟨rfl, rfl⟩ | exact ⟨rfl, rfl, rfl⟩
  case add | sub | sll | slt | sltu | xor | srl | sra | or | and | mul | mulh | mulhsu | mulhu |
      div | divu | rem | remu | sh1add | sh2add | sh3add | andn | orn | xnor | max | maxu | min
      | minu | zexth | rol | ror | clmul | clmulh | clmulr | bclr | bext | binv | bset | lrw |
      scw | amoswapw | amoaddw | amoxorw | amoandw | amoorw | amominw | amomaxw | amominuw |
      amomaxuw | csub | cxor | cor | cand | cjr | cmv | cjalr | cadd =>
    obtain rfl := hrd rfl
    obtain rfl := hrs1 rfl
    obtain rfl := hrs2 rfl
    first | exact ⟨rfl, rfl⟩ | exact ⟨rfl, rfl, rfl⟩ | rfl
  case fmadds | fmsubs | fnmsubs | fnmadds =>
    obtain rfl := hrd rfl
    obtain rfl := hrs1 rfl
    obtain rfl := hrs2 rfl
    obtain rfl := hrm rfl
    intro sf
    simp only [hrs3 rfl]
    rfl
  case fadds | fsubs | fmuls | fdivs | fsqrts | fsgnjs | fsgnjns | fsgnjxs | fmins | fmaxs |
      fcvtws | fcvtwus | fmvxw | feqs | flts | fles | fclasss | fcvtsw | fcvtswu | fmvwx =>
    obtain rfl := hrd rfl
    obtain rfl := hrs1 rfl
    obtain rfl := hrs2 rfl
    obtain rfl := hrm rfl
    first | exact fun _ => rfl | exact ⟨fun _ => rfl, rfl⟩
  case csrli | csrai =>
    obtain rfl := hrs1 rfl
    obtain rfl := hshamt rfl
    exact ⟨rfl, rfl⟩
  case candi | cbeqz | cbnez =>
    obtain rfl := himm rfl
    obtain rfl := hrs1 rfl
    exact ⟨rfl, rfl⟩
  case cj | cjal =>
    obtain rfl := himm rfl
    rfl
  case cswsp | cfswsp =>
    obtain rfl := himm rfl
    obtain rfl := hrs2 rfl
    exact ⟨rfl, rfl⟩
  case sfencevma =>
    obtain rfl := hrs1 rfl
    exact fun _ => rfl
  case nop => exact ⟨rfl, rfl⟩
  case fence | wfi =>
    intro h
    cases h
  all_goals trivial

/-! ## The decoder -/

/-- The verdicts on a word decoded into two different nodes. -/
def Decoded.Alike : Decoded → Decoded → Prop
  | .ok a, .ok b => a.Alike b
  | .illegal _, .illegal _ | .abort, .abort => True
  | _, _ => False

/-- `f` is part of `g`. -/
def Fields.sub (f g : Fields) : Bool :=
  (!f.imm || g.imm) && (!f.rd || g.rd) && (!f.rs1 || g.rs1) && (!f.rs2 || g.rs2) && (!f.rs3 || g.rs3) &&
    (!f.shamt || g.shamt) && (!f.rm || g.rm)

theorem Insn.Alike.of_sub {a b : Insn} {f : Fields} (hop : a.opcode = b.opcode)
    (hsub : b.opcode.reads.sub f = true) (himm : f.imm = true → a.imm = b.imm)
    (hrd : f.rd = true → a.rd = b.rd) (hrs1 : f.rs1 = true → a.rs1 = b.rs1)
    (hrs2 : f.rs2 = true → a.rs2 = b.rs2) (hrs3 : f.rs3 = true → a.rs3 = b.rs3)
    (hshamt : f.shamt = true → a.shamt = b.shamt) (hrm : f.rm = true → a.rm = b.rm) : a.Alike b := by
  simp only [Fields.sub, Bool.and_eq_true, Bool.or_eq_true, Bool.not_eq_true'] at hsub
  obtain ⟨⟨⟨⟨⟨⟨h1, h2⟩, h3⟩, h4⟩, h5⟩, h6⟩, h7⟩ := hsub
  have hin {x y : Bool} (h : x = false ∨ y = true) (hx : x = true) : y = true := by
    rw [hx] at h
    simpa using h
  exact ⟨hop, fun h => himm (hin h1 h), fun h => hrd (hin h2 h), fun h => hrs1 (hin h3 h),
    fun h => hrs2 (hin h4 h), fun h => hrs3 (hin h5 h), fun h => hshamt (hin h6 h),
    fun h => hrm (hin h7 h)⟩

section Formats

variable (ir ir' : Insn) (insn : Word) {op : Opcode}

theorem decodeItype_alike (h : op.reads.sub .itype = true) :
    ({ decodeItype ir insn with opcode := op } : Insn).Alike
      { decodeItype ir' insn with opcode := op } :=
  .of_sub rfl h (fun _ => rfl) (fun _ => rfl) (fun _ => rfl) nofun nofun nofun nofun

theorem decodeUtype_alike (h : op.reads.sub .immRd = true) :
    ({ decodeUtype ir insn with opcode := op } : Insn).Alike
      { decodeUtype ir' insn with opcode := op } :=
  .of_sub rfl h (fun _ => rfl) (fun _ => rfl) nofun nofun nofun nofun nofun

theorem decodeStype_alike (h : op.reads.sub .stype = true) :
    ({ decodeStype ir insn with opcode := op } : Insn).Alike
      { decodeStype ir' insn with opcode := op } :=
  .of_sub rfl h (fun _ => rfl) nofun (fun _ => rfl) (fun _ => rfl) nofun nofun nofun

theorem decodeBtype_alike (h : op.reads.sub .stype = true) :
    ({ decodeBtype ir insn with opcode := op } : Insn).Alike
      { decodeBtype ir' insn with opcode := op } :=
  .of_sub rfl h (fun _ => rfl) nofun (fun _ => rfl) (fun _ => rfl) nofun nofun nofun

theorem decodeRtype_alike (h : op.reads.sub .rtype = true) :
    ({ decodeRtype ir insn with opcode := op } : Insn).Alike
      { decodeRtype ir' insn with opcode := op } :=
  .of_sub rfl h nofun (fun _ => rfl) (fun _ => rfl) (fun _ => rfl) nofun nofun nofun

/-- `rs3` is the low byte of an immediate whose other bytes are left alone. -/
theorem decodeR4type_alike (h : op.reads.sub .r4type = true) :
    ({ decodeR4type ir insn with opcode := op } : Insn).Alike
      { decodeR4type ir' insn with opcode := op } := by
  refine .of_sub rfl h nofun (fun _ => rfl) (fun _ => rfl) (fun _ => rfl) (fun _ => ?_) nofun
    fun _ => rfl
  have hlow (imm : Word) : ((imm &&& 0xffffff00) ||| insn >>> 27).setWidth 5 = (insn >>> 27).setWidth 5 := by
    apply BitVec.eq_of_getLsbD_eq
    intro i hi
    interval_cases i <;> simp
  exact (hlow ir.imm).trans (hlow ir'.imm).symm

theorem Decoded.select_alike {a b : Insn} {o : Option Opcode}
    (h : ∀ op, o = some op → ({ a with opcode := op } : Insn).Alike { b with opcode := op }) :
    (Decoded.select a o).Alike (Decoded.select b o) := by
  cases o with
  | none => trivial
  | some op => exact h op rfl

end Formats

/-! ## 32-bit words -/

section Words

variable (ir ir' : Insn) (insn : Word)

theorem opLoad_alike : (opLoad ir insn).Alike (opLoad ir' insn) := by
  refine Decoded.select_alike fun op h => decodeItype_alike ir ir' insn ?_
  unfold opcodeOfLoad at h
  split at h <;> cases h <;> rfl

theorem opStore_alike : (opStore ir insn).Alike (opStore ir' insn) := by
  refine Decoded.select_alike fun op h => decodeStype_alike ir ir' insn ?_
  unfold opcodeOfStore at h
  split at h <;> cases h <;> rfl

theorem opBranch_alike : (opBranch ir insn).Alike (opBranch ir' insn) := by
  refine Decoded.select_alike fun op h => decodeBtype_alike ir ir' insn ?_
  unfold opcodeOfBranch at h
  split at h <;> cases h <;> rfl

theorem opAmo_alike : (opAmo ir insn).Alike (opAmo ir' insn) := by
  refine Decoded.select_alike fun op h => decodeRtype_alike ir ir' insn ?_
  unfold opcodeOfAmo at h
  split at h <;> cases h <;> rfl

theorem opcodeOfOpImm_reads {imm : Word} {f3 : Nat} {op : Opcode} (h : opcodeOfOpImm imm f3 = some op) :
    op.reads.sub .itype = true := by
  unfold opcodeOfOpImm opcodeOfSlli opcodeOfSrli at h
  repeat' split at h
  all_goals cases h <;> rfl

theorem opOpImm_alike : (opOpImm ir insn).Alike (opOpImm ir' insn) := by
  unfold opOpImm
  have hrd : (decodeItype ir insn).rd = (decodeItype ir' insn).rd := rfl
  have himm : (decodeItype ir insn).imm = (decodeItype ir' insn).imm := rfl
  simp only [hrd, himm]
  split
  · exact decodeItype_alike ir ir' insn rfl
  · split
    · rename_i op hop
      exact decodeItype_alike ir ir' insn (opcodeOfOpImm_reads hop)
    · trivial

theorem opcodeOfOp_reads {rs2 : Reg} {f3 f7 : Nat} {op : Opcode} (h : opcodeOfOp rs2 f3 f7 = some op) :
    op.reads.sub .rtype = true := by
  unfold opcodeOfOp at h
  repeat' split at h
  all_goals cases h <;> rfl

theorem opOp_alike : (opOp ir insn).Alike (opOp ir' insn) := by
  unfold opOp
  have hrd : (decodeRtype ir insn).rd = (decodeRtype ir' insn).rd := rfl
  have hrs2 : (decodeRtype ir insn).rs2 = (decodeRtype ir' insn).rs2 := rfl
  simp only [hrd, hrs2]
  split
  · exact decodeRtype_alike ir ir' insn rfl
  · exact Decoded.select_alike fun op h => decodeRtype_alike ir ir' insn (opcodeOfOp_reads h)

theorem opUtype_alike {op : Opcode} (h : op.reads.sub .immRd = true) :
    (if (decodeUtype ir insn).rd = regZero then Decoded.ok { decodeUtype ir insn with opcode := .nop }
      else .ok { decodeUtype ir insn with opcode := op }).Alike
    (if (decodeUtype ir' insn).rd = regZero then .ok { decodeUtype ir' insn with opcode := .nop }
      else .ok { decodeUtype ir' insn with opcode := op }) := by
  have hrd : (decodeUtype ir insn).rd = (decodeUtype ir' insn).rd := rfl
  rw [hrd]
  split
  · exact decodeUtype_alike ir ir' insn rfl
  · exact decodeUtype_alike ir ir' insn h

theorem opcodeOfSystem_reads {system : Bool} {insn imm : Word} {f3 : Nat} {op : Opcode}
    (h : opcodeOfSystem system insn imm f3 = some op) : op.reads.sub .itype = true := by
  unfold opcodeOfSystem at h
  repeat' split at h
  all_goals cases h <;> rfl

theorem opSystem_alike (system : Bool) : (opSystem system ir insn).Alike (opSystem system ir' insn) := by
  unfold opSystem
  have himm : (decodeItype ir insn).imm = (decodeItype ir' insn).imm := rfl
  have hrs1 : (decodeItype ir insn).rs1 = (decodeItype ir' insn).rs1 := rfl
  simp only [himm, hrs1]
  split
  · rename_i op hop
    split
    · exact decodeItype_alike ir ir' insn (opcodeOfSystem_reads hop)
    · trivial
  · trivial

theorem opMiscMem_alike : (opMiscMem ir insn).Alike (opMiscMem ir' insn) := by
  unfold opMiscMem
  split
  · exact .of_sub (f := .none) rfl rfl nofun nofun nofun nofun nofun nofun nofun
  · exact .of_sub (f := .none) rfl rfl nofun nofun nofun nofun nofun nofun nofun
  · trivial

theorem opcodeOfOpFp_reads {rm : Nat} {rs2 : Reg} {f7 : Nat} {op : Opcode}
    (h : opcodeOfOpFp rm rs2 f7 = some op) : op.reads.sub .fp = true := by
  unfold opcodeOfOpFp at h
  repeat' split at h
  all_goals cases h <;> rfl

theorem opOpFp_alike : (opOpFp ir insn).Alike (opOpFp ir' insn) := by
  refine Decoded.select_alike fun op h => ?_
  exact .of_sub rfl (opcodeOfOpFp_reads h) nofun (fun _ => rfl) (fun _ => rfl) (fun _ => rfl) nofun nofun
    fun _ => rfl

theorem rvJumpTable_alike (system : Bool) :
    (rvJumpTable system ir insn).Alike (rvJumpTable system ir' insn) := by
  unfold rvJumpTable
  split
  · exact opLoad_alike ir ir' insn
  · exact decodeItype_alike ir ir' insn rfl
  · exact opMiscMem_alike ir ir' insn
  · exact opOpImm_alike ir ir' insn
  · exact opUtype_alike ir ir' insn rfl
  · exact opStore_alike ir ir' insn
  · exact decodeStype_alike ir ir' insn rfl
  · exact opAmo_alike ir ir' insn
  · exact opOp_alike ir ir' insn
  · exact opUtype_alike ir ir' insn rfl
  · exact decodeR4type_alike ir ir' insn rfl
  · exact decodeR4type_alike ir ir' insn rfl
  · exact decodeR4type_alike ir ir' insn rfl
  · exact decodeR4type_alike ir ir' insn rfl
  · exact opOpFp_alike ir ir' insn
  · exact opBranch_alike ir ir' insn
  · exact decodeItype_alike ir ir' insn rfl
  · exact .of_sub (f := .immRd) rfl rfl (fun _ => rfl) (fun _ => rfl) nofun nofun nofun nofun nofun
  · exact opSystem_alike ir ir' insn system
  · trivial

/-! ## RVC words -/

theorem alike_none {a b : Insn} (hop : a.opcode = b.opcode) (h : b.opcode.reads.sub .none = true) :
    a.Alike b :=
  .of_sub hop h nofun nofun nofun nofun nofun nofun nofun

theorem alike_immRd {a b : Insn} (hop : a.opcode = b.opcode) (h : b.opcode.reads.sub .immRd = true)
    (himm : a.imm = b.imm) (hrd : a.rd = b.rd) : a.Alike b :=
  .of_sub hop h (fun _ => himm) (fun _ => hrd) nofun nofun nofun nofun nofun

theorem opCaddi4spn_alike : (opCaddi4spn ir insn).Alike (opCaddi4spn ir' insn) := by
  unfold opCaddi4spn
  simp only
  split
  · trivial
  · exact alike_immRd rfl rfl rfl rfl

theorem opCaddi_alike : (opCaddi ir insn).Alike (opCaddi ir' insn) := by
  unfold opCaddi
  simp only
  split
  · exact alike_none rfl rfl
  · exact alike_immRd rfl rfl rfl rfl

theorem opClui_alike : (opClui ir insn).Alike (opClui ir' insn) := by
  unfold opClui
  simp only
  split_ifs
  · exact alike_none rfl rfl
  · trivial
  · exact alike_immRd rfl rfl rfl rfl
  · trivial
  · exact alike_immRd rfl rfl rfl rfl

theorem opCmiscAlu_alike : (opCmiscAlu ir insn).Alike (opCmiscAlu ir' insn) := by
  unfold opCmiscAlu
  split
  · simp only
    split_ifs
    · trivial
    · exact alike_none rfl rfl
    · exact .of_sub (f := .shamtRs1) rfl rfl nofun nofun (fun _ => rfl) nofun nofun (fun _ => rfl) nofun
  · simp only
    split_ifs
    · trivial
    · exact .of_sub (f := .shamtRs1) rfl rfl nofun nofun (fun _ => rfl) nofun nofun (fun _ => rfl) nofun
  · exact .of_sub (f := .immRs1) rfl rfl (fun _ => rfl) nofun (fun _ => rfl) nofun nofun nofun nofun
  · split
    · rename_i op hop
      have hreads : op.reads.sub .rtype = true := by
        unfold opcodeOfCa at hop
        split at hop <;> cases hop <;> rfl
      exact .of_sub rfl hreads nofun (fun _ => rfl) (fun _ => rfl) (fun _ => rfl) nofun nofun nofun
    · trivial

theorem opCslli_alike : (opCslli ir insn).Alike (opCslli ir' insn) := by
  unfold opCslli
  refine alike_immRd rfl ?_ rfl rfl
  simp only
  split_ifs <;> rfl

theorem opClwsp_alike : (opClwsp ir insn).Alike (opClwsp ir' insn) := by
  unfold opClwsp
  refine alike_immRd rfl ?_ rfl rfl
  simp only
  split_ifs <;> rfl

theorem opCcr_alike : (opCcr ir insn).Alike (opCcr ir' insn) := by
  have hok {op : Opcode} (h : op.reads.sub .rtype = true) :
      ({ ir with rs1 := cDecodeRs1 insn, rs2 := cDecodeRs2 insn, rd := cDecodeRs1 insn, opcode := op } :
        Insn).Alike
      { ir' with rs1 := cDecodeRs1 insn, rs2 := cDecodeRs2 insn, rd := cDecodeRs1 insn, opcode := op } :=
    .of_sub rfl h nofun (fun _ => rfl) (fun _ => rfl) (fun _ => rfl) nofun nofun nofun
  unfold opCcr
  simp only
  split_ifs
  all_goals first
    | trivial
    | exact hok rfl

theorem rvcJumpTable_alike : (rvcJumpTable ir insn).Alike (rvcJumpTable ir' insn) := by
  have hcl {op : Opcode} {imm : Word} {rd rs1 : Reg} (h : op.reads.sub .itype = true) :
      ({ ir with imm, rd, rs1, opcode := op } : Insn).Alike { ir' with imm, rd, rs1, opcode := op } :=
    .of_sub rfl h (fun _ => rfl) (fun _ => rfl) (fun _ => rfl) nofun nofun nofun nofun
  have hcs {op : Opcode} {imm : Word} {rs1 rs2 : Reg} (h : op.reads.sub .stype = true) :
      ({ ir with imm, rs1, rs2, opcode := op } : Insn).Alike { ir' with imm, rs1, rs2, opcode := op } :=
    .of_sub rfl h (fun _ => rfl) nofun (fun _ => rfl) (fun _ => rfl) nofun nofun nofun
  have hcb {op : Opcode} {imm : Word} {rs1 : Reg} (h : op.reads.sub .immRs1 = true) :
      ({ ir with imm, rs1, opcode := op } : Insn).Alike { ir' with imm, rs1, opcode := op } :=
    .of_sub rfl h (fun _ => rfl) nofun (fun _ => rfl) nofun nofun nofun nofun
  have hcss {op : Opcode} {imm : Word} {rs2 : Reg} (h : op.reads.sub .immRs2 = true) :
      ({ ir with imm, rs2, opcode := op } : Insn).Alike { ir' with imm, rs2, opcode := op } :=
    .of_sub rfl h (fun _ => rfl) nofun nofun (fun _ => rfl) nofun nofun nofun
  have hcj {op : Opcode} {imm : Word} (h : op.reads.sub .imm_ = true) :
      ({ ir with imm, opcode := op } : Insn).Alike { ir' with imm, opcode := op } :=
    .of_sub rfl h (fun _ => rfl) nofun nofun nofun nofun nofun nofun
  unfold rvcJumpTable
  split
  · exact opCaddi4spn_alike ir ir' insn
  · exact opCaddi_alike ir ir' insn
  · exact opCslli_alike ir ir' insn
  · exact hcj rfl
  · exact hcl rfl
  · exact alike_immRd rfl rfl rfl rfl
  · exact opClwsp_alike ir ir' insn
  · exact hcl rfl
  · exact opClui_alike ir ir' insn
  · exact alike_immRd rfl rfl rfl rfl
  · exact opCmiscAlu_alike ir ir' insn
  · exact opCcr_alike ir ir' insn
  · exact hcj rfl
  · exact hcs rfl
  · exact hcb rfl
  · exact hcss rfl
  · exact hcs rfl
  · exact hcb rfl
  · exact hcss rfl
  · trivial

/-- **What was in the node before changes neither the verdict nor what is read of it.** -/
theorem rvDecodeInto_alike (system extC : Bool) :
    (rvDecodeInto system extC ir insn).Alike (rvDecodeInto system extC ir' insn) := by
  unfold rvDecodeInto
  split
  · exact rvcJumpTable_alike ir ir' _
  · exact rvJumpTable_alike ir ir' insn system

end Words

end Rv32emu
