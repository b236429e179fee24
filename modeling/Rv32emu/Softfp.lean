import Rv32emu.Machine

/-!
# RV32F helpers

`softfp.h` and the floating-point bodies of `rv32_template.c`, over the SoftFloat entry points of
`SoftFloat`. They act on the `Fpu` alone; an integer result is returned beside it.
-/

namespace Rv32emu

abbrev fmaskSign : Word := 0x80000000
abbrev fmaskExpn : Word := 0x7f800000
abbrev fmaskFrac : Word := 0x007fffff
abbrev fmaskQnan : Word := 0x00400000
abbrev rvNan : Word := 0x7fc00000

def calcFclass (f : Word) : Word :=
  let sign := f &&& fmaskSign
  let expn := f &&& fmaskExpn
  let frac := f &&& fmaskFrac
  if expn ≠ 0 then
    if expn ≠ fmaskExpn then (if sign ≠ 0 then 0x002 else 0x040)
    else if frac ≠ 0 then (if frac &&& fmaskQnan ≠ 0 then 0x200 else 0x100)
    else if sign = 0 then 0x080 else 0x001
  else if frac ≠ 0 then (if sign ≠ 0 then 0x004 else 0x020)
  else if sign ≠ 0 then 0x008 else 0x010

def isNan (f : Word) : Bool := f &&& fmaskExpn = fmaskExpn ∧ f &&& fmaskFrac ≠ 0

namespace Fpu

def setF (f : Fpu) (r : Reg) (v : Word) : Fpu := { f with F := Function.update f.F r v }

def raiseFlags (f : Fpu) (flags : BitVec 8) : Fpu :=
  { f with exceptionFlags := f.exceptionFlags ||| flags }

/-- `set_fflag`: each SoftFloat flag has the bit of its `FFLAG_*` counterpart. -/
def setFflag (f : Fpu) : Fpu :=
  { f with fcsr := f.fcsr ||| (f.exceptionFlags &&& 0x1f).setWidth 32, exceptionFlags := 0 }

/-- `set_rounding_mode`; the `__UNREACHABLE` default leaves the mode alone. -/
def setRoundingMode (f : Fpu) (rm : BitVec 8) : Fpu :=
  let frm : BitVec 8 := ((f.fcsr >>> 5) &&& ~~~(8 : Word)).setWidth 8
  match (if rm = 0b111 then frm else rm).toNat with
  | 0 => { f with roundingMode := .nearEven }
  | 1 => { f with roundingMode := .minMag }
  | 2 => { f with roundingMode := .min }
  | 3 => { f with roundingMode := .max }
  | 4 => { f with roundingMode := .nearMaxMag }
  | _ => f

/-- The rounded operations: `set_rounding_mode`, the SoftFloat call into `F[rd]`, `set_fflag`. -/
def arith (op : RoundingMode → Fpu → Word × BitVec 8) (ir : Insn) (f : Fpu) : Fpu :=
  let f := f.setRoundingMode ir.rm
  let r := op f.roundingMode f
  ((f.setF ir.rd r.1).raiseFlags r.2).setFflag

/-- `fcvt.w.s` and `fcvt.wu.s`. -/
def toInt (op : RoundingMode → Word → Word × BitVec 8) (ir : Insn) (f : Fpu) : Word × Fpu :=
  let f := f.setRoundingMode ir.rm
  let r := op f.roundingMode (f.F ir.rs1)
  (r.1, (f.raiseFlags r.2).setFflag)

/-- `feq.s`, `flt.s` and `fle.s`. -/
def compare (op : Word → Word → Bool × BitVec 8) (ir : Insn) (f : Fpu) : Word × Fpu :=
  let r := op (f.F ir.rs1) (f.F ir.rs2)
  (if r.1 then 1 else 0, (f.raiseFlags r.2).setFflag)

/-- `fmin.s` and `fmax.s`: `first` is chosen when `lt_quiet a b`, or when the two are equal and the
operand `tie` has its sign set. Flags raised by the comparisons stay pending. -/
def minMax (sf : SoftFloat) (ir : Insn) (f : Fpu) (a b tie : Word) : Fpu :=
  let x := f.F ir.rs1
  let y := f.F ir.rs2
  let f := if sf.isSignalingNaN x || sf.isSignalingNaN y then { f with fcsr := f.fcsr ||| 0x10 }
    else f
  let lt := sf.ltQuiet a b
  let eq := sf.eq x y
  let chosen := lt.1 || (eq.1 && tie &&& fmaskSign ≠ 0)
  let f := f.raiseFlags (if lt.1 then lt.2 else lt.2 ||| eq.2)
  if isNan x && isNan y then f.setF ir.rd rvNan
  else f.setF ir.rd (if chosen || isNan y then x else y)

def fmins (sf : SoftFloat) (ir : Insn) (f : Fpu) : Fpu :=
  minMax sf ir f (f.F ir.rs1) (f.F ir.rs2) (f.F ir.rs1)

def fmaxs (sf : SoftFloat) (ir : Insn) (f : Fpu) : Fpu :=
  minMax sf ir f (f.F ir.rs2) (f.F ir.rs1) (f.F ir.rs2)

end Fpu

end Rv32emu
