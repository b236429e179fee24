import Rv32emu.Insn
import Rv32emu.Lane

/-!
# Constants on an AArch64 host

* `emitMovewideImm`, `emitLoadImm`, `emitLoadImmSext` : the words that `jit.c` emits for a constant;
* `execMoveWide`, `runMoveWide` : what the host does on them, from the bits of each word;
* `moveWideWord_eq` : the fields of an emitted word; `execMoveWide_word`;
* `MoveWideInv` : the words emitted so far, and what they leave in `rd`;
* `emitMovewideImm_run` : at the end `rd` holds the constant.
-/

namespace Rv32emu

open Lane

/-! ## The emitter -/

/-- `a64opcode_t`, the move wide class. -/
inductive MoveWideOp
  | movn | movz | movk
  deriving DecidableEq, Repr

/-- `MW_MOVN`, `MW_MOVZ` and `MW_MOVK`. -/
def MoveWideOp.bits : MoveWideOp → Word
  | movn => 0x12800000
  | movz => 0x52800000
  | movk => 0x72800000

/-- `BAD_OPCODE`, which `emit_a64` asserts that it is not given. -/
def badOpcode : Word := 0xffffffff

def sz (is64 : Bool) : Word := (if is64 then 1 else 0) <<< 31

/-- `sz(is64) | op | (i << 21) | (imm16 << 5) | rd`, computed on 64 bits. -/
def moveWideWord (is64 : Bool) (op : MoveWideOp) (i : Nat) (imm16 : BitVec 64) (rd : Fin 31) : Word :=
  ((sz is64 ||| op.bits ||| BitVec.ofNat 32 i <<< 21).setWidth 64 ||| imm16 <<< 5 ||| BitVec.ofNat 64 rd).setWidth 32

/-- `count0000` and `countffff` after the block at the bit `i`. -/
def countBlock (imm : BitVec 64) (count : Nat × Nat) (i : Nat) : Nat × Nat :=
  let block := (imm >>> i) &&& 0xffff
  if block = 0xffff then (count.1, count.2 + 1) else if block = 0 then (count.1 + 1, count.2) else count

/-- The locals of the second loop, and the words emitted. -/
structure MoveWide where
  op : MoveWideOp
  invert : Bool
  out : List Word
  deriving DecidableEq, Repr

def moveWideStep (is64 : Bool) (rd : Fin 31) (imm skipPattern : BitVec 64) (s : MoveWide) (i : Nat) : MoveWide :=
  let imm16 := (imm >>> (i * 16)) &&& 0xffff
  if imm16 ≠ skipPattern then
    let imm16 := if s.invert then ~~~imm16 &&& 0xffff else imm16
    { op := .movk, invert := false, out := s.out ++ [moveWideWord is64 s.op i imm16 rd] }
  else s

/-- The numbers of zero blocks and of one blocks. A 32-bit constant counts as if its upper half were zero. -/
def countBlocks (is64 : Bool) (imm : BitVec 64) : Nat × Nat :=
  (List.range' 0 (if is64 then 4 else 2) 16).foldl (countBlock imm) (if is64 then 0 else 2, 0)

/-- `emit_movewide_imm`: the words given to `emit_a64`. -/
def emitMovewideImm (is64 : Bool) (rd : Fin 31) (imm : BitVec 64) : List Word :=
  let count := countBlocks is64 imm
  let invert := decide (count.1 < count.2)
  let op : MoveWideOp := if invert then .movn else .movz
  let skipPattern : BitVec 64 := if invert then 0xffff else 0
  let s := (List.range (if is64 then 4 else 2)).foldl (moveWideStep is64 rd imm skipPattern) ⟨op, invert, []⟩
  -- the constants 0 and -1
  if s.op ≠ .movk then s.out ++ [moveWideWord is64 s.op 0 0 rd] else s.out

def emitLoadImm (dst : Fin 31) (imm : Word) : List Word := emitMovewideImm true dst (imm.setWidth 64)

def emitLoadImmSext (dst : Fin 31) (imm : BitVec 64) : List Word :=
  if (imm.setWidth 32).signExtend 64 = imm then emitMovewideImm false dst imm else emitMovewideImm true dst imm

/-! ## The host -/

/-- `X0` to `X30`. -/
abbrev A64Regs := Fin 31 → BitVec 64

/-- The register 31 of these instructions is the zero register. -/
def A64Regs.read (regs : A64Regs) (r : Nat) : BitVec 64 := if h : r < 31 then regs ⟨r, h⟩ else 0

def A64Regs.write (regs : A64Regs) (r : Nat) (v : BitVec 64) : A64Regs := fun q => if q.val = r then v else regs q

/-- MOVN, MOVZ and MOVK on a register of `w` bits: the field `hw` is set, in the old value by MOVK and in
zero otherwise, and MOVN inverts the result. -/
def moveWideResult (w : Nat) (opc : BitVec 2) (hw : Nat) (imm16 : BitVec 16) (old : BitVec 64) : BitVec 64 :=
  let result := setLane (if opc = 0b11 then old.setWidth w else 0) hw imm16
  (if opc = 0b00 then ~~~result else result).setWidth 64

/-- One instruction of the move wide class. `none`: the word is not one. -/
def execMoveWide (insn : Word) (regs : A64Regs) : Option A64Regs :=
  let sf := insn.extractLsb' 31 1
  let opc := insn.extractLsb' 29 2
  let hw := (insn.extractLsb' 21 2).toNat
  let imm16 := insn.extractLsb' 5 16
  let rd := (insn.extractLsb' 0 5).toNat
  if insn.extractLsb' 23 6 ≠ 0b100101 ∨ opc = 0b01 ∨ (sf = 0 ∧ 2 ≤ hw) then none
  else some (regs.write rd (moveWideResult (if sf = 1 then 64 else 32) opc hw imm16 (regs.read rd)))

def runMoveWide : List Word → A64Regs → Option A64Regs
  | [], regs => some regs
  | insn :: rest, regs => (execMoveWide insn regs).bind (runMoveWide rest)

theorem runMoveWide_append (a b : List Word) (regs : A64Regs) :
    runMoveWide (a ++ b) regs = (runMoveWide a regs).bind (runMoveWide b) := by
  induction a generalizing regs with
  | nil => rfl
  | cons insn a ih =>
    rw [List.cons_append, runMoveWide, runMoveWide]
    cases execMoveWide insn regs with
    | none => rfl
    | some regs' => exact ih regs'

theorem A64Regs.write_val (regs : A64Regs) (rd : Fin 31) (v : BitVec 64) :
    regs.write rd.val v = Function.update regs rd v := by
  funext q
  by_cases hq : q = rd
  · subst hq
    rw [Function.update_self]
    exact if_pos rfl
  · rw [Function.update_of_ne hq]
    exact if_neg fun h => hq (Fin.ext h)

theorem A64Regs.read_val (regs : A64Regs) (rd : Fin 31) : regs.read rd.val = regs rd := dif_pos rd.isLt

/-! ## The fields of a word -/

def MoveWideOp.opc : MoveWideOp → BitVec 2
  | movn => 0b00
  | movz => 0b10
  | movk => 0b11

def moveWideTop (is64 : Bool) (op : MoveWideOp) (i : Nat) : BitVec 11 :=
  BitVec.ofBool is64 ++ op.opc ++ 0b100101#6 ++ BitVec.ofNat 2 i

theorem moveWideTop_bits (is64 : Bool) (op : MoveWideOp) {i : Nat} (hi : i < 4) :
    sz is64 ||| op.bits ||| BitVec.ofNat 32 i <<< 21 = moveWideTop is64 op i ++ 0#21 := by
  cases is64 <;> cases op <;> interval_cases i <;> decide

theorem moveWideWord_eq (is64 : Bool) (op : MoveWideOp) {i : Nat} (hi : i < 4) (m : BitVec 16) (rd : Fin 31) :
    moveWideWord is64 op i (m.setWidth 64) rd = moveWideTop is64 op i ++ (m ++ BitVec.ofNat 5 rd) := by
  have hrd : BitVec.ofNat 64 rd.val = (BitVec.ofNat 5 rd.val).setWidth 64 := by
    apply BitVec.eq_of_toNat_eq
    rw [BitVec.toNat_setWidth, BitVec.toNat_ofNat, BitVec.toNat_ofNat]
    omega
  rw [moveWideWord, moveWideTop_bits is64 op hi, hrd]
  generalize moveWideTop is64 op i = top
  generalize BitVec.ofNat 5 rd.val = r
  apply BitVec.eq_of_getLsbD_eq
  intro b hb
  simp only [BitVec.getLsbD_setWidth, BitVec.getLsbD_or, BitVec.getLsbD_append, BitVec.getLsbD_shiftLeft,
    BitVec.getLsbD_zero]
  by_cases hlow : b < 5
  · simp [hlow, hb, show b < 21 by omega, show b < 64 by omega]
  · by_cases hmid : b < 21
    · simp [hlow, hb, hmid, show b < 64 by omega, show b - 5 < 16 by omega, show b - 5 < 64 by omega,
        BitVec.getLsbD_of_ge r b (by omega)]
    · simp [hlow, hb, hmid, show b < 64 by omega, BitVec.getLsbD_of_ge r b (by omega),
        BitVec.getLsbD_of_ge m (b - 5) (by omega)]

/-- A field above the first `n` bits. -/
theorem extractLsb'_append_high {v n : Nat} (x : BitVec v) (y : BitVec n) (s k : Nat) :
    (x ++ y).extractLsb' (n + s) k = x.extractLsb' s k := by
  apply BitVec.eq_of_getLsbD_eq
  intro b hb
  rw [BitVec.getLsbD_extractLsb', BitVec.getLsbD_extractLsb', BitVec.getLsbD_append, if_neg (by omega),
    show n + s + b - n = s + b by omega]

theorem extractLsb'_append_low {v n : Nat} (x : BitVec v) (y : BitVec n) : (x ++ y).extractLsb' 0 n = y := by
  rw [BitVec.extractLsb'_append_eq_of_add_le (by omega), BitVec.extractLsb'_eq_self]

theorem extractLsb'_moveWideTop (is64 : Bool) (op : MoveWideOp) {i : Nat} (hi : i < 4) :
    (moveWideTop is64 op i).extractLsb' 10 1 = BitVec.ofBool is64 ∧
      (moveWideTop is64 op i).extractLsb' 8 2 = op.opc ∧
      (moveWideTop is64 op i).extractLsb' 2 6 = 0b100101#6 ∧
      ((moveWideTop is64 op i).extractLsb' 0 2).toNat = i := by
  cases is64 <;> cases op <;> interval_cases i <;> decide

def a64Width (is64 : Bool) : Nat := if is64 then 64 else 32

/-- An emitted word does to `rd` what its fields say, and nothing else. -/
theorem execMoveWide_word (is64 : Bool) (op : MoveWideOp) {i : Nat} (hi : 16 * i + 16 ≤ a64Width is64)
    (m : BitVec 16) (rd : Fin 31) (regs : A64Regs) :
    execMoveWide (moveWideWord is64 op i (m.setWidth 64) rd) regs =
      some (Function.update regs rd (moveWideResult (a64Width is64) op.opc i m (regs rd))) := by
  have hi4 : i < 4 := by
    unfold a64Width at hi
    split_ifs at hi <;> omega
  obtain ⟨hsf, hopc, hclass, hhw⟩ := extractLsb'_moveWideTop is64 op hi4
  rw [moveWideWord_eq is64 op hi4]
  have hfield : ∀ s k, (moveWideTop is64 op i ++ (m ++ BitVec.ofNat 5 rd.val)).extractLsb' (21 + s) k =
      (moveWideTop is64 op i).extractLsb' s k := extractLsb'_append_high _ _
  have himm : (moveWideTop is64 op i ++ (m ++ BitVec.ofNat 5 rd.val)).extractLsb' 5 16 = m := by
    rw [BitVec.extractLsb'_append_eq_of_add_le (by decide), show 5 = 5 + 0 from rfl, extractLsb'_append_high,
      BitVec.extractLsb'_eq_self]
  have hrd : ((moveWideTop is64 op i ++ (m ++ BitVec.ofNat 5 rd.val)).extractLsb' 0 5).toNat = rd.val := by
    rw [BitVec.extractLsb'_append_eq_of_add_le (by decide), extractLsb'_append_low, BitVec.toNat_ofNat]
    omega
  have hvalid : ¬ ((0b100101#6 : BitVec 6) ≠ 0b100101 ∨ op.opc = 0b01 ∨ (BitVec.ofBool is64 = 0 ∧ 2 ≤ i)) := by
    rintro (h | h | ⟨h, hge⟩)
    · exact h rfl
    · cases op <;> exact absurd h (by decide)
    · cases is64 with
      | false =>
        have hlow : 16 * i + 16 ≤ 32 := hi
        omega
      | true => exact absurd h (by decide)
  unfold execMoveWide
  simp only [hfield 10 1, hfield 8 2, hfield 2 6, hfield 0 2, himm, hrd, hsf, hopc, hclass, hhw]
  rw [if_neg hvalid, A64Regs.write_val, A64Regs.read_val]
  cases is64 <;> rfl

/-! ## What is in the register -/

/-- The pieces around those that are written. -/
def background (invert : Bool) : BitVec 16 := if invert then BitVec.allOnes 16 else 0

def firstOp (invert : Bool) : MoveWideOp := if invert then .movn else .movz

/-- The constant that is left in the register. -/
def constantOf (is64 : Bool) (imm : BitVec 64) : BitVec 64 := if is64 then imm else (imm.setWidth 32).setWidth 64

theorem lane_constantOf (is64 : Bool) (imm : BitVec 64) {j : Nat} (hj : j < 4) :
    lane 16 (constantOf is64 imm) j = if 16 * j + 16 ≤ a64Width is64 then lane 16 imm j else 0 := by
  cases is64 with
  | true => exact (if_pos (show 16 * j + 16 ≤ 64 by omega)).symm
  | false =>
    change lane 16 ((imm.setWidth 32).setWidth 64) j = if 16 * j + 16 ≤ 32 then lane 16 imm j else 0
    rw [lane_setWidth _ _ (by omega)]
    split_ifs with hlow
    · exact lane_setWidth _ _ hlow
    · apply BitVec.eq_of_getLsbD_eq
      intro b _
      rw [getLsbD_lane, BitVec.getLsbD_of_ge _ _ (by omega)]
      simp

theorem lane_setWidth_a64 (is64 : Bool) (x : BitVec (a64Width is64)) {j : Nat} (hj : j < 4) :
    lane 16 (x.setWidth 64) j = lane 16 x j := lane_setWidth _ _ (by omega)

/-- The first word: the other pieces become the background. -/
theorem lane_first {is64 invert : Bool} (hinv : invert = true → is64 = true) {i j : Nat}
    (hi : 16 * i + 16 ≤ a64Width is64) (hj : j < 4) (v : BitVec 16) (old : BitVec 64) :
    lane 16 (moveWideResult (a64Width is64) (firstOp invert).opc i (if invert then ~~~v else v) old) j =
      if j = i then v else background invert := by
  cases invert with
  | false =>
    change lane 16 ((setLane (0 : BitVec (a64Width is64)) i v).setWidth 64) j = if j = i then v else 0
    rw [lane_setWidth_a64 is64 _ hj, lane_setLane _ _ hi, lane_zero]
  | true =>
    rw [hinv rfl] at hi ⊢
    change lane 16 ((~~~setLane (0 : BitVec 64) i (~~~v)).setWidth 64) j = if j = i then v else BitVec.allOnes 16
    have hi64 : 16 * i + 16 ≤ 64 := hi
    rw [BitVec.setWidth_eq, lane_not _ (by omega), lane_setLane _ _ hi64, lane_zero]
    split_ifs
    · exact BitVec.not_not
    · exact BitVec.not_zero

/-- The words after it: the other pieces stay, and above a 32-bit register there is zero. -/
theorem lane_movk (is64 : Bool) {i j : Nat} (hi : 16 * i + 16 ≤ a64Width is64) (hj : j < 4) (v : BitVec 16)
    (old : BitVec 64) :
    lane 16 (moveWideResult (a64Width is64) MoveWideOp.movk.opc i v old) j =
      if j = i then v else lane 16 (constantOf is64 old) j := by
  have hold : lane 16 (old.setWidth (a64Width is64)) j = lane 16 (constantOf is64 old) j := by
    rw [← lane_setWidth_a64 is64 _ hj]
    cases is64 with
    | true =>
      change lane 16 ((old.setWidth 64).setWidth 64) j = lane 16 old j
      rw [BitVec.setWidth_eq, BitVec.setWidth_eq]
    | false => rfl
  change lane 16 ((setLane (old.setWidth (a64Width is64)) i v).setWidth 64) j = _
  rw [lane_setWidth_a64 is64 _ hj, lane_setLane _ _ hi, hold]

/-! ## The loop -/

theorem shift_and_ffff (imm : BitVec 64) (i : Nat) : (imm >>> (i * 16)) &&& 0xffff = (lane 16 imm i).setWidth 64 := by
  apply BitVec.eq_of_getLsbD_eq
  intro b hb
  have hmask : (0xffff : BitVec 64) = (BitVec.allOnes 16).setWidth 64 := by decide
  rw [hmask, BitVec.getLsbD_and, BitVec.getLsbD_ushiftRight, BitVec.getLsbD_setWidth, BitVec.getLsbD_setWidth,
    getLsbD_lane, BitVec.getLsbD_allOnes, Nat.mul_comm i 16, Bool.and_comm]
  simp [hb]

theorem not_and_ffff (v : BitVec 16) : ~~~v.setWidth 64 &&& 0xffff = (~~~v).setWidth 64 := by
  apply BitVec.eq_of_getLsbD_eq
  intro b hb
  have hmask : (0xffff : BitVec 64) = (BitVec.allOnes 16).setWidth 64 := by decide
  rw [hmask, BitVec.getLsbD_and, BitVec.getLsbD_not, BitVec.getLsbD_setWidth, BitVec.getLsbD_setWidth,
    BitVec.getLsbD_setWidth, BitVec.getLsbD_not, BitVec.getLsbD_allOnes]
  by_cases hlow : b < 16 <;> simp [hb, hlow]

theorem setWidth_16_injective {a b : BitVec 16} (h : a.setWidth 64 = b.setWidth 64) : a = b := by
  have hback := congrArg (BitVec.setWidth 16) h
  rwa [BitVec.setWidth_setWidth_of_le _ (by decide), BitVec.setWidth_setWidth_of_le _ (by decide),
    BitVec.setWidth_eq, BitVec.setWidth_eq] at hback

variable {is64 invert : Bool} {rd : Fin 31} {imm : BitVec 64}

theorem moveWideStep_eq (s : MoveWide) (i : Nat) :
    moveWideStep is64 rd imm (if invert then 0xffff else 0) s i =
      if lane 16 imm i ≠ background invert then
        { op := .movk, invert := false, out := s.out ++ [moveWideWord is64 s.op i
          ((if s.invert then ~~~lane 16 imm i else lane 16 imm i).setWidth 64) rd] }
      else s := by
  have hskip : (if invert then 0xffff else 0) = (background invert).setWidth 64 := by
    cases invert <;> decide
  have hblock : (if s.invert then ~~~(lane 16 imm i).setWidth 64 &&& 0xffff else (lane 16 imm i).setWidth 64) =
      (if s.invert then ~~~lane 16 imm i else lane 16 imm i).setWidth 64 := by
    rw [not_and_ffff]
    cases s.invert <;> rfl
  unfold moveWideStep
  simp only [shift_and_ffff, hskip, hblock]
  by_cases heq : lane 16 imm i = background invert
  · rw [heq, if_neg (not_not_intro rfl), if_neg (not_not_intro rfl)]
  · rw [if_pos heq, if_pos fun h => heq (setWidth_16_injective h)]

/-- The words set the pieces of `rd` to `f`, whatever it held, and change no other register. -/
def Leaves (rd : Fin 31) (out : List Word) (f : Nat → BitVec 16) : Prop :=
  ∀ regs, ∃ v, runMoveWide out regs = some (Function.update regs rd v) ∧ ∀ j < 4, lane 16 v j = f j

/-- The blocks below `k` are in place. -/
def placed (invert : Bool) (imm : BitVec 64) (k j : Nat) : BitVec 16 :=
  if j < k then lane 16 imm j else background invert

theorem placed_self (k : Nat) : placed invert imm (k + 1) k = lane 16 imm k := if_pos (Nat.lt_succ_self k)

theorem placed_ne {k j : Nat} (h : j ≠ k) : placed invert imm (k + 1) j = placed invert imm k j := by
  unfold placed
  by_cases hlt : j < k
  · rw [if_pos hlt, if_pos (by omega)]
  · rw [if_neg hlt, if_neg (by omega)]

theorem placed_succ {k : Nat} (h : lane 16 imm k = background invert) :
    placed invert imm (k + 1) = placed invert imm k := by
  funext j
  by_cases hj : j = k
  · rw [hj, placed_self, h]
    exact (if_neg (Nat.lt_irrefl k)).symm
  · exact placed_ne hj

/-- Above a 32-bit register the background is zero. -/
theorem placed_above (hinv : invert = true → is64 = true) {k j : Nat} (hk : 16 * k + 16 ≤ a64Width is64) (hj : j < 4)
    (habove : ¬ 16 * j + 16 ≤ a64Width is64) : placed invert imm k j = 0 := by
  have hinvert : invert = false := by
    cases is64 with
    | false => exact Bool.eq_false_iff.mpr fun h => absurd (hinv h) Bool.false_ne_true
    | true =>
      have hall : ¬ 16 * j + 16 ≤ 64 := habove
      omega
  rw [placed, if_neg (by omega), hinvert]
  rfl

/-- After `k` turns: as long as nothing is emitted the blocks are those of the background; from the first word
on the register holds the blocks up to `k` over the background. -/
inductive MoveWideInv (is64 invert : Bool) (rd : Fin 31) (imm : BitVec 64) (k : Nat) : MoveWide → Prop
  | start (h : ∀ j < k, lane 16 imm j = background invert) :
      MoveWideInv is64 invert rd imm k ⟨firstOp invert, invert, []⟩
  | going {out : List Word} (h : Leaves rd out (placed invert imm k)) :
      MoveWideInv is64 invert rd imm k ⟨.movk, false, out⟩

/-- The first word after blocks of the background. -/
theorem leaves_first (hinv : invert = true → is64 = true) {k : Nat} (hk : 16 * k + 16 ≤ a64Width is64)
    (h : ∀ j < k, lane 16 imm j = background invert) :
    Leaves rd [moveWideWord is64 (firstOp invert) k
      ((if invert then ~~~lane 16 imm k else lane 16 imm k).setWidth 64) rd] (placed invert imm (k + 1)) := by
  intro regs
  refine ⟨_, congrArg (Option.bind · (runMoveWide [])) (execMoveWide_word is64 _ hk _ rd regs), fun j hj => ?_⟩
  rw [lane_first hinv hk hj]
  by_cases heq : j = k
  · rw [if_pos heq, heq, placed_self]
  · rw [if_neg heq, placed_ne heq, placed]
    split_ifs with hlt
    · exact (h j hlt).symm
    · rfl

theorem leaves_movk (hinv : invert = true → is64 = true) {k : Nat} (hk : 16 * k + 16 ≤ a64Width is64)
    {out : List Word} (h : Leaves rd out (placed invert imm k)) :
    Leaves rd (out ++ [moveWideWord is64 .movk k ((lane 16 imm k).setWidth 64) rd]) (placed invert imm (k + 1)) := by
  intro regs
  obtain ⟨v, hrun, hlane⟩ := h regs
  refine ⟨moveWideResult (a64Width is64) MoveWideOp.movk.opc k (lane 16 imm k) v, ?_, fun j hj => ?_⟩
  · rw [runMoveWide_append, hrun]
    change (execMoveWide _ _).bind _ = _
    rw [execMoveWide_word is64 _ hk, Function.update_self, Function.update_idem]
    rfl
  · rw [lane_movk is64 hk hj]
    by_cases heq : j = k
    · rw [if_pos heq, heq, placed_self]
    · rw [if_neg heq, placed_ne heq, lane_constantOf is64 _ hj, hlane j hj]
      split_ifs with hfit
      · rfl
      · exact (placed_above hinv hk hj hfit).symm

/-- The single word for a constant that is all background. -/
theorem leaves_plain (hinv : invert = true → is64 = true) {n : Nat} (h : ∀ j < n, lane 16 imm j = background invert) :
    Leaves rd [moveWideWord is64 (firstOp invert) 0 0 rd] (placed invert imm n) := by
  intro regs
  have hi : 16 * 0 + 16 ≤ a64Width is64 := by cases is64 <;> decide
  have hzero : (0 : BitVec 64) = (if invert then ~~~background invert else background invert).setWidth 64 := by
    cases invert <;> decide
  rw [hzero]
  refine ⟨_, congrArg (Option.bind · (runMoveWide [])) (execMoveWide_word is64 _ hi _ rd regs), fun j hj => ?_⟩
  rw [lane_first hinv hi hj, ite_self, placed]
  split_ifs with hlt
  · exact (h j hlt).symm
  · rfl

theorem MoveWideInv.step (hinv : invert = true → is64 = true) {k : Nat} (hk : 16 * k + 16 ≤ a64Width is64)
    {s : MoveWide} (h : MoveWideInv is64 invert rd imm k s) :
    MoveWideInv is64 invert rd imm (k + 1) (moveWideStep is64 rd imm (if invert then 0xffff else 0) s k) := by
  rw [moveWideStep_eq]
  by_cases heq : lane 16 imm k = background invert
  · rw [if_neg (not_not_intro heq)]
    cases h with
    | start h =>
      refine .start fun j hj => ?_
      rcases Nat.lt_succ_iff_lt_or_eq.mp hj with hlt | rfl
      · exact h j hlt
      · exact heq
    | going h => exact .going (placed_succ heq ▸ h)
  · rw [if_pos heq]
    cases h with
    | start h => exact .going (leaves_first hinv hk h)
    | going h => exact .going (leaves_movk hinv hk h)

theorem MoveWideInv.loop (hinv : invert = true → is64 = true) (k : Nat) (hk : 16 * k ≤ a64Width is64) :
    MoveWideInv is64 invert rd imm k ((List.range k).foldl (moveWideStep is64 rd imm (if invert then 0xffff else 0))
      ⟨firstOp invert, invert, []⟩) := by
  induction k with
  | zero => exact .start fun j hj => absurd hj (Nat.not_lt_zero j)
  | succ k ih =>
    rw [List.range_succ, List.foldl_append, List.foldl_cons, List.foldl_nil]
    exact (ih (by omega)).step hinv (by omega)

/-! ## The constant -/

/-- A 32-bit constant is never inverted: at most two of its blocks are `ffff`. -/
theorem countBlocks_narrow (imm : BitVec 64) : ¬ (countBlocks false imm).1 < (countBlocks false imm).2 := by
  have hstep : ∀ count i, (countBlock imm count i).2 ≤ count.2 + 1 ∧ count.1 ≤ (countBlock imm count i).1 := by
    intro count i
    simp only [countBlock]
    split_ifs
    · exact ⟨Nat.le_refl _, Nat.le_refl _⟩
    · exact ⟨Nat.le_succ _, Nat.le_succ _⟩
    · exact ⟨Nat.le_succ _, Nat.le_refl _⟩
  have hfirst := hstep (2, 0) 0
  have hsecond := hstep (countBlock imm (2, 0) 0) 16
  change ¬ (countBlock imm (countBlock imm (2, 0) 0) 16).1 < (countBlock imm (countBlock imm (2, 0) 0) 16).2
  omega

theorem eq_constantOf (hinv : invert = true → is64 = true) {v : BitVec 64}
    (h : ∀ j < 4, lane 16 v j = placed invert imm (if is64 then 4 else 2) j) : v = constantOf is64 imm := by
  refine eq_of_lane (k := 16) (n := 4) rfl fun j hj => ?_
  rw [h j hj, lane_constantOf is64 imm hj]
  cases is64 with
  | true => exact (if_pos hj).trans (if_pos (show 16 * j + 16 ≤ 64 by omega)).symm
  | false =>
    have hplain : invert = false := Bool.eq_false_iff.mpr fun h => absurd (hinv h) Bool.false_ne_true
    subst hplain
    change (if j < 2 then lane 16 imm j else 0) = if 16 * j + 16 ≤ 32 then lane 16 imm j else 0
    by_cases hlow : j < 2
    · rw [if_pos hlow, if_pos (by omega)]
    · rw [if_neg hlow, if_neg (by omega)]

theorem Leaves.run (hinv : invert = true → is64 = true) {out : List Word}
    (h : Leaves rd out (placed invert imm (if is64 then 4 else 2))) (regs : A64Regs) :
    runMoveWide out regs = some (Function.update regs rd (constantOf is64 imm)) := by
  obtain ⟨v, hrun, hlane⟩ := h regs
  rw [hrun, eq_constantOf hinv hlane]

theorem MoveWideInv.run (hinv : invert = true → is64 = true) {s : MoveWide}
    (h : MoveWideInv is64 invert rd imm (if is64 then 4 else 2) s) (regs : A64Regs) :
    runMoveWide (if s.op ≠ .movk then s.out ++ [moveWideWord is64 s.op 0 0 rd] else s.out) regs =
      some (Function.update regs rd (constantOf is64 imm)) := by
  cases h with
  | start h =>
    have hop : firstOp invert ≠ .movk := by cases invert <;> decide
    rw [if_pos hop]
    exact (leaves_plain hinv h).run hinv regs
  | going h =>
    rw [if_neg (not_not_intro rfl)]
    exact h.run hinv regs

/-- **The words emitted for a constant leave it in `rd`**, whatever was there, and change no other register. -/
theorem emitMovewideImm_run (is64 : Bool) (rd : Fin 31) (imm : BitVec 64) (regs : A64Regs) :
    runMoveWide (emitMovewideImm is64 rd imm) regs =
      some (Function.update regs rd (if is64 then imm else (imm.setWidth 32).setWidth 64)) := by
  have hinv : decide ((countBlocks is64 imm).1 < (countBlocks is64 imm).2) = true → is64 = true := by
    cases is64 with
    | true => exact fun _ => rfl
    | false => exact fun h => absurd (of_decide_eq_true h) (countBlocks_narrow imm)
  exact (MoveWideInv.loop hinv _ (by cases is64 <;> decide)).run hinv regs

/-- A word that the host runs is not the one that `emit_a64` refuses. -/
theorem runMoveWide_ne_bad {out : List Word} {regs regs' : A64Regs} (h : runMoveWide out regs = some regs') :
    ∀ insn ∈ out, insn ≠ badOpcode := by
  induction out generalizing regs with
  | nil => exact fun insn hmem => absurd hmem List.not_mem_nil
  | cons first rest ih =>
    obtain ⟨mid, hfirst, hrest⟩ := Option.bind_eq_some_iff.mp h
    intro insn hmem hbad
    rcases List.mem_cons.mp hmem with rfl | hmem
    · rw [hbad] at hfirst
      have hnone : execMoveWide badOpcode regs = none := by
        unfold execMoveWide
        exact if_pos (Or.inl (by decide))
      rw [hnone] at hfirst
      cases hfirst
    · exact ih hrest insn hmem hbad

theorem emitLoadImm_run (dst : Fin 31) (imm : Word) (regs : A64Regs) :
    runMoveWide (emitLoadImm dst imm) regs = some (Function.update regs dst (imm.setWidth 64)) :=
  emitMovewideImm_run true dst (imm.setWidth 64) regs

/-- `emit_load_imm_sext` does not sign-extend on this host: a constant that is a negative 32-bit number is
emitted for the 32-bit register, and the upper half becomes zero. -/
theorem emitLoadImmSext_run (dst : Fin 31) (imm : BitVec 64) (regs : A64Regs) :
    runMoveWide (emitLoadImmSext dst imm) regs = some (Function.update regs dst
      (if (imm.setWidth 32).signExtend 64 = imm then (imm.setWidth 32).setWidth 64 else imm)) := by
  unfold emitLoadImmSext
  split_ifs
  · exact emitMovewideImm_run false dst imm regs
  · exact emitMovewideImm_run true dst imm regs

end Rv32emu
