import Rv32emu.ByteWord
import Rv32emu.ElfLoad
import Rv32emu.Machine

/-!
# The argument vector of `rv_reset`

`rv_reset` of the user-mode build on a 64-bit little-endian host.

* `VmAttr`, `rvReset` : as in the source; an `assert` that fails, a read outside of guest memory and an index outside of
  `args_space` are the faults;
* `ArgsFit` : the ranges that are written lie in guest memory and apart;
* `ArgvOk` : the vector that the ABI asks for;
* `copyArgs_ok`, `copyArgs_overrun`, `pushArgs_ok` : the two loops; `rvReset_run` : the whole function;
* `rvReset_argv_iff` : when the vector is there.
-/

namespace Rv32emu

/-! ## The function -/

structure CString where
  chars : List Byte
  nul_free : 0 ∉ chars

def CString.bytes (s : CString) : List Byte := s.chars ++ [0]

/-- The fields of `vm_attr_t` it reads. `mem_size` is the size of `mem`, and `argc` the number of `args`. -/
structure VmAttr where
  mem : GuestMemory
  stackSize : Word
  argsOffsetSize : Word
  args : List CString

inductive ResetFault
  | assertion | outside | argsSpace
  deriving DecidableEq, Repr

/-- The fields of `riscv_t` and the memory that the vector is about. The CSRs are set to constants behind it. -/
structure ResetState where
  PC : Word
  X : Reg → Word
  mem : GuestMemory

namespace VmAttr

variable (attr : VmAttr)

def argc : Word := BitVec.ofNat 32 attr.args.length

def memSize : BitVec 64 := BitVec.ofNat 64 attr.mem.size

/-- `(1 + argc + 1) * sizeof(uint32_t)`. -/
def argsSize : BitVec 64 := (1 + attr.argc + 1).signExtend 64 * 4

def argsTop : BitVec 64 := (attr.memSize - attr.stackSize.setWidth 64 - attr.argsSize) &&& -16

def stackBottom : Word := (attr.memSize - attr.stackSize.setWidth 64 - attr.argsOffsetSize.setWidth 64).setWidth 32

/-- `stack_top`. The local `stack_size` is an `int`. -/
def stackTop : BitVec 64 := (attr.stackBottom.setWidth 64 - (attr.argsSize.setWidth 32).signExtend 64) &&& -16

end VmAttr

/-- The low `n` bytes of `v`. -/
def wordBytes (n v : Nat) : List Byte := (List.range n).map fun i => BitVec.ofNat 8 (v / 256 ^ i)

/-- `assert(memory_write(...))`. Address and size are cut to 32 bits. -/
def memoryWrite (mem : GuestMemory) (addr : BitVec 64) (src : List Byte) : Except ResetFault GuestMemory :=
  let size := (BitVec.ofNat 32 src.length).toNat
  if GuestMemory.Fits mem.size (addr.setWidth 32).toNat size then
    .ok (mem.copy (addr.setWidth 32).toNat (src.take size))
  else .error .assertion

def memoryFill (mem : GuestMemory) (addr : BitVec 64) (size : Nat) (val : Byte) : Except ResetFault GuestMemory :=
  if GuestMemory.Fits mem.size (addr.setWidth 32).toNat size then .ok (mem.set (addr.setWidth 32).toNat size val)
  else .error .assertion

/-- `n` bytes from `mem_base + addr`, which nothing checks. -/
def hostRead (mem : GuestMemory) (addr : BitVec 64) (n : Nat) : Except ResetFault (List Byte) :=
  if addr.toNat + n ≤ mem.size then .ok ((List.range n).map fun i => mem.bytes (addr.toNat + i))
  else .error .outside

def argsSpaceSize : Nat := 256

/-- The first loop, with `args_p`, the entries of `args_space` and `args_len_total`. -/
def copyArgs : List CString → BitVec 64 → List Nat → BitVec 64 → GuestMemory →
    Except ResetFault (BitVec 64 × List Nat × BitVec 64 × GuestMemory)
  | [], argsP, space, total, mem => .ok (argsP, space, total, mem)
  | arg :: args, argsP, space, total, mem => do
    let argsLen := arg.chars.length
    let mem ← memoryWrite mem argsP arg.bytes
    if argsSpaceSize ≤ space.length then throw .argsSpace
    else
      copyArgs args (argsP + BitVec.ofNat 64 (argsLen + 1)) (space ++ [argsLen + 1])
        (total + BitVec.ofNat 64 (argsLen + 1)) mem

/-- The second loop. It stores eight bytes and goes on by four. -/
def pushArgs : List Nat → BitVec 64 → BitVec 64 → GuestMemory → Except ResetFault (BitVec 64 × GuestMemory)
  | [], _, sp, mem => .ok (sp, mem)
  | n :: space, argsP, sp, mem => do
    let mem ← memoryWrite mem sp (wordBytes 8 argsP.toNat)
    pushArgs space (argsP + BitVec.ofNat 64 n) (sp + 4) mem

def rvReset (attr : VmAttr) (pc : Word) : Except ResetFault ResetState := do
  let mem ← memoryWrite attr.mem attr.argsTop (wordBytes 4 attr.argc.toNat)
  let (argsP, space, total, mem) ← copyArgs attr.args (attr.argsTop + 8) [] 0 mem
  let argsP := argsP - total - 8
  -- The word comes from the copy of `argc` in guest memory.
  let argc ← hostRead mem argsP 4
  let mem ← memoryWrite mem attr.stackTop argc
  let (sp, mem) ← pushArgs space (argsP + 8) (attr.stackTop + 4) mem
  let mem ← memoryFill mem sp 4 0
  return { PC := pc, X := fun r => if r = regSp then attr.stackTop.setWidth 32 else 0, mem }

/-! ## What it should do -/

/-- The ranges that are written, each with its size: `argc`, the strings and the vector. -/
def VmAttr.written (attr : VmAttr) : List (Nat × Nat) :=
  [(attr.argsTop.toNat, 4), (attr.argsTop.toNat + 8, (attr.args.flatMap CString.bytes).length),
    (attr.stackTop.toNat, 4 * (attr.args.length + 2))]

structure ArgsFit (attr : VmAttr) : Prop where
  inside : ∀ r ∈ attr.written, r.2 ≠ 0 → r.1 + r.2 ≤ attr.mem.size
  apart : attr.written.Pairwise fun r q => r.2 ≠ 0 → q.2 ≠ 0 → r.1 + r.2 ≤ q.1 ∨ q.1 + q.2 ≤ r.1

/-- A copy of `s` with its NUL, in guest memory. -/
def StringAt (mem : GuestMemory) (a : Nat) (s : CString) : Prop :=
  a + s.bytes.length ≤ mem.size ∧ ∀ j, (h : j < s.bytes.length) → mem.bytes (a + j) = s.bytes[j]

structure ArgvOk (args : List CString) (s : ResetState) : Prop where
  aligned : (s.X regSp).toNat % 16 = 0
  argc : ByteWord.load 4 s.mem.bytes (s.X regSp).toNat = args.length
  argv : ∀ i, (h : i < args.length) →
    StringAt s.mem (ByteWord.load 4 s.mem.bytes ((s.X regSp).toNat + 4 * (i + 1))) args[i]
  null : ByteWord.load 4 s.mem.bytes ((s.X regSp).toNat + 4 * (args.length + 1)) = 0

/-! ## Bytes in memory -/

namespace GuestMemory

variable {mem : GuestMemory} {addr a k : Nat} {src : List Byte}

theorem copy_bytes (h : k < src.length) : (mem.copy addr src).bytes (addr + k) = src[k] := by
  change (if addr ≤ addr + k then (src[addr + k - addr]?).getD (mem.bytes (addr + k)) else _) = _
  rw [if_pos (Nat.le_add_right addr k), Nat.add_sub_cancel_left, List.getElem?_eq_getElem h, Option.getD_some]

theorem copy_apart (h : a < addr ∨ addr + src.length ≤ a) : (mem.copy addr src).bytes a = mem.bytes a := by
  change (if addr ≤ a then (src[a - addr]?).getD (mem.bytes a) else mem.bytes a) = mem.bytes a
  rcases h with hlt | hge
  · rw [if_neg (Nat.not_le.mpr hlt)]
  · rw [List.getElem?_eq_none (Nat.le_sub_of_add_le' hge), Option.getD_none, ite_self]

theorem length_wordBytes (n v : Nat) : (wordBytes n v).length = n := by
  rw [wordBytes, List.length_map, List.length_range]

theorem copy_wordBytes (n v : Nat) : (mem.copy addr (wordBytes n v)).bytes = ByteWord.store n mem.bytes addr v := by
  funext b
  rw [ByteWord.store]
  by_cases hb : addr ≤ b ∧ b < addr + n
  · obtain ⟨k, rfl⟩ := Nat.exists_eq_add_of_le hb.1
    have hk : k < (wordBytes n v).length := by
      rw [length_wordBytes]
      omega
    rw [if_pos hb, copy_bytes hk, Nat.add_sub_cancel_left]
    simp only [wordBytes, List.getElem_map, List.getElem_range]
  · rw [if_neg hb, copy_apart]
    rw [length_wordBytes]
    omega

end GuestMemory

variable {attr : VmAttr} {mem : GuestMemory} {addr : BitVec 64}

/-- Where the range lies in guest memory, neither cut shows. -/
theorem memoryWrite_ok {src : List Byte} (hpos : src ≠ []) (hlen : src.length < 2 ^ 32)
    (hfit : addr.toNat + src.length ≤ mem.size) : memoryWrite mem addr src = .ok (mem.copy addr.toNat src) := by
  have hsize := mem.size_le
  have hnonempty := List.length_pos_of_ne_nil hpos
  have haddr : (addr.setWidth 32).toNat = addr.toNat := by
    rw [BitVec.toNat_setWidth]
    exact Nat.mod_eq_of_lt (by omega)
  have hcut : (BitVec.ofNat 32 src.length).toNat = src.length := by
    rw [BitVec.toNat_ofNat]
    exact Nat.mod_eq_of_lt hlen
  rw [memoryWrite, haddr, hcut, List.take_length]
  exact if_pos ⟨by omega, by omega⟩

theorem memoryFill_ok {n : Nat} {val : Byte} (hpos : 0 < n) (hfit : addr.toNat + n ≤ mem.size) :
    memoryFill mem addr n val = .ok (mem.set addr.toNat n val) := by
  have hsize := mem.size_le
  have haddr : (addr.setWidth 32).toNat = addr.toNat := by
    rw [BitVec.toNat_setWidth]
    exact Nat.mod_eq_of_lt (by omega)
  rw [memoryFill, haddr]
  exact if_pos ⟨by omega, by omega⟩

theorem length_bytes (s : CString) : s.bytes.length = s.chars.length + 1 := by
  rw [CString.bytes, List.length_append, List.length_singleton]

theorem bytes_ne_nil (s : CString) : s.bytes ≠ [] := List.append_ne_nil_of_right_ne_nil _ (List.cons_ne_nil _ _)

/-! ## The first loop -/

/-- What `args_space` holds after the loop. -/
def lens (args : List CString) : List Nat := args.map fun s => s.chars.length + 1

theorem sum_lens (args : List CString) : (lens args).sum = (args.flatMap CString.bytes).length := by
  rw [List.length_flatMap]
  exact congrArg List.sum (List.map_congr_left fun s _ => (length_bytes s).symm)

section CopyArgs

variable {arg : CString} {args : List CString} {argsP total : BitVec 64} {space : List Nat}

/-- One turn. The string is not the whole of the address space, as it does not start at 0. -/
theorem copyArgs_cons (hp : 0 < argsP.toNat) (hfit : argsP.toNat + arg.bytes.length ≤ mem.size) :
    copyArgs (arg :: args) argsP space total mem =
      if argsSpaceSize ≤ space.length then .error .argsSpace
      else copyArgs args (argsP + BitVec.ofNat 64 (arg.chars.length + 1)) (space ++ [arg.chars.length + 1])
        (total + BitVec.ofNat 64 (arg.chars.length + 1)) (mem.copy argsP.toNat arg.bytes) := by
  have hsize := mem.size_le
  rw [copyArgs, memoryWrite_ok (bytes_ne_nil arg) (by omega) hfit]
  rfl

theorem toNat_add_ofNat {p : BitVec 64} {n : Nat} (h : p.toNat + n < 2 ^ 64) :
    (p + BitVec.ofNat 64 n).toNat = p.toNat + n := by
  rw [BitVec.toNat_add, BitVec.toNat_ofNat]
  omega

theorem copyArgs_ok (hp : 0 < argsP.toNat)
    (hfit : args ≠ [] → argsP.toNat + (args.flatMap CString.bytes).length ≤ mem.size)
    (hlen : space.length + args.length ≤ argsSpaceSize) :
    copyArgs args argsP space total mem =
      .ok (argsP + BitVec.ofNat 64 (lens args).sum, space ++ lens args, total + BitVec.ofNat 64 (lens args).sum,
        mem.copy argsP.toNat (args.flatMap CString.bytes)) := by
  induction args generalizing argsP space total mem with
  | nil =>
    change Except.ok (argsP, space, total, mem) =
      .ok (argsP + BitVec.ofNat 64 0, space ++ [], total + BitVec.ofNat 64 0, mem.copy argsP.toNat [])
    rw [List.append_nil, BitVec.add_zero, BitVec.add_zero, GuestMemory.copy_nil]
  | cons arg args ih =>
    have hsize := mem.size_le
    have hfit := hfit (List.cons_ne_nil _ _)
    rw [List.length_cons] at hlen
    rw [List.flatMap_cons, List.length_append] at hfit
    have hbytes := length_bytes arg
    have hnext := toNat_add_ofNat (p := argsP) (n := arg.chars.length + 1) (by omega)
    rw [copyArgs_cons hp (by omega), if_neg (by omega), ih (by omega) (fun _ => by change _ ≤ mem.size; omega)
      (by rw [List.length_append, List.length_singleton]; omega)]
    rw [hnext, ← hbytes, GuestMemory.copy_append, List.flatMap_cons]
    simp only [lens, List.map_cons, List.sum_cons, BitVec.ofNat_add, BitVec.add_assoc, List.append_assoc,
      List.singleton_append, hbytes]

theorem copyArgs_overrun (hp : 0 < argsP.toNat) (hfit : argsP.toNat + (args.flatMap CString.bytes).length ≤ mem.size)
    (hspace : space.length ≤ argsSpaceSize) (hlen : argsSpaceSize < space.length + args.length) :
    copyArgs args argsP space total mem = .error .argsSpace := by
  induction args generalizing argsP space total mem with
  | nil =>
    rw [List.length_nil] at hlen
    omega
  | cons arg args ih =>
    have hsize := mem.size_le
    rw [List.length_cons] at hlen
    rw [List.flatMap_cons, List.length_append] at hfit
    have hbytes := length_bytes arg
    have hnext := toNat_add_ofNat (p := argsP) (n := arg.chars.length + 1) (by omega)
    rw [copyArgs_cons hp (by omega)]
    by_cases hfull : argsSpaceSize ≤ space.length
    · rw [if_pos hfull]
    · rw [if_neg hfull]
      refine ih (by omega) ?_ ?_ ?_
      · change _ ≤ mem.size
        omega
      · rw [List.length_append, List.length_singleton]
        omega
      · rw [List.length_append, List.length_singleton]
        omega

end CopyArgs

/-! ## The second loop -/

/-- The words are the addresses; each store clears the word behind the one it is for, and keeps those before it. -/
theorem pushArgs_ok {space : List Nat} {argsP sp : BitVec 64} (hsp : sp.toNat + (4 * space.length + 4) ≤ mem.size)
    (hpos : ∀ n ∈ space, 0 < n) (hp : space ≠ [] → argsP.toNat + space.sum ≤ 2 ^ 32) :
    ∃ mem', pushArgs space argsP sp mem = .ok (sp + BitVec.ofNat 64 (4 * space.length), mem') ∧ mem'.size = mem.size ∧
      (∀ a, a < sp.toNat ∨ sp.toNat + (4 * space.length + 4) ≤ a → mem'.bytes a = mem.bytes a) ∧
      ∀ i < space.length, ByteWord.load 4 mem'.bytes (sp.toNat + 4 * i) = argsP.toNat + (space.take i).sum := by
  induction space generalizing argsP sp mem with
  | nil =>
    refine ⟨mem, ?_, rfl, fun _ _ => rfl, fun i hi => absurd hi (Nat.not_lt_zero i)⟩
    rw [pushArgs, List.length_nil, Nat.mul_zero, BitVec.add_zero]
  | cons n space ih =>
    have hsize := mem.size_le
    rw [List.length_cons] at hsp
    have hn := hpos n List.mem_cons_self
    have hp := hp (List.cons_ne_nil n space)
    rw [List.sum_cons] at hp
    have hsp₁ : (sp + 4).toNat = sp.toNat + 4 := toNat_add_ofNat (n := 4) (by omega)
    have hp₁ : (argsP + BitVec.ofNat 64 n).toNat = argsP.toNat + n := toNat_add_ofNat (by omega)
    have hlen := GuestMemory.length_wordBytes 8 argsP.toNat
    have hwrite : memoryWrite mem sp (wordBytes 8 argsP.toNat) = .ok (mem.copy sp.toNat (wordBytes 8 argsP.toNat)) :=
      memoryWrite_ok (List.ne_nil_of_length_pos (by omega)) (by omega) (by omega)
    obtain ⟨mem', hpush, hsize', hframe, hwords⟩ :=
      @ih (mem.copy sp.toNat (wordBytes 8 argsP.toNat)) (argsP + BitVec.ofNat 64 n) (sp + 4)
        (by rw [hsp₁]; change _ ≤ mem.size; omega) (fun m hm => hpos m (List.mem_cons_of_mem n hm)) (fun _ => by omega)
    rw [hsp₁] at hframe hwords
    refine ⟨mem', ?_, hsize', fun a ha => ?_, fun i hi => ?_⟩
    · rw [pushArgs, hwrite]
      refine hpush.trans ?_
      rw [List.length_cons, Nat.mul_succ, BitVec.ofNat_add, BitVec.add_assoc, BitVec.add_comm (4 : BitVec 64)]
      rfl
    · rw [List.length_cons] at ha
      rw [hframe a (by omega), GuestMemory.copy_apart (by omega)]
    · cases i with
      | zero =>
        have hkeep : ByteWord.load 4 mem'.bytes sp.toNat =
            ByteWord.load 4 (mem.copy sp.toNat (wordBytes 8 argsP.toNat)).bytes sp.toNat :=
          ByteWord.load_congr fun j hj => hframe _ (.inl (by omega))
        rw [Nat.mul_zero, Nat.add_zero, hkeep, GuestMemory.copy_wordBytes, ByteWord.load_store (by decide),
          List.take_zero, List.sum_nil, Nat.add_zero]
        exact Nat.mod_eq_of_lt (by omega)
      | succ i =>
        have hword := hwords i (Nat.lt_of_succ_lt_succ hi)
        rw [hp₁] at hword
        rw [Nat.mul_succ, Nat.add_comm (4 * i) 4, ← Nat.add_assoc, hword, List.take_succ_cons, List.sum_cons,
          Nat.add_assoc]

/-! ## The whole function -/

theorem toNat_and_mod (x : BitVec 64) : (x &&& -16).toNat % 16 = 0 := by
  have hlow : (x.toNat &&& (-16 : BitVec 64).toNat) % 2 ^ 4 = 0 := by
    rw [Nat.and_mod_two_pow]
    exact Nat.and_zero _
  rw [BitVec.toNat_and]
  exact hlow

/-- The string `i` among all of them. -/
theorem flatMap_bytes_getElem? {args : List CString} {i j : Nat} (hi : i < args.length)
    (hj : j < args[i].bytes.length) :
    (args.flatMap CString.bytes)[((lens args).take i).sum + j]? = some args[i].bytes[j] := by
  have hsplit : args.flatMap CString.bytes =
      (args.take i).flatMap CString.bytes ++ (args[i].bytes ++ (args.drop (i + 1)).flatMap CString.bytes) := by
    rw [← List.flatMap_cons, List.getElem_cons_drop, ← List.flatMap_append, List.take_append_drop]
  have hoff : ((lens args).take i).sum = ((args.take i).flatMap CString.bytes).length := by
    rw [← sum_lens, lens, lens, List.map_take]
  rw [hsplit, hoff, List.getElem?_append_right (Nat.le_add_right _ _), Nat.add_sub_cancel_left,
    List.getElem?_append_left hj, List.getElem?_eq_getElem hj]

theorem take_sum_add_le {args : List CString} {i : Nat} (hi : i < args.length) :
    ((lens args).take i).sum + args[i].bytes.length ≤ (args.flatMap CString.bytes).length := by
  have hlast : args[i].bytes.length - 1 < args[i].bytes.length :=
    Nat.sub_lt (by rw [length_bytes]; omega) Nat.one_pos
  obtain ⟨hlt, -⟩ := List.getElem?_eq_some_iff.mp (flatMap_bytes_getElem? hi hlast)
  omega

namespace ArgsFit

variable (h : ArgsFit attr)
include h

theorem argc_inside : attr.argsTop.toNat + 4 ≤ attr.mem.size :=
  h.inside _ (.head _) (by decide : (4 : Nat) ≠ 0)

theorem strings_inside (hargs : attr.args ≠ []) :
    attr.argsTop.toNat + 8 + (attr.args.flatMap CString.bytes).length ≤ attr.mem.size := by
  refine h.inside _ (.tail _ (.head _)) ?_
  obtain ⟨arg, args, hcons⟩ := List.exists_cons_of_ne_nil hargs
  have hbytes := length_bytes arg
  change (attr.args.flatMap CString.bytes).length ≠ 0
  rw [hcons, List.flatMap_cons, List.length_append]
  omega

theorem stack_inside : attr.stackTop.toNat + 4 * (attr.args.length + 2) ≤ attr.mem.size := by
  refine h.inside _ (.tail _ (.tail _ (.head _))) ?_
  change 4 * (attr.args.length + 2) ≠ 0
  omega

theorem strings_apart (hlen : (attr.args.flatMap CString.bytes).length ≠ 0) :
    attr.argsTop.toNat + 8 + (attr.args.flatMap CString.bytes).length ≤ attr.stackTop.toNat ∨
      attr.stackTop.toNat + 4 * (attr.args.length + 2) ≤ attr.argsTop.toNat + 8 := by
  have hpair := List.rel_of_pairwise_cons (List.Pairwise.of_cons h.apart) (.head _)
  exact hpair hlen (by change 4 * (attr.args.length + 2) ≠ 0; omega)

end ArgsFit

theorem toNat_argc (hlen : attr.args.length ≤ argsSpaceSize) : attr.argc.toNat = attr.args.length := by
  have hlt : attr.args.length < 2 ^ 32 := Nat.lt_of_le_of_lt hlen (by decide)
  rw [VmAttr.argc, BitVec.toNat_ofNat]
  exact Nat.mod_eq_of_lt hlt

namespace VmAttr

def copied (attr : VmAttr) : GuestMemory :=
  (attr.mem.copy attr.argsTop.toNat (wordBytes 4 attr.argc.toNat)).copy (attr.argsTop.toNat + 8)
    (attr.args.flatMap CString.bytes)

/-- With `argc` on the stack. -/
def pushed (attr : VmAttr) : GuestMemory := attr.copied.copy attr.stackTop.toNat (wordBytes 4 attr.argc.toNat)

end VmAttr

theorem toNat_argsTop_add (h : ArgsFit attr) : (attr.argsTop + 8).toNat = attr.argsTop.toNat + 8 := by
  have hsize := attr.mem.size_le
  have hin := h.argc_inside
  exact @toNat_add_ofNat attr.argsTop 8 (by omega)

theorem copyArgs_rvReset (h : ArgsFit attr) (hlen : attr.args.length ≤ argsSpaceSize) :
    copyArgs attr.args (attr.argsTop + 8) [] 0 (attr.mem.copy attr.argsTop.toNat (wordBytes 4 attr.argc.toNat)) =
      .ok (attr.argsTop + 8 + BitVec.ofNat 64 (lens attr.args).sum, lens attr.args,
        BitVec.ofNat 64 (lens attr.args).sum, attr.copied) := by
  have hp := toNat_argsTop_add h
  refine (copyArgs_ok (by omega) (fun hargs => ?_) ?_).trans ?_
  · rw [hp]
    exact h.strings_inside hargs
  · rw [List.length_nil, Nat.zero_add]
    exact hlen
  · rw [hp, List.nil_append, show (0 : BitVec 64) + BitVec.ofNat 64 (lens attr.args).sum = _ from BitVec.zero_add _]
    rfl

/-- The word at `args_top` is still `argc` behind the strings. -/
theorem hostRead_argc (h : ArgsFit attr) :
    hostRead attr.copied attr.argsTop 4 = .ok (wordBytes 4 attr.argc.toNat) := by
  have hlen := GuestMemory.length_wordBytes 4 attr.argc.toNat
  refine (if_pos h.argc_inside).trans (congrArg Except.ok (List.ext_getElem ?_ fun i hi hi' => ?_))
  · rw [List.length_map, List.length_range, hlen]
  · rw [List.getElem_map, List.getElem_range, VmAttr.copied, GuestMemory.copy_apart (by omega),
      GuestMemory.copy_bytes hi']

theorem pushArgs_rvReset (h : ArgsFit attr) :
    ∃ mem', pushArgs (lens attr.args) (attr.argsTop + 8) (attr.stackTop + 4) attr.pushed =
        .ok (attr.stackTop + 4 + BitVec.ofNat 64 (4 * attr.args.length), mem') ∧ mem'.size = attr.mem.size ∧
      (∀ a, a < attr.stackTop.toNat + 4 ∨ attr.stackTop.toNat + 4 * (attr.args.length + 2) ≤ a →
        mem'.bytes a = attr.pushed.bytes a) ∧
      ∀ i < attr.args.length, ByteWord.load 4 mem'.bytes (attr.stackTop.toNat + 4 * (i + 1)) =
        attr.argsTop.toNat + 8 + ((lens attr.args).take i).sum := by
  have hsize := attr.mem.size_le
  have hin := h.stack_inside
  have hlens : (lens attr.args).length = attr.args.length := List.length_map _
  have hp := toNat_argsTop_add h
  have hsp : (attr.stackTop + 4).toNat = attr.stackTop.toNat + 4 := @toNat_add_ofNat attr.stackTop 4 (by omega)
  have hroom : (attr.stackTop + 4).toNat + (4 * (lens attr.args).length + 4) ≤ attr.pushed.size := by
    rw [hsp, hlens]
    change _ ≤ attr.mem.size
    omega
  have hpos : ∀ n ∈ lens attr.args, 0 < n := by
    intro n hn
    obtain ⟨s, -, rfl⟩ := List.mem_map.mp hn
    exact Nat.succ_pos _
  have hend : lens attr.args ≠ [] → (attr.argsTop + 8).toNat + (lens attr.args).sum ≤ 2 ^ 32 := by
    intro hne
    have hstrings := h.strings_inside fun hnil => hne (by rw [hnil]; rfl)
    rw [hp, sum_lens]
    omega
  obtain ⟨mem', hpush, hsize', hframe, hwords⟩ := pushArgs_ok hroom hpos hend
  rw [hsp, hlens] at hframe
  rw [hsp, hlens, hp] at hwords
  rw [hlens] at hpush
  refine ⟨mem', hpush, hsize', fun a ha => hframe a (by omega), fun i hi => ?_⟩
  rw [Nat.mul_succ, Nat.add_comm (4 * i) 4, ← Nat.add_assoc]
  exact hwords i hi

/-- The whole run: the second loop and the word behind it. -/
theorem rvReset_run (h : ArgsFit attr) (pc : Word) (hlen : attr.args.length ≤ argsSpaceSize) :
    ∃ mem' : GuestMemory, mem'.size = attr.mem.size ∧
      (∀ a, a < attr.stackTop.toNat + 4 ∨ attr.stackTop.toNat + 4 * (attr.args.length + 2) ≤ a →
        mem'.bytes a = attr.pushed.bytes a) ∧
      (∀ i < attr.args.length, ByteWord.load 4 mem'.bytes (attr.stackTop.toNat + 4 * (i + 1)) =
        attr.argsTop.toNat + 8 + ((lens attr.args).take i).sum) ∧
      rvReset attr pc = .ok {
        PC := pc, X := fun r => if r = regSp then attr.stackTop.setWidth 32 else 0
        mem := mem'.set (attr.stackTop.toNat + 4 * (attr.args.length + 1)) 4 0 } := by
  obtain ⟨mem', hpush, hsize', hframe, hwords⟩ := pushArgs_rvReset h
  refine ⟨mem', hsize', hframe, hwords, ?_⟩
  have hsize := attr.mem.size_le
  have hargc := h.argc_inside
  have hstack := h.stack_inside
  have hword := GuestMemory.length_wordBytes 4 attr.argc.toNat
  have hword_ne : wordBytes 4 attr.argc.toNat ≠ [] := List.ne_nil_of_length_pos (by omega)
  have hsp : (attr.stackTop + 4 + BitVec.ofNat 64 (4 * attr.args.length)).toNat =
      attr.stackTop.toNat + 4 * (attr.args.length + 1) := by
    have hsp₁ : (attr.stackTop + 4).toNat = attr.stackTop.toNat + 4 := @toNat_add_ofNat attr.stackTop 4 (by omega)
    rw [toNat_add_ofNat (by omega), hsp₁]
    omega
  have hback : attr.argsTop + 8 + BitVec.ofNat 64 (lens attr.args).sum - BitVec.ofNat 64 (lens attr.args).sum - 8 =
      attr.argsTop := by
    rw [BitVec.add_sub_cancel, BitVec.add_sub_cancel]
  have hfill : memoryFill mem' (attr.stackTop + 4 + BitVec.ofNat 64 (4 * attr.args.length)) 4 0 =
      .ok (mem'.set (attr.stackTop.toNat + 4 * (attr.args.length + 1)) 4 0) := by
    rw [memoryFill_ok (by decide) (by omega), hsp]
  unfold rvReset
  rw [memoryWrite_ok hword_ne (by omega) (by omega)]
  change (copyArgs _ _ _ _ _ >>= _) = _
  rw [copyArgs_rvReset h hlen]
  change (hostRead attr.copied (_ - _ - 8) 4 >>= fun argc => memoryWrite attr.copied attr.stackTop argc >>= fun mem =>
    pushArgs (lens attr.args) (_ - _ - 8 + 8) _ mem >>= _) = _
  rw [hback, hostRead_argc h]
  change (memoryWrite attr.copied attr.stackTop _ >>= _) = _
  rw [memoryWrite_ok hword_ne (by omega) (by change _ ≤ attr.mem.size; omega)]
  change (pushArgs _ _ _ attr.pushed >>= _) = _
  rw [hpush]
  change (memoryFill mem' _ 4 0 >>= _) = _
  rw [hfill]
  rfl

theorem copied_string (h : ArgsFit attr) {i : Nat} (hi : i < attr.args.length) :
    StringAt attr.copied (attr.argsTop.toNat + 8 + ((lens attr.args).take i).sum) attr.args[i] := by
  have hin := h.strings_inside (List.ne_nil_of_length_pos (Nat.zero_lt_of_lt hi))
  have hle := take_sum_add_le hi
  refine ⟨by change _ ≤ attr.mem.size; omega, fun j hj => ?_⟩
  obtain ⟨hlt, hbyte⟩ := List.getElem?_eq_some_iff.mp (flatMap_bytes_getElem? hi hj)
  rw [Nat.add_assoc _ _ j, VmAttr.copied, GuestMemory.copy_bytes hlt, hbyte]

theorem rvReset_ok (h : ArgsFit attr) (pc : Word) (hlen : attr.args.length ≤ argsSpaceSize) :
    ∃ s, rvReset attr pc = .ok s ∧ ArgvOk attr.args s := by
  obtain ⟨mem', hsize', hframe, hwords, hrun⟩ := rvReset_run h pc hlen
  have hsize := attr.mem.size_le
  have hstack := h.stack_inside
  have hword := GuestMemory.length_wordBytes 4 attr.argc.toNat
  have hsp : (attr.stackTop.setWidth 32).toNat = attr.stackTop.toNat := by
    rw [BitVec.toNat_setWidth]
    exact Nat.mod_eq_of_lt (by omega)
  let last := attr.stackTop.toNat + 4 * (attr.args.length + 1)
  have hset : ∀ a, a < last ∨ last + 4 ≤ a → (mem'.set last 4 0).bytes a = mem'.bytes a :=
    fun a ha => if_neg fun hc => by omega
  refine ⟨_, hrun, ?_, ?_, fun i hi => ?_, ?_⟩
  · change (attr.stackTop.setWidth 32).toNat % 16 = 0
    rw [hsp]
    exact toNat_and_mod _
  · change ByteWord.load 4 (mem'.set last 4 0).bytes (attr.stackTop.setWidth 32).toNat = _
    have hkeep : ByteWord.load 4 (mem'.set last 4 0).bytes attr.stackTop.toNat =
        ByteWord.load 4 attr.pushed.bytes attr.stackTop.toNat :=
      ByteWord.load_congr fun j hj => (hset _ (.inl (by omega))).trans (hframe _ (.inl (by omega)))
    rw [hsp, hkeep, VmAttr.pushed, GuestMemory.copy_wordBytes, ByteWord.load_store (Nat.le_refl 4), toNat_argc hlen]
    exact Nat.mod_eq_of_lt (Nat.lt_of_le_of_lt hlen (by decide))
  · change StringAt (mem'.set last 4 0)
      (ByteWord.load 4 (mem'.set last 4 0).bytes ((attr.stackTop.setWidth 32).toNat + 4 * (i + 1))) _
    have hkeep : ByteWord.load 4 (mem'.set last 4 0).bytes (attr.stackTop.toNat + 4 * (i + 1)) =
        ByteWord.load 4 mem'.bytes (attr.stackTop.toNat + 4 * (i + 1)) :=
      ByteWord.load_congr fun j hj => hset _ (.inl (by omega))
    rw [hsp, hkeep, hwords i hi]
    obtain ⟨hin, hbytes⟩ := copied_string h hi
    have hle := take_sum_add_le hi
    have hpos := length_bytes attr.args[i]
    have hapart := h.strings_apart (by omega)
    refine ⟨hin.trans (Nat.le_of_eq hsize'.symm), fun j hj => ?_⟩
    -- The string lies below the vector or above it.
    rw [hset _ (by omega), hframe _ (by omega), VmAttr.pushed, GuestMemory.copy_apart (by omega)]
    exact hbytes j hj
  · change ByteWord.load 4 (mem'.set last 4 0).bytes
      ((attr.stackTop.setWidth 32).toNat + 4 * (attr.args.length + 1)) = 0
    have hzero : ByteWord.load 4 (mem'.set last 4 0).bytes last = ByteWord.load 4 (fun _ => 0) last :=
      ByteWord.load_congr fun i hi => if_pos ⟨Nat.le_add_right _ _, Nat.add_lt_add_left hi _⟩
    rw [hsp]
    exact hzero

theorem rvReset_overrun (h : ArgsFit attr) (pc : Word) (hlen : argsSpaceSize < attr.args.length) :
    rvReset attr pc = .error .argsSpace := by
  have hargs : attr.args ≠ [] := List.ne_nil_of_length_pos (Nat.zero_lt_of_lt hlen)
  have hsize := attr.mem.size_le
  have hargc := h.argc_inside
  have hstrings := h.strings_inside hargs
  have hp := toNat_argsTop_add h
  have hword := GuestMemory.length_wordBytes 4 attr.argc.toNat
  unfold rvReset
  rw [memoryWrite_ok (List.ne_nil_of_length_pos (by omega)) (by omega) (by omega)]
  change (copyArgs _ _ _ _ _ >>= _) = _
  rw [copyArgs_overrun (by omega) (by rw [hp]; exact hstrings) (Nat.zero_le _) (by rw [List.length_nil]; omega)]
  rfl

/-- **The vector is there for up to 256 arguments and for no more**: one more argument, and the first loop stores behind
the end of `args_space`. -/
theorem rvReset_argv_iff (h : ArgsFit attr) (pc : Word) :
    (∃ s, rvReset attr pc = .ok s ∧ ArgvOk attr.args s) ↔ attr.args.length ≤ 256 := by
  constructor
  · rintro ⟨s, hrun, -⟩
    by_contra hlen
    rw [rvReset_overrun h pc (Nat.lt_of_not_le hlen)] at hrun
    cases hrun
  · exact rvReset_ok h pc

/-! ## Instances -/

/-- The memory of the default configuration, with `n` empty arguments. -/
def emptyArgs (n : Nat) : VmAttr where
  mem := { size := 0x10000000, bytes := fun _ => 0, pos := by decide, size_le := by decide }
  stackSize := 0x1000
  argsOffsetSize := 0x1000
  args := List.replicate n { chars := [], nul_free := List.not_mem_nil }

/-- The program `a.out` with the argument `hi`. -/
def twoArgs : VmAttr :=
  { emptyArgs 0 with
    args := [{ chars := [0x61, 0x2e, 0x6f, 0x75, 0x74], nul_free := by decide },
      { chars := [0x68, 0x69], nul_free := by decide }] }

theorem rvReset_argv_two : ∃ s, rvReset twoArgs 0x10000 = .ok s ∧ ArgvOk twoArgs.args s := by
  have hfit : ArgsFit twoArgs := ⟨by decide, by decide⟩
  exact (rvReset_argv_iff hfit 0x10000).mpr (by decide)

set_option maxRecDepth 4000 in
/-- Everything fits, and the length of the last argument goes behind `args_space`. -/
theorem rvReset_argv_overrun :
    ArgsFit (emptyArgs 257) ∧ rvReset (emptyArgs 257) 0x10000 = .error .argsSpace ∧
      ¬ ∃ s, rvReset (emptyArgs 257) 0x10000 = .ok s ∧ ArgvOk (emptyArgs 257).args s := by
  have hfit : ArgsFit (emptyArgs 257) := ⟨by decide, by decide⟩
  have herror := rvReset_overrun hfit 0x10000 (by decide)
  refine ⟨hfit, herror, ?_⟩
  rintro ⟨s, hrun, -⟩
  rw [herror] at hrun
  cases hrun

end Rv32emu
