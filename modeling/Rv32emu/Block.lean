import Rv32emu.DecodeSpec
import Rv32emu.Template

/-!
# Basic blocks

* `translateLoop`, `blockTranslate` : the decoding loop of `block_translate`, with the reason it
  stopped; raising the illegal-instruction trap is left to the caller of the loop;
* `IrBlock` : the IR lists the loop can build, stated without the memory they were decoded from
  (`translateLoop_irBlock`), and `blockTranslate_ne_outOfFuel` : a page holds at most 2048 nodes;
* `runNodes` : the `RVOP` handlers of a list of nodes, one after the other.
-/

namespace Rv32emu

/-- Why `block_translate` left its loop. -/
inductive Stop
  /-- `insn_is_branch`. -/
  | branch
  /-- `page_terminated`. -/
  | page
  /-- A zero word was fetched. -/
  | noInsn
  /-- `rv_decode` returned `false`. -/
  | illegal (insn : Word)
  | abort
  | outOfFuel
  deriving DecidableEq, Repr

/-- The end of the page `pc` lies in; 0 in the last page. -/
def pageEnd (pc : Word) : Word := (pc &&& ~~~0xfff) + 0x1000

/-- The loop of `block_translate`: the nodes from `pc` on, `pc_end`, and why it stopped. -/
def translateLoop (extC : Bool) (fetch : Word → Word) (pEnd : Word) :
    Nat → Word → List Insn × Word × Stop
  | 0, pc => ([], pc, .outOfFuel)
  | n + 1, pc =>
    let insn := fetch pc
    if insn = 0 then ([], pc, .noInsn)
    else match rvDecode extC insn with
      | .abort => ([], pc, .abort)
      | .illegal _ => ([], pc, .illegal insn)
      | .ok ir =>
        let pc' := pc + insnLen insn
        if ir.opcode.canBranch then ([{ ir with pc }], pc', .branch)
        else if pEnd ≤ pc' then ([{ ir with pc }], pc', .page)
        else
          let rest := translateLoop extC fetch pEnd n pc'
          ({ ir with pc } :: rest.1, rest.2)

/-- `block_translate` at `pc`, before `optimize_constant` and `match_pattern`. -/
def blockTranslate (extC : Bool) (fetch : Word → Word) (pc : Word) : List Insn × Word × Stop :=
  translateLoop extC fetch (pageEnd pc) 2048 pc

/-! ## Shape of a translated block -/

/-- A list of nodes decoded from consecutive addresses starting at `pc`, ended by the first branch. -/
inductive IrBlock (extC : Bool) : Word → List Insn → Prop
  | nil (pc : Word) : IrBlock extC pc []
  | cons {pc insn : Word} {ir : Insn} {irs : List Insn} (hdec : rvDecode extC insn = .ok ir)
      (hend : ir.opcode.canBranch = true → irs = [])
      (hrest : IrBlock extC (pc + insnLen insn) irs) : IrBlock extC pc ({ ir with pc } :: irs)

/-- **`block_translate` builds decoded blocks.** -/
theorem translateLoop_irBlock (extC : Bool) (fetch : Word → Word) (pEnd : Word) (n : Nat) (pc : Word) :
    IrBlock extC pc (translateLoop extC fetch pEnd n pc).1 := by
  induction n generalizing pc with
  | zero => exact .nil pc
  | succ n ih =>
    unfold translateLoop
    simp only
    split
    · exact .nil pc
    · split
      · exact .nil pc
      · exact .nil pc
      · rename_i ir hdec
        split_ifs with hb hp
        · exact .cons hdec (fun _ => rfl) (.nil _)
        · exact .cons hdec (fun _ => rfl) (.nil _)
        · exact .cons hdec (fun h => absurd h hb) (ih _)

theorem IrBlock.head {extC : Bool} {pc : Word} {ir : Insn} {irs : List Insn}
    (h : IrBlock extC pc (ir :: irs)) :
    ∃ insn ir', rvDecode extC insn = .ok ir' ∧ ir = { ir' with pc } ∧
      (ir.opcode.canBranch = true → irs = []) ∧ IrBlock extC (pc + insnLen insn) irs := by
  cases h with
  | cons hdec hend hrest => exact ⟨_, _, hdec, rfl, hend, hrest⟩

theorem IrBlock.of_append {extC : Bool} {pc : Word} {pre suf : List Insn}
    (h : IrBlock extC pc (pre ++ suf)) : IrBlock extC pc pre := by
  induction pre generalizing pc with
  | nil => exact .nil pc
  | cons ir pre ih =>
    obtain ⟨insn, ir', hdec, rfl, hend, hrest⟩ := h.head
    exact .cons hdec (fun hb => (List.append_eq_nil_iff.mp (hend hb)).1) (ih hrest)

theorem insnLen_toNat (insn : Word) : (insnLen insn).toNat = 2 ∨ (insnLen insn).toNat = 4 := by
  unfold insnLen
  split
  · exact .inl rfl
  · exact .inr rfl

/-- Every node that the loop goes past is at least two bytes below the end of its page. -/
theorem translateLoop_ne_outOfFuel (extC : Bool) (fetch : Word → Word) (pEnd : Word) (n : Nat)
    (pc : Word) (hpage : pEnd = 0 ∨ pEnd.toNat + 4 ≤ 2 ^ 32) (hpc : pEnd = 0 ∨ pc < pEnd)
    (hn : pEnd.toNat - pc.toNat ≤ 2 * n) (hpos : 0 < n) :
    (translateLoop extC fetch pEnd n pc).2.2 ≠ .outOfFuel := by
  induction n generalizing pc with
  | zero => exact absurd hpos (Nat.lt_irrefl 0)
  | succ n ih =>
    unfold translateLoop
    simp only
    split
    · simp
    · split
      · simp
      · simp
      · split_ifs with hb hp
        · simp
        · simp
        · have hlt : pc + insnLen (fetch pc) < pEnd := by
            simpa [BitVec.not_le] using hp
          have hE : pEnd ≠ 0 := by
            rintro rfl
            simp [BitVec.lt_def] at hlt
          have hE' := hpage.resolve_left hE
          have hpc' : pc.toNat < pEnd.toNat := BitVec.lt_def.mp (hpc.resolve_left hE)
          have hlen := insnLen_toNat (fetch pc)
          have hadd : (pc + insnLen (fetch pc)).toNat = pc.toNat + (insnLen (fetch pc)).toNat := by
            rw [BitVec.toNat_add, Nat.mod_eq_of_lt]
            omega
          have hlt' := BitVec.lt_def.mp hlt
          exact ih _ (.inr hlt) (by omega) (by omega)

theorem page_toNat (pc : Word) : (pc &&& ~~~0xfff).toNat = pc.toNat / 4096 * 4096 := by
  have hmask : pc &&& ~~~(0xfff : Word) = (pc >>> 12) <<< 12 := by
    ext i hi
    simp only [BitVec.getElem_and, BitVec.getElem_not, BitVec.getElem_shiftLeft]
    by_cases h : i < 12
    · interval_cases i <;> simp
    · interval_cases i <;> first | omega | simp
  have hlt := pc.isLt
  rw [hmask, BitVec.toNat_shiftLeft, BitVec.toNat_ushiftRight, Nat.shiftLeft_eq, Nat.shiftRight_eq_div_pow,
    Nat.mod_eq_of_lt (by omega)]

theorem pageEnd_toNat (pc : Word) : (pageEnd pc).toNat = (pc.toNat / 4096 * 4096 + 4096) % 2 ^ 32 := by
  unfold pageEnd
  rw [BitVec.toNat_add, page_toNat]
  rfl

theorem blockTranslate_ne_outOfFuel (extC : Bool) (fetch : Word → Word) (pc : Word) :
    (blockTranslate extC fetch pc).2.2 ≠ .outOfFuel := by
  have hE := pageEnd_toNat pc
  have hpc := pc.isLt
  by_cases h0 : pageEnd pc = 0
  · refine translateLoop_ne_outOfFuel _ _ _ _ _ (.inl h0) (.inl h0) ?_ (by decide)
    rw [h0]
    simp
  · have hne : (pageEnd pc).toNat ≠ 0 := fun h => h0 (BitVec.eq_of_toNat_eq (by simpa using h))
    refine translateLoop_ne_outOfFuel _ _ _ _ _ (.inr ?_) (.inr (BitVec.lt_def.mpr ?_)) ?_ (by decide)
    all_goals omega

/-! ## Running the handlers of a list of nodes -/

section Prefix

variable {α : Type*} {a : α} {l : List α}

theorem forall_prefix_cons {P : List α → Prop} :
    (∀ pre suf, a :: l = pre ++ suf → P pre) ↔ P [] ∧ ∀ pre suf, l = pre ++ suf → P (a :: pre) := by
  constructor
  · intro h
    refine ⟨h [] (a :: l) rfl, fun pre suf hl => h (a :: pre) suf ?_⟩
    rw [hl, List.cons_append]
  · rintro ⟨hnil, hcons⟩ pre suf hl
    cases pre with
    | nil => exact hnil
    | cons b pre =>
      obtain ⟨rfl, hl'⟩ := List.cons_eq_cons.mp hl
      exact hcons pre suf hl'

theorem forall_split_cons {P : List α → α → Prop} :
    (∀ pre b suf, a :: l = pre ++ b :: suf → P pre b) ↔
      P [] a ∧ ∀ pre b suf, l = pre ++ b :: suf → P (a :: pre) b := by
  constructor
  · intro h
    refine ⟨h [] a l rfl, fun pre b suf hl => h (a :: pre) b suf ?_⟩
    rw [hl, List.cons_append]
  · rintro ⟨hnil, hcons⟩ pre b suf hl
    cases pre with
    | nil =>
      obtain ⟨rfl, -⟩ := List.cons_eq_cons.mp hl
      exact hnil
    | cons c pre =>
      obtain ⟨rfl, hl'⟩ := List.cons_eq_cons.mp hl
      exact hcons pre b suf hl'

theorem forall_last_cons {P : List α → α → Prop} :
    (∀ pre b, a :: l = pre ++ [b] → P pre b) ↔
      (l = [] → P [] a) ∧ ∀ pre b, l = pre ++ [b] → P (a :: pre) b := by
  constructor
  · intro h
    refine ⟨fun hl => h [] a (by rw [hl, List.nil_append]), fun pre b hl => h (a :: pre) b ?_⟩
    rw [hl, List.cons_append]
  · rintro ⟨hnil, hcons⟩ pre b hl
    cases pre with
    | nil =>
      obtain ⟨rfl, hl'⟩ := List.cons_eq_cons.mp hl
      exact hnil hl'
    | cons c pre =>
      obtain ⟨rfl, hl'⟩ := List.cons_eq_cons.mp hl
      exact hcons pre b hl'

end Prefix

/-- The state after the nodes of a list that nothing follows or precedes: `none` if one of them
traps or leaves the block before the last one has run. -/
def runNodes (env : Env) : List Insn → BitVec 64 → Word → Cpu → Option Cpu
  | [], _, _, s => some s
  | ir :: irs, cycle, pc, s =>
    match doRvop env ir {} false cycle pc s with
    | .next cycle pc s => runNodes env irs cycle pc s
    | .trap _ _ => none
    | .enter _ _ _ s | .lookup _ _ s | .ret _ s => if irs = [] then some s else none

end Rv32emu
