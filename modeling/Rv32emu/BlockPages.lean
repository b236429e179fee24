import Rv32emu.SysEngine
import Rv32emu.StateRel

/-!
# The pages of a translated block

* `CachedBlock` : what the block cache of a `JIT` and `SYSTEM` build reads of a `block_t`;
* `Sequence` : nodes decoded from words that stand one after the other in memory;
* `sysTranslateLoop_sequence` : `block_translate` goes at most three bytes past the end of the page it starts in;
* `CachedBlock.Fits` : that bound, for a block; such a block has code in its own page, and in the next one exactly
  if it `Straddles` (`hasByteIn_iff`);
* `BuiltBlock` : the blocks that `block_translate` builds, which fit, and whose bytes are those of their
  instructions (`hasByte_iff`).
-/

namespace Rv32emu

open StateRel

/-! ## Blocks and pages -/

/-- `block_t`, as far as `cache.c` looks at it. -/
structure CachedBlock where
  pcStart : Word
  /-- The address after the last instruction. -/
  pcEnd : Word
  satp : Word
  invalidated : Bool := false
  deriving DecidableEq, Repr

/-- The page of an address: `va & ~(RV_PG_SIZE - 1)`. -/
def pageOf (a : Word) : Word := a &&& ~~~0xfff

theorem pageOf_eq_iff (a b : Word) : pageOf a = pageOf b ↔ a.toNat / 4096 = b.toNat / 4096 := by
  rw [← BitVec.toNat_inj, pageOf, pageOf, page_toNat, page_toNat]
  omega

theorem pageOf_pageEnd (a : Word) : pageOf (pageEnd a) = pageEnd a := by
  rw [← BitVec.toNat_inj, pageOf, page_toNat, pageEnd_toNat]
  omega

theorem pageEnd_ne (a : Word) : pageEnd a ≠ pageOf a := by
  intro h
  have hnat := congrArg BitVec.toNat h
  rw [pageOf, page_toNat, pageEnd_toNat] at hnat
  have hlt := a.isLt
  omega

/-- What is left of the page from this address on. -/
theorem pageEnd_sub (a : Word) : (pageEnd a - a).toNat + a.toNat % 4096 = 4096 := by
  have hlt := a.isLt
  rw [BitVec.toNat_sub, pageEnd_toNat]
  omega

/-! ## `block_translate` -/

/-- The nodes of the words `insns`, which stand from `pc` to `pcEnd`. -/
inductive Sequence (extC : Bool) : Word → List Insn → List Word → Word → Prop
  | nil (pc : Word) : Sequence extC pc [] [] pc
  | cons {pc pcEnd insn : Word} {ir : Insn} {irs : List Insn} {insns : List Word}
      (hdec : rvDecodeInto true extC {} insn = .ok ir) (hrest : Sequence extC (pc + insnLen insn) irs insns pcEnd) :
      Sequence extC pc ({ ir with pc } :: irs) (insn :: insns) pcEnd

def codeLen (insns : List Word) : Nat := (insns.map fun insn => (insnLen insn).toNat).sum

theorem codeLen_cons (insn : Word) (insns : List Word) :
    codeLen (insn :: insns) = (insnLen insn).toNat + codeLen insns := rfl

theorem Sequence.toNat_sub {extC : Bool} {pc pcEnd : Word} {irs : List Insn} {insns : List Word}
    (h : Sequence extC pc irs insns pcEnd) : (pcEnd - pc).toNat = codeLen insns % 2 ^ 32 := by
  induction h with
  | nil pc => simp [codeLen]
  | @cons pc pcEnd insn ir irs insns hdec hrest ih =>
    have hsub : pcEnd - pc = (pcEnd - (pc + insnLen insn)) + insnLen insn := by ring
    rw [hsub, BitVec.toNat_add, ih, codeLen_cons]
    omega

theorem Sequence.codeLen_pos {extC : Bool} {pc pcEnd : Word} {irs : List Insn} {insns : List Word}
    (h : Sequence extC pc irs insns pcEnd) (hne : irs ≠ []) : 0 < codeLen insns := by
  cases h with
  | nil => exact absurd rfl hne
  | @cons _ _ insn _ _ _ =>
    have hlen := insnLen_toNat insn
    rw [codeLen_cons]
    omega

/-- The bytes of the instructions are those from the first to the last. -/
theorem Sequence.byte_iff {extC : Bool} {pc pcEnd : Word} {irs : List Insn} {insns : List Word}
    (h : Sequence extC pc irs insns pcEnd) (hlen : codeLen insns < 2 ^ 32) (a : Word) :
    (a - pc).toNat < (pcEnd - pc).toNat ↔
      ∃ x ∈ (irs.map Insn.pc).zip insns, (a - x.1).toNat < (insnLen x.2).toNat := by
  rw [h.toNat_sub, Nat.mod_eq_of_lt hlen]
  induction h with
  | nil pc => simp [codeLen]
  | @cons pc pcEnd insn ir irs insns hdec hrest ih =>
    rw [codeLen_cons] at hlen ⊢
    have hsub : a - (pc + insnLen insn) = (a - pc) - insnLen insn := by ring
    have hrec := ih (by omega)
    rw [hsub, BitVec.toNat_sub] at hrec
    have hlt := (a - pc).isLt
    have hle := (insnLen insn).isLt
    simp only [List.map_cons, List.zip_cons_cons, List.mem_cons, exists_eq_or_imp, ← hrec]
    omega

/-- The loop stops with the instruction that reaches the end of the page. -/
theorem sysTranslateLoop_sequence (env : SysEnv) (raise : Raise) {pEnd : Word} (hpage : pEnd.toNat % 4096 = 0)
    {n : Nat} {pc : Word} {s : Sys} {r : (List Insn × Word × SysStop) × Sys}
    (h : sysTranslateLoop env raise pEnd n pc s = some r) (hpos : 0 < (pEnd - pc).toNat)
    (hroom : (pEnd - pc).toNat ≤ 4096) :
    ∃ insns, Sequence env.extC pc r.1.1 insns r.1.2.1 ∧ codeLen insns ≤ (pEnd - pc).toNat + 3 := by
  induction n generalizing pc s r with
  | zero => cases h
  | succ n ih =>
    obtain ⟨insn, s₁, -, h⟩ := bind_eq_some.mp h
    have hempty : r.1.1 = [] → r.1.2.1 = pc →
        ∃ insns, Sequence env.extC pc r.1.1 insns r.1.2.1 ∧ codeLen insns ≤ (pEnd - pc).toNat + 3 := by
      intro hirs hend
      rw [hirs, hend]
      exact ⟨[], .nil pc, Nat.zero_le _⟩
    split_ifs at h with hzero
    · obtain ⟨s₂, s₃, hget, h⟩ := bind_eq_some.mp h
      split_ifs at h
      · obtain ⟨u, s₄, -, h⟩ := bind_eq_some.mp h
        cases h
        exact hempty rfl rfl
      · cases h
        exact hempty rfl rfl
    · cases hdec : rvDecodeInto true env.extC {} insn with
      | abort =>
        rw [hdec] at h
        cases h
      | illegal ir =>
        rw [hdec] at h
        obtain ⟨u, s₂, -, h⟩ := bind_eq_some.mp h
        obtain ⟨u', s₃, -, h⟩ := bind_eq_some.mp h
        cases h
        exact hempty rfl rfl
      | ok ir =>
        simp only [hdec] at h
        have hlen := insnLen_toNat insn
        have hone : ∃ insns, Sequence env.extC pc [{ ir with pc }] insns (pc + insnLen insn) ∧
            codeLen insns ≤ (pEnd - pc).toNat + 3 := by
          refine ⟨[insn], .cons hdec (.nil _), ?_⟩
          rw [codeLen_cons, codeLen, List.map_nil, List.sum_nil]
          omega
        split_ifs at h with hbranch hend
        · cases h
          exact hone
        · cases h
          exact hone
        · obtain ⟨rest, s₂, hrest, h⟩ := bind_eq_some.mp h
          cases h
          -- the next instruction starts in the same page
          have hlt : (pc + insnLen insn).toNat < pEnd.toNat := BitVec.lt_def.mp (BitVec.not_le.mp hend)
          have hp := pc.isLt
          have hE := pEnd.isLt
          have hsum : pc.toNat + (pEnd - pc).toNat = pEnd.toNat := by
            rw [BitVec.toNat_sub] at hroom hpos ⊢
            omega
          have hnext : (pc + insnLen insn).toNat = pc.toNat + (insnLen insn).toNat := by
            rw [BitVec.toNat_add]
            omega
          have hsub : (pEnd - (pc + insnLen insn)).toNat + (insnLen insn).toNat = (pEnd - pc).toNat := by
            rw [BitVec.toNat_sub_of_le (BitVec.le_def.mpr hlt.le)]
            omega
          obtain ⟨insns, hseq, hle⟩ := ih hrest (by omega) (by omega)
          refine ⟨insn :: insns, .cons hdec hseq, ?_⟩
          rw [codeLen_cons]
          omega

structure BuiltBlock (env : SysEnv) where
  decoding : Decoding
  built : ∃ raise fuel s s', sysBlockTranslate env raise fuel s = some (decoding, s')
  irs_ne : decoding.irs ≠ []

/-- The block as `block_find_or_translate` puts it into the cache. -/
def BuiltBlock.block {env : SysEnv} (t : BuiltBlock env) (satp : Word) : CachedBlock :=
  { pcStart := t.decoding.pcStart, pcEnd := t.decoding.pcEnd, satp }

theorem BuiltBlock.sequence {env : SysEnv} (t : BuiltBlock env) :
    ∃ insns, Sequence env.extC t.decoding.pcStart t.decoding.irs insns t.decoding.pcEnd ∧
      codeLen insns ≤ (pageEnd t.decoding.pcStart - t.decoding.pcStart).toNat + 3 := by
  obtain ⟨d, ⟨raise, fuel, s, s', h⟩, -⟩ := t
  change ∃ insns, Sequence env.extC d.pcStart d.irs insns d.pcEnd ∧
    codeLen insns ≤ (pageEnd d.pcStart - d.pcStart).toNat + 3
  induction fuel generalizing s with
  | zero => cases h
  | succ fuel ih =>
    obtain ⟨s₀, s₁, hget, h⟩ := bind_eq_some.mp h
    obtain ⟨⟨irs, pcEnd, stop⟩, s₂, hloop, h⟩ := bind_eq_some.mp h
    simp only at h
    split_ifs at h with hagain
    · exact ih s₂ h
    · cases h
      have hpage := pageEnd_toNat s₀.cpu.PC
      have hroom := pageEnd_sub s₀.cpu.PC
      exact sysTranslateLoop_sequence env raise (by omega) hloop (by omega) (by omega)

/-! ## The pages a block has code in -/

namespace CachedBlock

def size (b : CachedBlock) : Nat := (b.pcEnd - b.pcStart).toNat

/-- The bytes from its start to the end of the page. -/
def room (b : CachedBlock) : Nat := (pageEnd b.pcStart - b.pcStart).toNat

def HasByte (b : CachedBlock) (a : Word) : Prop := (a - b.pcStart).toNat < b.size

/-- Some byte of an instruction is in the page of this address. -/
def HasByteIn (b : CachedBlock) (va : Word) : Prop := ∃ a, b.HasByte a ∧ pageOf a = pageOf va

/-- The last instruction goes past the end of the page. -/
def Straddles (b : CachedBlock) : Prop := b.room < b.size

instance (b : CachedBlock) : Decidable b.Straddles := inferInstanceAs (Decidable (_ < _))

/-- The last byte, as `cache_invalidate_va` computes it. -/
def lastByte (b : CachedBlock) : Word := if b.pcStart < b.pcEnd then b.pcEnd - 1 else b.pcStart

/-- The block is not empty, and only its last instruction may leave the page. -/
structure Fits (b : CachedBlock) : Prop where
  pos : 0 < b.size
  le : b.size ≤ b.room + 3

variable {b : CachedBlock}

theorem room_eq (b : CachedBlock) : b.room + b.pcStart.toNat % 4096 = 4096 := pageEnd_sub b.pcStart

/-- **The pages a block has code in.** -/
theorem Fits.hasByteIn_iff (h : b.Fits) (va : Word) :
    b.HasByteIn va ↔ pageOf b.pcStart = pageOf va ∨ b.Straddles ∧ pageEnd b.pcStart = pageOf va := by
  have hroom := b.room_eq
  have hlt := b.pcStart.isLt
  have hsize : b.size ≤ 4099 := h.le.trans (by omega)
  constructor
  · rintro ⟨a, ha, hpage⟩
    unfold HasByte at ha
    have hsum : a.toNat = (b.pcStart.toNat + (a - b.pcStart).toNat) % 2 ^ 32 := by
      rw [← BitVec.toNat_add]
      congr 1
      ring
    by_cases hin : (a - b.pcStart).toNat < b.room
    · refine .inl (Eq.trans ?_ hpage)
      rw [pageOf_eq_iff]
      omega
    · refine .inr ⟨lt_of_le_of_lt (not_lt.mp hin) ha, Eq.trans ?_ hpage⟩
      rw [← pageOf_pageEnd, pageOf_eq_iff, pageEnd_toNat]
      have hle := h.le
      omega
  · rintro (hpage | ⟨hstraddles, hpage⟩)
    · refine ⟨b.pcStart, ?_, hpage⟩
      unfold HasByte
      simpa using h.pos
    · exact ⟨pageEnd b.pcStart, hstraddles, by rw [pageOf_pageEnd, hpage]⟩

/-- A block that wraps around is taken to end where it starts. -/
theorem Fits.lastByte_toNat (h : b.Fits) :
    b.lastByte.toNat = if b.pcStart.toNat + b.size < 2 ^ 32 then b.pcStart.toNat + b.size - 1 else b.pcStart.toNat := by
  have hroom := b.room_eq
  have hle := h.le
  have hpos := h.pos
  have hend : b.pcEnd.toNat = (b.pcStart.toNat + b.size) % 2 ^ 32 := by
    rw [size, ← BitVec.toNat_add]
    congr 1
    ring
  have hlt := b.pcStart.isLt
  unfold lastByte
  split_ifs with hbelow hfits hfits
  · have hone : (1 : Word) ≤ b.pcEnd := BitVec.le_def.mpr (show 1 ≤ b.pcEnd.toNat by omega)
    rw [BitVec.toNat_sub_of_le hone, hend, Nat.mod_eq_of_lt hfits]
    rfl
  · rw [BitVec.lt_def, hend] at hbelow
    omega
  · rw [BitVec.lt_def, hend] at hbelow
    omega
  · rfl

/-- The range of pages that the scan compares with. -/
theorem Fits.scan_iff (h : b.Fits) (va : Word) :
    (pageOf b.pcStart ≤ pageOf va ∧ pageOf va ≤ pageOf b.lastByte) ↔
      pageOf b.pcStart = pageOf va ∨
        b.Straddles ∧ pageEnd b.pcStart = pageOf va ∧ pageEnd b.pcStart ≠ 0 := by
  have hroom := b.room_eq
  have hle := h.le
  have hpos := h.pos
  have hlast := h.lastByte_toNat
  have hlt := b.pcStart.isLt
  have hnz : pageEnd b.pcStart ≠ 0 ↔ (b.pcStart.toNat / 4096 * 4096 + 4096) % 2 ^ 32 ≠ 0 := by
    rw [← pageEnd_toNat, Ne, ← BitVec.toNat_inj]
    rfl
  rw [hnz, pageOf_eq_iff, ← BitVec.toNat_inj, pageEnd_toNat, BitVec.le_def, BitVec.le_def]
  simp only [pageOf, page_toNat, hlast, Straddles]
  split_ifs with hfits
  · omega
  · omega

end CachedBlock

section BuiltBlock

variable {env : SysEnv} (t : BuiltBlock env) (satp : Word)

theorem BuiltBlock.size_eq {insns : List Word}
    (hseq : Sequence env.extC t.decoding.pcStart t.decoding.irs insns t.decoding.pcEnd)
    (hle : codeLen insns ≤ (pageEnd t.decoding.pcStart - t.decoding.pcStart).toNat + 3) :
    (t.block satp).size = codeLen insns ∧ codeLen insns < 2 ^ 32 := by
  have hroom := pageEnd_sub t.decoding.pcStart
  have hlt : codeLen insns < 2 ^ 32 := by omega
  exact ⟨hseq.toNat_sub.trans (Nat.mod_eq_of_lt hlt), hlt⟩

/-- **A translated block fits.** -/
theorem BuiltBlock.fits : (t.block satp).Fits := by
  obtain ⟨insns, hseq, hle⟩ := t.sequence
  obtain ⟨hsize, -⟩ := t.size_eq satp hseq hle
  refine ⟨?_, hsize ▸ hle⟩
  rw [hsize]
  exact hseq.codeLen_pos t.irs_ne

theorem BuiltBlock.hasByte_iff :
    ∃ insns, Sequence env.extC t.decoding.pcStart t.decoding.irs insns t.decoding.pcEnd ∧
      ∀ a, (t.block satp).HasByte a ↔
        ∃ x ∈ (t.decoding.irs.map Insn.pc).zip insns, (a - x.1).toNat < (insnLen x.2).toNat := by
  obtain ⟨insns, hseq, hle⟩ := t.sequence
  exact ⟨insns, hseq, fun a => hseq.byte_iff (t.size_eq satp hseq hle).2 a⟩

end BuiltBlock

end Rv32emu
