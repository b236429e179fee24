import Rv32emu.Tlb

/-!
# The page-table walk of Sv32

* `Sv32.walk`, `Sv32.translate` : the address translation of the privileged specification, on 34-bit
  physical addresses, with page tables inside a part of memory;
* `sv32Walk` : this walk from `satp` on guest memory;
* `WalkFollows` : what `mmu_walk` finds, and the address that `mmu_translate` composes from it, are those of
  the specification; `walkFollows_iff`.
-/

namespace Rv32emu

/-! ## The specification -/

namespace Sv32

inductive Fault
  /-- The table is not in memory. -/
  | outside
  | invalid
  /-- `W` without `R`. -/
  | reserved
  /-- A superpage whose frame number is not a multiple of its size. -/
  | misaligned
  /-- A pointer to a further table in a table of the last level. -/
  | pointer
  deriving DecidableEq, Repr

/-- A leaf entry: its address, its value and the level `i` it is found at, 1 for a superpage. -/
structure Leaf where
  entry : BitVec 34
  pte : Word
  i : Nat
  deriving DecidableEq, Repr

/-- `va.vpn[i]`. -/
def vpn (va : Word) (i : Nat) : BitVec 10 := va.extractLsb' (12 + 10 * i) 10

def ppn (pte : Word) : BitVec 22 := pte.extractLsb' 10 22

section Walk

variable (inside : BitVec 22 → Prop) [DecidablePred inside] (mem : BitVec 34 → Word) (va : Word)

/-- The entry of `va` in the table `a` of level `i`. `next` goes on with the table it points to. -/
def visit (i : Nat) (next : BitVec 22 → Except Fault Leaf) (a : BitVec 22) : Except Fault Leaf :=
  if ¬ inside a then .error .outside
  else
    let entry : BitVec 34 := a ++ vpn va i ++ 0#2
    let pte := mem entry
    if ¬ Pte.Has pte Pte.V then .error .invalid
    else if Pte.Has pte Pte.W ∧ ¬ Pte.Has pte Pte.R then .error .reserved
    else if Pte.Has pte Pte.R ∨ Pte.Has pte Pte.X then
      if pte.extractLsb' 10 (10 * i) ≠ 0 then .error .misaligned else .ok ⟨entry, pte, i⟩
    else next (ppn pte)

/-- The walk from the table `a` of level `i` down. -/
def walk : Nat → BitVec 22 → Except Fault Leaf
  | 0 => visit inside mem va 0 fun _ => .error .pointer
  | i + 1 => visit inside mem va (i + 1) (walk i)

end Walk

/-- The physical address: the frame of the leaf and the offset in the page or superpage. -/
def translate (l : Leaf) (va : Word) : BitVec 34 :=
  match l.i with
  | 0 => ppn l.pte ++ va.extractLsb' 0 12
  | _ => l.pte.extractLsb' 20 12 ++ va.extractLsb' 0 22

end Sv32

/-! ## The two walks -/

/-- The page of this number lies in guest memory. -/
def SysEnv.inside (env : SysEnv) (ppn : BitVec 22) : Prop := ppn.toNat * 4096 + 4096 ≤ env.memSize

instance (env : SysEnv) : DecidablePred env.inside := fun _ => inferInstanceAs (Decidable (_ ≤ _))

/-- A word of guest memory at a physical address. -/
def Cpu.physReadW (s : Cpu) (a : BitVec 34) : Word := s.mem.readW (a.setWidth 64)

/-- The walk of the specification from the root table in `satp`. -/
def sv32Walk (env : SysEnv) (s : Cpu) (va : Word) : Except Sv32.Fault Sv32.Leaf :=
  Sv32.walk env.inside s.physReadW va 1 (s.csr.satp.extractLsb' 0 22)

/-- `mmu_walk` returns the leaf entry and the level of the specification, and `NULL` where that has a page
fault; from the leaf entry `mmu_translate` composes the address of the specification. -/
structure WalkFollows (env : SysEnv) (s : Sys) (va : Word) (access : Access) : Prop where
  walk : (mmuWalk env s.cpu va).map (fun r => (r.1.setWidth 34, r.2, s.cpu.memReadW r.1)) =
    (sv32Walk env s.cpu va).toOption.map fun l => (l.entry, 2 - l.i, l.pte)
  address : ∀ l, sv32Walk env s.cpu va = .ok l →
    ∃ paddr s', finishTranslate va access (mmuWalk env s.cpu va) s = some (paddr, s') ∧
      paddr.setWidth 34 = Sv32.translate l va

section Walk

variable {env : SysEnv} {s : Cpu} {va : Word}

/-- The bits that `mmu_walk` switches on. -/
theorem has_low (pte : Word) (b : BitVec 4) :
    Pte.Has pte (b.setWidth 32) ↔ (pte.extractLsb' 0 4 &&& b) ≠ 0 := by
  have hand : pte &&& b.setWidth 32 = (pte.extractLsb' 0 4 &&& b).setWidth 32 := by
    apply BitVec.eq_of_getLsbD_eq
    intro i hi
    simp only [BitVec.getLsbD_and, BitVec.getLsbD_setWidth, BitVec.getLsbD_extractLsb', hi, decide_true,
      Bool.true_and, Nat.zero_add]
    by_cases hlow : i < 4
    · simp [hlow]
    · simp [hlow, BitVec.getLsbD_of_ge b i (by omega)]
  unfold Pte.Has
  rw [hand, not_iff_not]
  constructor
  · intro h
    have hnat := congrArg BitVec.toNat h
    apply BitVec.eq_of_toNat_eq
    rwa [BitVec.toNat_setWidth_of_le (by decide)] at hnat
  · intro h
    rw [h]
    rfl

/-- What the specification does with an entry, in the words of `mmu_walk`. -/
theorem walkStep_eq (level : Nat) (pte : Word) : walkStep level pte =
    if ¬ Pte.Has pte Pte.V then .null
    else if Pte.Has pte Pte.W ∧ ¬ Pte.Has pte Pte.R then .null
    else if Pte.Has pte Pte.R ∨ Pte.Has pte Pte.X then
      if level = 1 ∧ pte >>> 10 &&& 0x3ff ≠ 0 then .null else .leaf
    else .table (pte >>> 10) := by
  have hnat : (pte &&& 0xf).toNat = (pte.extractLsb' 0 4).toNat := by
    rw [BitVec.toNat_and, BitVec.extractLsb'_toNat, Nat.shiftRight_zero]
    exact Nat.and_two_pow_sub_one_eq_mod _ 4
  have hV := has_low pte 1
  have hR := has_low pte 2
  have hW := has_low pte 4
  have hX := has_low pte 8
  unfold walkStep
  simp only [hnat]
  rw [show Pte.V = (1 : BitVec 4).setWidth 32 from rfl, show Pte.R = (2 : BitVec 4).setWidth 32 from rfl,
    show Pte.W = (4 : BitVec 4).setWidth 32 from rfl, show Pte.X = (8 : BitVec 4).setWidth 32 from rfl]
  simp only [hV, hR, hW, hX]
  generalize pte.extractLsb' 0 4 = n
  obtain ⟨k, hk, rfl⟩ : ∃ k < 16, n = BitVec.ofNat 4 k := ⟨n.toNat, n.isLt, by simp⟩
  interval_cases k <;> rfl

/-- An entry address does not leave guest memory. -/
theorem entry_eq (va : Word) {a : BitVec 22} (ha : a.toNat < 2 ^ 20) (i : Nat) :
    ((a.setWidth 32 <<< 12 + ((4 : Nat) : Word) * (va >>> (12 + 10 * i) &&& 0x3ff)) : Word).setWidth 34 =
      a ++ Sv32.vpn va i ++ 0#2 := by
  have hvpn : (va >>> (12 + 10 * i) &&& 0x3ff).toNat = (Sv32.vpn va i).toNat := by
    rw [Sv32.vpn, BitVec.extractLsb'_toNat, BitVec.toNat_and, BitVec.toNat_ushiftRight]
    exact Nat.and_two_pow_sub_one_eq_mod _ 10
  have hlt := (Sv32.vpn va i).isLt
  have happ : (a ++ Sv32.vpn va i ++ 0#2 : BitVec 34).toNat = a.toNat * 4096 + (Sv32.vpn va i).toNat * 4 := by
    rw [BitVec.toNat_append, BitVec.toNat_append, ← Nat.shiftLeft_add_eq_or_of_lt hlt,
      ← Nat.shiftLeft_add_eq_or_of_lt (by decide : (0#2).toNat < 2 ^ 2), Nat.shiftLeft_eq, Nat.shiftLeft_eq]
    have h0 : (0#2).toNat = 0 := rfl
    omega
  apply BitVec.eq_of_toNat_eq
  rw [happ, BitVec.toNat_setWidth_of_le (by decide), BitVec.toNat_add, BitVec.toNat_mul, hvpn,
    BitVec.toNat_shiftLeft, BitVec.toNat_setWidth_of_le (by decide), Nat.shiftLeft_eq,
    show ((4 : Nat) : Word).toNat = 4 from rfl]
  omega

theorem setWidth_ppn (pte : Word) : (Sv32.ppn pte).setWidth 32 = pte >>> 10 := by
  unfold Sv32.ppn
  apply BitVec.eq_of_toNat_eq
  rw [BitVec.toNat_setWidth_of_le (by decide), BitVec.extractLsb'_toNat, BitVec.toNat_ushiftRight]
  have := pte.isLt
  rw [Nat.shiftRight_eq_div_pow]
  omega

theorem setWidth_root (satp : Word) : (satp.extractLsb' 0 22).setWidth 32 = satp &&& 0x3fffff := by
  apply BitVec.eq_of_toNat_eq
  rw [BitVec.toNat_setWidth_of_le (by decide), BitVec.extractLsb'_toNat, BitVec.toNat_and, Nat.shiftRight_zero]
  exact (Nat.and_two_pow_sub_one_eq_mod _ 22).symm

/-- `PAGE_TABLE` finds the tables inside guest memory. -/
theorem pageTable_eq (a : BitVec 22) :
    pageTable env (a.setWidth 32) = if env.inside a then some (a.setWidth 32 <<< 12) else none := by
  unfold pageTable SysEnv.inside
  rw [BitVec.toNat_setWidth_of_le (by decide)]
  refine if_congr ?_ rfl rfl
  omega

/-- The frame number of a superpage is looked at as a whole. -/
theorem misaligned_iff {i : Nat} (hi : i ≤ 1) (pte : Word) :
    (2 - i = 1 ∧ pte >>> 10 &&& 0x3ff ≠ 0) ↔ pte.extractLsb' 10 (10 * i) ≠ 0 := by
  interval_cases i
  · exact ⟨fun h => absurd h.1 (by decide), fun h => absurd (BitVec.of_length_zero (x := _)) h⟩
  · have hnat : (pte >>> 10 &&& 0x3ff).toNat = (pte.extractLsb' 10 10).toNat := by
      rw [BitVec.extractLsb'_toNat, BitVec.toNat_and, BitVec.toNat_ushiftRight]
      exact Nat.and_two_pow_sub_one_eq_mod _ 10
    have hzero : pte >>> 10 &&& 0x3ff = 0 ↔ pte.extractLsb' 10 10 = 0 := by
      rw [← BitVec.toNat_inj, ← BitVec.toNat_inj, hnat]
      rfl
    exact ⟨fun h => fun hz => h.2 (hzero.mpr hz), fun h => ⟨rfl, fun hz => h (hzero.mp hz)⟩⟩

/-- What one round of the loop of `mmu_walk` does on the table of level `i`. -/
def walkRound (env : SysEnv) (s : Cpu) (va : Word) (i : Nat) (k : Word → Option (Word × Nat)) (ppn : Word) :
    Option (Word × Nat) :=
  (pageTable env ppn).bind fun table =>
    let pte := table + ((4 : Nat) : Word) * (va >>> (12 + 10 * i) &&& 0x3ff)
    match walkStep (2 - i) (s.memReadW pte) with
    | .leaf => some (pte, 2 - i)
    | .null => none
    | .table ppn => k ppn

theorem mmuWalk_rounds : mmuWalk env s va =
    walkRound env s va 1 (walkRound env s va 0 fun _ => none) (s.csr.satp &&& 0x3fffff) := by
  unfold mmuWalk walkRound
  rfl

/-- A leaf as `mmu_walk` returns it, and as the specification does. -/
def found (s : Cpu) (r : Word × Nat) : BitVec 34 × Nat × Word := (r.1.setWidth 34, r.2, s.memReadW r.1)

def specified (l : Sv32.Leaf) : BitVec 34 × Nat × Word := (l.entry, 2 - l.i, l.pte)

/-- **One round follows the specification** if the rounds after it do. -/
theorem walkRound_follows (hmem : env.memSize ≤ 2 ^ 32) {i : Nat} (hi : i ≤ 1)
    {k : Word → Option (Word × Nat)} {next : BitVec 22 → Except Sv32.Fault Sv32.Leaf}
    (hnext : ∀ b, (k (b.setWidth 32)).map (found s) = (next b).toOption.map specified) (a : BitVec 22) :
    (walkRound env s va i k (a.setWidth 32)).map (found s) =
      (Sv32.visit env.inside s.physReadW va i next a).toOption.map specified := by
  unfold walkRound Sv32.visit
  rw [pageTable_eq]
  by_cases hin : env.inside a
  · have ha : a.toNat < 2 ^ 20 := by
      unfold SysEnv.inside at hin
      omega
    rw [if_pos hin, if_neg (not_not.mpr hin), Option.bind_some]
    have hentry := entry_eq va ha i
    generalize a.setWidth 32 <<< 12 + ((4 : Nat) : Word) * (va >>> (12 + 10 * i) &&& 0x3ff) = pte at hentry ⊢
    have hread : s.physReadW (a ++ Sv32.vpn va i ++ 0#2) = s.memReadW pte := by
      rw [← hentry]
      unfold Cpu.physReadW Cpu.memReadW memOff
      have hwide : ((pte.setWidth 34).setWidth 64 : BitVec 64) = pte.setWidth 64 := by
        apply BitVec.eq_of_toNat_eq
        have := pte.isLt
        simp only [BitVec.toNat_setWidth]
        omega
      rw [hwide]
    simp only [hread, walkStep_eq, ← misaligned_iff hi]
    by_cases hv : ¬ Pte.Has (s.memReadW pte) Pte.V
    · rw [if_pos hv, if_pos hv]
      rfl
    rw [if_neg hv, if_neg hv]
    by_cases hw : Pte.Has (s.memReadW pte) Pte.W ∧ ¬ Pte.Has (s.memReadW pte) Pte.R
    · rw [if_pos hw, if_pos hw]
      rfl
    rw [if_neg hw, if_neg hw]
    by_cases hleaf : Pte.Has (s.memReadW pte) Pte.R ∨ Pte.Has (s.memReadW pte) Pte.X
    · rw [if_pos hleaf, if_pos hleaf]
      by_cases hmis : 2 - i = 1 ∧ s.memReadW pte >>> 10 &&& 0x3ff ≠ 0
      · rw [if_pos hmis, if_pos hmis]
        rfl
      · rw [if_neg hmis, if_neg hmis]
        exact congrArg some (Prod.ext hentry rfl)
    · rw [if_neg hleaf, if_neg hleaf, ← setWidth_ppn]
      exact hnext _
  · rw [if_neg hin, if_pos hin]
    rfl

/-- **`mmu_walk` is the walk of the specification.** -/
theorem mmuWalk_follows (hmem : env.memSize ≤ 2 ^ 32) (s : Cpu) (va : Word) :
    (mmuWalk env s va).map (found s) = (sv32Walk env s va).toOption.map specified := by
  rw [mmuWalk_rounds, ← setWidth_root]
  refine walkRound_follows hmem (le_refl 1) (fun b => ?_) _
  exact walkRound_follows hmem (Nat.zero_le 1) (fun _ => rfl) b

theorem visit_ok {inside : BitVec 22 → Prop} [DecidablePred inside] {mem : BitVec 34 → Word} {i : Nat}
    {next : BitVec 22 → Except Sv32.Fault Sv32.Leaf} {a : BitVec 22} {l : Sv32.Leaf}
    (h : Sv32.visit inside mem va i next a = .ok l) :
    (l.i = i ∧ l.pte.extractLsb' 10 (10 * i) = 0) ∨ ∃ b, next b = .ok l := by
  unfold Sv32.visit at h
  simp only at h
  split_ifs at h with h1 h2 h3 h4 h5
  · obtain rfl := Except.ok.inj h
    exact .inl ⟨rfl, not_not.mp h5⟩
  · exact .inr ⟨_, h⟩

/-- A leaf of the walk: a page, or a superpage that is aligned. -/
theorem sv32Walk_ok {l : Sv32.Leaf} (h : sv32Walk env s va = .ok l) :
    l.i = 0 ∨ l.i = 1 ∧ l.pte.extractLsb' 10 10 = 0 := by
  obtain hone | ⟨b, hb⟩ := visit_ok h
  · exact .inr hone
  · obtain ⟨hi, -⟩ | ⟨c, hc⟩ := visit_ok hb
    · exact .inl hi
    · cases hc

end Walk

/-! ## The composed address -/

section Address

variable {env : SysEnv} {va : Word}

/-- OR of a multiple of a power of two and of something smaller. -/
theorem or_toNat {x y : Word} (k : Nat) (hx : x.toNat % 2 ^ k = 0) (hy : y.toNat < 2 ^ k) :
    (x ||| y).toNat = x.toNat + y.toNat := by
  rw [BitVec.toNat_or, ← Nat.div_mul_cancel (Nat.dvd_of_mod_eq_zero hx), Nat.mul_comm,
    Nat.two_pow_add_eq_or_of_lt hy]

theorem ptePpn_toNat (pte : Word) : (ptePpn pte).toNat = (Sv32.ppn pte).toNat % 2 ^ 20 * 4096 := by
  unfold ptePpn
  rw [← setWidth_ppn, BitVec.toNat_shiftLeft, BitVec.toNat_setWidth_of_le (by decide), Nat.shiftLeft_eq]
  omega

/-- **The composed address is that of the specification iff the frame is below 4 GiB**: two bits of the
frame number have no place in 32. -/
theorem physAddr_eq_translate_iff {l : Sv32.Leaf} (hl : l.i = 0 ∨ l.i = 1 ∧ l.pte.extractLsb' 10 10 = 0) :
    (physAddr (ptePpn l.pte) (2 - l.i) va).setWidth 34 = Sv32.translate l va ↔
      (Sv32.ppn l.pte).toNat < 2 ^ 20 := by
  rw [← BitVec.toNat_inj, BitVec.toNat_setWidth_of_le (by decide)]
  have hppn := ptePpn_toNat l.pte
  unfold physAddr
  rcases hl with hi | ⟨hi, haligned⟩
  · have hoff : (va &&& 0xfff).toNat = va.toNat % 4096 := by
      rw [BitVec.toNat_and]
      exact Nat.and_two_pow_sub_one_eq_mod _ 12
    have hpage : (Sv32.translate l va).toNat = (Sv32.ppn l.pte).toNat * 4096 + va.toNat % 4096 := by
      have htranslate : Sv32.translate l va = Sv32.ppn l.pte ++ va.extractLsb' 0 12 := by
        unfold Sv32.translate
        split
        · rfl
        · exact absurd hi ‹_›
      rw [htranslate, BitVec.toNat_append, ← Nat.shiftLeft_add_eq_or_of_lt (va.extractLsb' 0 12).isLt, Nat.shiftLeft_eq,
        BitVec.extractLsb'_toNat, Nat.shiftRight_zero]
    rw [hi, if_neg (by decide), hpage, or_toNat 12 (by rw [hppn]; omega) (by rw [hoff]; omega), hppn, hoff]
    have := (Sv32.ppn l.pte).isLt
    omega
  · have hoff : (va &&& 0x3fffff).toNat = va.toNat % 2 ^ 22 := by
      rw [BitVec.toNat_and]
      exact Nat.and_two_pow_sub_one_eq_mod _ 22
    have hlow : (Sv32.ppn l.pte).toNat % 1024 = 0 := by
      have hnat := congrArg BitVec.toNat haligned
      rw [BitVec.extractLsb'_toNat] at hnat
      unfold Sv32.ppn
      rw [BitVec.extractLsb'_toNat, Nat.shiftRight_eq_div_pow] at *
      change _ = 0 at hnat
      omega
    have hhigh : (l.pte.extractLsb' 20 12).toNat = (Sv32.ppn l.pte).toNat / 1024 := by
      unfold Sv32.ppn
      rw [BitVec.extractLsb'_toNat, BitVec.extractLsb'_toNat, Nat.shiftRight_eq_div_pow, Nat.shiftRight_eq_div_pow]
      have := l.pte.isLt
      omega
    have hpage : (Sv32.translate l va).toNat = (Sv32.ppn l.pte).toNat * 4096 + va.toNat % 2 ^ 22 := by
      have htranslate : Sv32.translate l va = l.pte.extractLsb' 20 12 ++ va.extractLsb' 0 22 := by
        unfold Sv32.translate
        split
        · omega
        · rfl
      rw [htranslate, BitVec.toNat_append, ← Nat.shiftLeft_add_eq_or_of_lt (va.extractLsb' 0 22).isLt, Nat.shiftLeft_eq,
        hhigh, BitVec.extractLsb'_toNat, Nat.shiftRight_zero]
      omega
    rw [hi, if_pos rfl, hpage, or_toNat 22 (by rw [hppn]; omega) (by rw [hoff]; omega), hppn, hoff]
    have := (Sv32.ppn l.pte).isLt
    omega

/-- What `mmu_translate` composes from a leaf entry. -/
theorem finishTranslate_some (access : Access) (pteAddr : Word) (level : Nat) (s : Sys) :
    finishTranslate va access (some (pteAddr, level)) s =
      some (physAddr (ptePpn (s.cpu.memReadW pteAddr)) level va, s.fillDtlb va access pteAddr level) := by
  have hbits : access.usedBits &&& ~~~(0xc0 : Word) = 0 := by
    cases access <;> decide
  have hsame : ptePpn (s.cpu.memReadW pteAddr) = ptePpn (s.cpu.memReadW pteAddr ||| access.usedBits) := by
    rw [ptePpn, ptePpn, (SamePte.or_left access.usedBits hbits).ushiftRight]
  rw [hsame, ← orPte_self]
  rfl

end Address

/-- **When the walk and the address are those of Sv32.** The walk always is; the address is iff the frame of
the leaf lies below 4 GiB. -/
theorem walkFollows_iff {env : SysEnv} (hmem : env.memSize ≤ 2 ^ 32) (s : Sys) (va : Word) (access : Access) :
    WalkFollows env s va access ↔
      ∀ l, sv32Walk env s.cpu va = .ok l → (Sv32.ppn l.pte).toNat < 2 ^ 20 := by
  have hfollows := mmuWalk_follows hmem s.cpu va
  have haddress : ∀ l, sv32Walk env s.cpu va = .ok l →
      ((∃ paddr s', finishTranslate va access (mmuWalk env s.cpu va) s = some (paddr, s') ∧
        paddr.setWidth 34 = Sv32.translate l va) ↔ (Sv32.ppn l.pte).toNat < 2 ^ 20) := by
    intro l hl
    rw [hl] at hfollows
    obtain ⟨⟨pteAddr, level⟩, hwalk, hfound⟩ := Option.map_eq_some_iff.mp hfollows
    obtain ⟨-, hlevel, hpte⟩ : pteAddr.setWidth 34 = l.entry ∧ level = 2 - l.i ∧ s.cpu.memReadW pteAddr = l.pte := by
      simpa [found, specified] using hfound
    rw [hwalk, ← physAddr_eq_translate_iff (sv32Walk_ok hl), finishTranslate_some, hpte, hlevel]
    constructor
    · rintro ⟨paddr, s', hrun, haddr⟩
      obtain ⟨rfl, -⟩ := Prod.mk.inj (Option.some.inj hrun)
      exact haddr
    · exact fun haddr => ⟨_, _, rfl, haddr⟩
  constructor
  · exact fun h l hl => (haddress l hl).mp (h.address l hl)
  · exact fun h => ⟨hfollows, fun l hl => (haddress l hl).mpr (h l hl)⟩

/-- A table at `0x4000` whose first entry is a superpage at the given frame. -/
def superpageAt (pte : Word) : Sys :=
  let zero := Cpu.zero (Mem.writeW (fun _ => 0) 0x4000 pte)
  { cpu := { zero with csr := { zero.csr with satp := 0x80000004 } } }

theorem walkFollows_iff_superpage :
    deviceless.memSize ≤ 2 ^ 32 ∧
      (WalkFollows deviceless (superpageAt 0x00100003) 0x1234 .read ↔
        ∀ l, sv32Walk deviceless (superpageAt 0x00100003).cpu 0x1234 = .ok l → (Sv32.ppn l.pte).toNat < 2 ^ 20) :=
  ⟨by decide, walkFollows_iff (by decide) (superpageAt 0x00100003) 0x1234 .read⟩

/-- A superpage at 4 GiB: the specification gives the address 0x100001234, the code 0x1234. -/
theorem frame_above_4GiB :
    sv32Walk deviceless (superpageAt 0x40000003).cpu 0x1234 = .ok ⟨0x4000, 0x40000003, 1⟩ ∧
      Sv32.translate ⟨0x4000, 0x40000003, 1⟩ 0x1234 = 0x100001234 ∧
      (∀ raise, ∃ s', mmuTranslate deviceless raise 0x1234 .read (superpageAt 0x40000003) = some (0x1234, s')) ∧
      ¬ WalkFollows deviceless (superpageAt 0x40000003) 0x1234 .read := by
  have hwalk : sv32Walk deviceless (superpageAt 0x40000003).cpu 0x1234 = .ok ⟨0x4000, 0x40000003, 1⟩ := by decide
  have hgranted : Granted deviceless (superpageAt 0x40000003).cpu 0x1234 .read 0x4000 1 := ⟨by decide, by decide⟩
  refine ⟨hwalk, by decide, fun raise => ?_, fun h => ?_⟩
  · exact ⟨_, (mmuTranslate_miss (by decide) lookup_empty).trans (translateMiss_granted hgranted)⟩
  · obtain ⟨paddr, s', hrun, haddr⟩ := h.address _ hwalk
    rw [hgranted.1, finishTranslate_some] at hrun
    obtain ⟨rfl, -⟩ := Prod.mk.inj (Option.some.inj hrun)
    exact absurd haddr (by decide)

end Rv32emu
