import Rv32emu.Tlb

/-!
# Dirty bits through the TLB

While the guest leaves its page tables alone, only the MMU writes to them, and it sets bits.

* `PtesKept` : two memories in which every walk ends at the same leaf entry with the same value;
* `PteStep`, `PteReach` : accesses, changes of context that leave the page tables alone, flushes;
* `DirtyExact` : the entries of the dTLB against the accessed and dirty bits in memory;
  `PteReach.dirtyExact`;
* `Translated` : a call of `mmu_translate` that comes to an address by a hit or a walk; `dirty_exact`.
-/

open StateRel

namespace Rv32emu

/-! ## What the guest does -/

def PtesKept (env : SysEnv) (s t : Cpu) : Prop :=
  ∀ vaddr, mmuWalk env t vaddr = mmuWalk env s vaddr ∧
    ∀ pteAddr level, mmuWalk env s vaddr = some (pteAddr, level) → t.memReadW pteAddr = s.memReadW pteAddr

/-- The word is an entry of a table that walks read. -/
inductive IsPte (env : SysEnv) (s : Cpu) : Word → Prop
  | root {root : Word} (hroot : pageTable env (s.csr.satp &&& 0x3fffff) = some root) (i : Word) :
    IsPte env s (root + ((4 : Nat) : Word) * i)
  | next {root ppn table : Word} (hroot : pageTable env (s.csr.satp &&& 0x3fffff) = some root) (i : Word)
      (hstep : walkStep 1 (s.memReadW (root + ((4 : Nat) : Word) * i)) = .table ppn)
      (htable : pageTable env ppn = some table) (j : Word) : IsPte env s (table + ((4 : Nat) : Word) * j)

section Kept

variable {env : SysEnv} {s t : Cpu}

theorem PtesKept.refl (env : SysEnv) (s : Cpu) : PtesKept env s s := fun _ => ⟨rfl, fun _ _ _ => rfl⟩

theorem PtesKept.tablesKept (h : PtesKept env s t) : TablesKept env s t := by
  intro vaddr
  refine ⟨(h vaddr).1, fun pteAddr level hwalk => ?_⟩
  rw [(h vaddr).2 pteAddr level hwalk]
  rfl

/-- A guest that writes to no entry keeps the page tables. -/
theorem ptesKept_of_isPte (hsatp : t.csr.satp = s.csr.satp)
    (hwords : ∀ a, IsPte env s a → t.memReadW a = s.memReadW a) : PtesKept env s t := by
  intro vaddr
  unfold mmuWalk
  rw [hsatp]
  cases hroot : pageTable env (s.csr.satp &&& 0x3fffff) with
  | none => exact ⟨rfl, fun _ _ h => nomatch h⟩
  | some root =>
    have hpte1 := hwords _ (.root hroot (vaddr >>> 22 &&& 0x3ff))
    simp only [Option.bind_eq_bind, Option.bind_some, hpte1]
    cases hstep : walkStep 1 (s.memReadW (root + ((4 : Nat) : Word) * (vaddr >>> 22 &&& 0x3ff))) with
    | leaf => exact ⟨rfl, fun _ _ h => by cases h; exact hpte1⟩
    | null => exact ⟨rfl, fun _ _ h => nomatch h⟩
    | table ppn =>
      cases hnext : pageTable env ppn with
      | none =>
        simp only [hnext, Option.bind_none]
        exact ⟨trivial, fun _ _ h => nomatch h⟩
      | some next =>
        have hpte2 := hwords _ (.next hroot _ hstep hnext (vaddr >>> 12 &&& 0x3ff))
        simp only [hnext, Option.bind_some, hpte2]
        refine ⟨trivial, fun pteAddr level h => ?_⟩
        split at h
        · cases h
          exact hpte2
        · cases h
        · cases h

end Kept

/-- One operation on the memory system. A page fault runs the guest's handler, whose operations come
next, and then the walk is made again. -/
inductive PteStep (env : SysEnv) : Sys → Sys → Prop
  /-- A load or store that raises no fault. -/
  | translate {s s' : Sys} {vaddr paddr : Word} {access : Access}
      (h : ∀ raise, mmuTranslate env raise vaddr access s = some (paddr, s')) : PteStep env s s'
  /-- A fetch that raises no fault. -/
  | ifetch {s s' : Sys} {vaddr insn : Word} (h : ∀ raise, mmuIfetch env raise vaddr s = some (insn, s')) :
      PteStep env s s'
  /-- The second walk of a load or store finds an entry. -/
  | retry {s : Sys} {vaddr pteAddr : Word} {access : Access} {level : Nat}
      (h : Granted env s.cpu vaddr access pteAddr level) : PteStep env s (s.fillDtlb vaddr access pteAddr level)
  /-- The second walk of a fetch finds an entry. -/
  | refetch {s : Sys} {vaddr pteAddr : Word} {level : Nat}
      (h : Granted env s.cpu vaddr .fetch pteAddr level) : PteStep env s (s.fillItlb vaddr pteAddr level)
  /-- The privilege mode, `sstatus`, any register, flag or memory cell changes; the page tables do not. -/
  | context {s s' : Sys} (hdtlb : s'.dtlb = s.dtlb) (hitlb : s'.itlb = s.itlb)
      (hkept : PtesKept env s.cpu s'.cpu) : PteStep env s s'
  /-- A CSR instruction writes `satp`. -/
  | satp {s : Sys} (ir : Insn) (hcsr : csrGetPtr ir.imm = some .satp) (v : Word) :
      PteStep env s
        (csrSideEffects ir s.cpu.csr.satp { s with cpu := { s.cpu with csr := { s.cpu.csr with satp := v } } })
  /-- `SFENCE.VMA`. -/
  | sfence {s : Sys} (ir : Insn) :
      PteStep env s (if ir.rs1 = 0 then s.tlbFlushAll else s.tlbFlush (s.cpu.X ir.rs1))

def PteReach (env : SysEnv) : Sys → Sys → Prop := Relation.ReflTransGen (PteStep env)

/-- These operations are some of those under which the TLBs are coherent. -/
theorem PteStep.mmuStep {env : SysEnv} {s s' : Sys} (h : PteStep env s s') : MmuStep env s s' := by
  cases h with
  | translate h => exact .translate h
  | ifetch h => exact .ifetch h
  | retry h => exact .retry h
  | refetch h => exact .refetch h
  | context hdtlb hitlb hkept => exact .context hdtlb hitlb hkept.tablesKept
  | satp ir hcsr v => exact .satp ir hcsr v
  | sfence ir => exact .sfence ir

theorem covers_pteReach (env : SysEnv) : Covers env (PteReach env) where
  refl _ := .refl
  trans := .trans
  flags hcpu hdtlb hitlb := by
    refine .single (.context hdtlb hitlb ?_)
    rw [hcpu]
    exact .refl env _
  hit hsatp hlook := .single (.translate fun _ => mmuTranslate_hit hsatp hlook)
  fill hg := .single (.retry hg)
  refill hg := .single (.refetch hg)

/-! ## The invariant -/

def IsLeaf (env : SysEnv) (s : Cpu) (pteAddr : Word) : Prop :=
  ∃ vaddr level, mmuWalk env s vaddr = some (pteAddr, level)

/-- The entries of the dTLB against the bits in memory. An entry that `SFENCE.VMA` has made invalid keeps
its dirty flag. -/
structure EntriesExact (env : SysEnv) (s : Cpu) (t : Tlb) : Prop where
  accessed : ∀ i, (t i).valid = true → IsLeaf env s (t i).pteAddr ∧ Pte.Has (s.memReadW (t i).pteAddr) Pte.A
  dirty : ∀ i, (t i).dirty = true → IsLeaf env s (t i).pteAddr ∧ Pte.Has (s.memReadW (t i).pteAddr) Pte.D

section Invariant

variable {env : SysEnv} {s s' : Sys}

theorem has_or_left {p q bit : Word} (h : Pte.Has p bit) : Pte.Has (p ||| q) bit := by
  unfold Pte.Has at *
  rw [BitVec.and_or_distrib_right]
  exact fun hz => h (BitVec.or_eq_zero_iff.mp hz).1

theorem has_or_right {p q bit : Word} (h : Pte.Has q bit) : Pte.Has (p ||| q) bit := by
  rw [BitVec.or_comm]
  exact has_or_left h

/-- Setting bits of one entry clears none of another. -/
theorem has_orPte {s : Cpu} {a b bits bit : Word} (ha : Aligned4 a) (hb : Aligned4 b) (h : Pte.Has (s.memReadW b) bit) :
    Pte.Has ((s.orPte a bits).memReadW b) bit := by
  by_cases hab : b = a
  · rw [hab, orPte_self, ← hab]
    exact has_or_left h
  · rw [orPte_of_ne s bits ha hb hab]
    exact h

theorem IsLeaf.aligned {s : Cpu} {a : Word} (h : IsLeaf env s a) : Aligned4 a := by
  obtain ⟨vaddr, level, hwalk⟩ := h
  exact aligned4_walk hwalk

theorem IsLeaf.kept {s t : Cpu} {a : Word} (h : IsLeaf env s a) (hkept : TablesKept env s t) : IsLeaf env t a := by
  obtain ⟨vaddr, level, hwalk⟩ := h
  exact ⟨vaddr, level, (hkept vaddr).1.trans hwalk⟩

namespace EntriesExact

variable {s t : Cpu} {tlb : Tlb}

theorem empty (env : SysEnv) (s : Cpu) : EntriesExact env s fun _ => {} where
  accessed _ h := nomatch h
  dirty _ h := nomatch h

theorem orPte (h : EntriesExact env s tlb) {a : Word} (ha : IsLeaf env s a) (bits : Word)
    (hbits : bits &&& ~~~(0xc0 : Word) = 0) : EntriesExact env (s.orPte a bits) tlb := by
  have hkept := tablesKept_orPte env s ha.aligned hbits
  constructor
  · intro i hi
    obtain ⟨hleaf, hhas⟩ := h.accessed i hi
    exact ⟨hleaf.kept hkept, has_orPte ha.aligned hleaf.aligned hhas⟩
  · intro i hi
    obtain ⟨hleaf, hhas⟩ := h.dirty i hi
    exact ⟨hleaf.kept hkept, has_orPte ha.aligned hleaf.aligned hhas⟩

theorem kept (h : EntriesExact env s tlb) (hkept : PtesKept env s t) : EntriesExact env t tlb := by
  have hword : ∀ a, IsLeaf env s a → t.memReadW a = s.memReadW a := by
    rintro a ⟨vaddr, level, hwalk⟩
    exact (hkept vaddr).2 a level hwalk
  constructor
  · intro i hi
    obtain ⟨hleaf, hhas⟩ := h.accessed i hi
    rw [hword _ hleaf]
    exact ⟨hleaf.kept hkept.tablesKept, hhas⟩
  · intro i hi
    obtain ⟨hleaf, hhas⟩ := h.dirty i hi
    rw [hword _ hleaf]
    exact ⟨hleaf.kept hkept.tablesKept, hhas⟩

theorem update (h : EntriesExact env s tlb) (i : BitVec 6) {e : TlbEntry}
    (hvalid : e.valid = true → IsLeaf env s e.pteAddr ∧ Pte.Has (s.memReadW e.pteAddr) Pte.A)
    (hdirty : e.dirty = true → IsLeaf env s e.pteAddr ∧ Pte.Has (s.memReadW e.pteAddr) Pte.D) :
    EntriesExact env s (Function.update tlb i e) := by
  constructor
  · intro j hj
    by_cases hji : j = i
    · rw [hji, Function.update_self] at hj ⊢
      exact hvalid hj
    · rw [Function.update_of_ne hji] at hj ⊢
      exact h.accessed j hj
  · intro j hj
    by_cases hji : j = i
    · rw [hji, Function.update_self] at hj ⊢
      exact hdirty hj
    · rw [Function.update_of_ne hji] at hj ⊢
      exact h.dirty j hj

theorem flush (h : EntriesExact env s tlb) (vaddr : Word) : EntriesExact env s (tlb.flush vaddr) := by
  unfold Tlb.flush
  simp only
  split_ifs
  · exact h.update _ (fun hv => nomatch hv) (h.dirty _)
  · exact h

end EntriesExact

theorem EntriesExact.hitDtlb (h : EntriesExact env s.cpu s.dtlb) {vaddr : Word} {access : Access} {e : TlbEntry}
    (he : s.dtlb.lookup vaddr access = some e) :
    EntriesExact env (s.hitDtlb vaddr access e).cpu (s.hitDtlb vaddr access e).dtlb := by
  obtain ⟨rfl, hvalid, -, -⟩ := lookup_some he
  obtain ⟨hleaf, -⟩ := h.accessed _ hvalid
  unfold Sys.hitDtlb
  split_ifs
  · have hset := h.orPte hleaf Pte.D (by decide)
    refine hset.update _ (hset.accessed _) fun _ => ?_
    refine ⟨hleaf.kept (tablesKept_orPte env s.cpu hleaf.aligned (by decide)), ?_⟩
    rw [orPte_self]
    exact has_or_right (by decide)
  · exact h

theorem usedBits_has_A (access : Access) : Pte.Has access.usedBits Pte.A := by
  cases access <;> decide

theorem usedBits_low (access : Access) : access.usedBits &&& ~~~(0xc0 : Word) = 0 := by
  cases access <;> decide

theorem EntriesExact.fillDtlb (h : EntriesExact env s.cpu s.dtlb) {vaddr pteAddr : Word} {access : Access}
    {level : Nat} (hg : Granted env s.cpu vaddr access pteAddr level) :
    EntriesExact env (s.fillDtlb vaddr access pteAddr level).cpu (s.fillDtlb vaddr access pteAddr level).dtlb := by
  have hleaf : IsLeaf env s.cpu pteAddr := ⟨vaddr, level, hg.1⟩
  have hleaf' := hleaf.kept (tablesKept_orPte env s.cpu hleaf.aligned (usedBits_low access))
  refine (h.orPte hleaf access.usedBits (usedBits_low access)).update _ (fun _ => ⟨hleaf', ?_⟩)
    fun hdirty => ⟨hleaf', ?_⟩
  · change Pte.Has ((s.cpu.orPte pteAddr access.usedBits).memReadW pteAddr) Pte.A
    rw [orPte_self]
    exact has_or_right (usedBits_has_A access)
  · exact of_decide_eq_true hdirty

theorem EntriesExact.fillItlb (h : EntriesExact env s.cpu s.dtlb) {vaddr pteAddr : Word} {level : Nat}
    (hg : Granted env s.cpu vaddr .fetch pteAddr level) :
    EntriesExact env (s.fillItlb vaddr pteAddr level).cpu (s.fillItlb vaddr pteAddr level).dtlb :=
  h.orPte ⟨vaddr, level, hg.1⟩ Pte.A (by decide)

/-- A write to `satp` flushes the TLBs unless it writes the old value. -/
theorem csrSideEffects_cases {ir : Insn} (hcsr : csrGetPtr ir.imm = some .satp) (old : Word) (t : Sys) :
    (csrSideEffects ir old t).cpu = t.cpu ∧
      ((csrSideEffects ir old t).dtlb = (fun _ => {}) ∨
        (csrSideEffects ir old t).dtlb = t.dtlb ∧ t.cpu.csr.satp = old) := by
  unfold csrSideEffects
  rw [if_pos hcsr]
  by_cases hsatp : t.cpu.csr.satp = old
  · simp only [hsatp, ne_eq, not_true_eq_false, if_false]
    split_ifs
    · exact ⟨rfl, .inr ⟨rfl, trivial⟩⟩
    · exact ⟨rfl, .inr ⟨rfl, trivial⟩⟩
  · simp only [hsatp, ne_eq, not_false_eq_true, if_true]
    split_ifs
    · exact ⟨rfl, .inl rfl⟩
    · exact ⟨rfl, .inl rfl⟩

/-- **Every operation keeps the invariant.** -/
theorem PteStep.entriesExact (hstep : PteStep env s s') (h : EntriesExact env s.cpu s.dtlb) :
    EntriesExact env s'.cpu s'.dtlb := by
  cases hstep with
  | translate hrun =>
    obtain rfl | ⟨e, hlook, rfl⟩ | ⟨pteAddr, level, hg, rfl⟩ := translate_cases hrun
    · exact h
    · exact h.hitDtlb hlook
    · exact h.fillDtlb hg
  | ifetch hrun =>
    obtain rfl | ⟨pteAddr, level, hg, rfl⟩ := ifetch_cases hrun
    · exact h
    · exact h.fillItlb hg
  | retry hg => exact h.fillDtlb hg
  | refetch hg => exact h.fillItlb hg
  | context hdtlb hitlb hkept =>
    rw [hdtlb]
    exact h.kept hkept
  | satp ir hcsr v =>
    obtain ⟨hcpu, hdtlb | ⟨hdtlb, hsame⟩⟩ := csrSideEffects_cases hcsr s.cpu.csr.satp
      { s with cpu := { s.cpu with csr := { s.cpu.csr with satp := v } } }
    · rw [hdtlb]
      exact .empty env _
    · obtain rfl : v = s.cpu.csr.satp := hsame
      rw [hcpu, hdtlb]
      exact h
  | sfence ir =>
    split_ifs
    · exact .empty env _
    · exact h.flush _

theorem PteReach.mmuReach (h : PteReach env s s') : MmuReach env s s' := by
  induction h with
  | refl => exact .refl
  | tail _ hstep ih => exact .tail ih hstep.mmuStep

theorem PteReach.entriesExact (hrun : PteReach env s s') (h : EntriesExact env s.cpu s.dtlb) :
    EntriesExact env s'.cpu s'.dtlb := by
  induction hrun with
  | refl => exact h
  | tail _ hstep ih => exact hstep.entriesExact ih

end Invariant

/-! ## Stores -/

/-- A call of `mmu_translate` that comes to an address: by a hit of the dTLB, or by an entry that one of its
two walks has found. The others return 0 and have the instruction given up. -/
def Translated (env : SysEnv) (raise : Raise) (vaddr : Word) (access : Access) (s : Sys) (paddr : Word) (s' : Sys) :
    Prop :=
  s.cpu.csr.satp ≠ 0 ∧ mmuTranslate env raise vaddr access s = some (paddr, s') ∧
    ((s.dtlb.lookup vaddr access).isSome ∨
      ∃ leaf s1, translateWalk env raise vaddr access s = some (some leaf, s1))

/-- The leaf entry of the page has been marked as written to. -/
def LeafMarked (env : SysEnv) (s : Cpu) (vaddr : Word) : Prop :=
  ∃ pteAddr level, mmuWalk env s vaddr = some (pteAddr, level) ∧
    Pte.Has (s.memReadW pteAddr) Pte.A ∧ Pte.Has (s.memReadW pteAddr) Pte.D

section Store

variable {env : SysEnv} {raise : Raise} {s s' : Sys} {vaddr paddr : Word}

/-- A hit sets `D`; `A` has been set when the entry was filled. -/
theorem EntriesExact.hit_marks (h : EntriesExact env s.cpu s.dtlb) (hc : Coherent env s) {e : TlbEntry}
    (he : s.dtlb.lookup vaddr .write = some e) : LeafMarked env (s.hitDtlb vaddr .write e).cpu vaddr := by
  obtain ⟨rfl, hvalid, hvpn, -⟩ := lookup_some he
  obtain ⟨hleaf, haccessed⟩ := h.accessed _ hvalid
  have hwalk := (hc.dtlb _ hvalid vaddr hvpn).1
  unfold Sys.hitDtlb
  by_cases hclean : Access.write = .write ∧ !(s.dtlb (Tlb.index vaddr)).dirty
  · rw [if_pos hclean]
    have hkept : TablesKept env s.cpu (s.cpu.orPte _ Pte.D) := tablesKept_orPte env s.cpu hleaf.aligned (by decide)
    refine ⟨_, _, (hkept vaddr).1.trans hwalk, ?_, ?_⟩
    · exact has_orPte hleaf.aligned hleaf.aligned haccessed
    · change Pte.Has ((s.cpu.orPte _ Pte.D).memReadW _) Pte.D
      rw [orPte_self]
      exact has_or_right (by decide)
  · rw [if_neg hclean]
    have hdirty : (s.dtlb (Tlb.index vaddr)).dirty = true := by simpa using hclean
    exact ⟨_, _, hwalk, haccessed, (h.dirty _ hdirty).2⟩

theorem fill_marks {pteAddr : Word} {level : Nat} (hg : Granted env s.cpu vaddr .write pteAddr level) :
    LeafMarked env (s.fillDtlb vaddr .write pteAddr level).cpu vaddr := by
  have hkept := tablesKept_orPte env s.cpu (aligned4_walk hg.1) (usedBits_low .write)
  refine ⟨pteAddr, level, (hkept vaddr).1.trans hg.1, ?_, ?_⟩
  · change Pte.Has ((s.cpu.orPte pteAddr _).memReadW pteAddr) Pte.A
    rw [orPte_self]
    exact has_or_right (by decide)
  · change Pte.Has ((s.cpu.orPte pteAddr _).memReadW pteAddr) Pte.D
    rw [orPte_self]
    exact has_or_right (by decide)

/-- **A store that comes to an address has marked its leaf entry.** -/
theorem Translated.marks (h : Translated env raise vaddr .write s paddr s')
    (hraise : ∀ cause tval, Within (PteReach env) (raise cause tval)) (he : EntriesExact env s.cpu s.dtlb)
    (hc : Coherent env s) : LeafMarked env s'.cpu vaddr := by
  obtain ⟨hsatp, hrun, hway⟩ := h
  cases hlook : s.dtlb.lookup vaddr .write with
  | some e =>
    rw [mmuTranslate_hit hsatp hlook] at hrun
    cases hrun
    exact he.hit_marks hc hlook
  | none =>
    rw [hlook] at hway
    obtain hsome | ⟨⟨pteAddr, level⟩, s1, hwalk⟩ := hway
    · cases hsome
    · rw [mmuTranslate_miss hsatp hlook] at hrun
      obtain ⟨walk, s2, hwalk', hfinish⟩ := bind_eq_some.mp hrun
      rw [hwalk] at hwalk'
      cases hwalk'
      obtain ⟨-, hleaf⟩ := (covers_pteReach env).translateWalk hraise hwalk
      cases hfinish
      exact fill_marks (hleaf pteAddr level rfl)

end Store

/-- **Dirty tracking.** From empty TLBs, whatever the guest does short of writing to its page tables: the dirty
flags of the dTLB are those of leaf entries with `D` set, and a store that comes to an address leaves `A` and
`D` set in the leaf entry of its page. Calls are runs, with the handlers of their page faults. -/
theorem dirty_exact {env : SysEnv} {s₀ s : Sys} (hempty : s₀.tlbFlushAll = s₀) (hrun : PteReach env s₀ s) :
    (∀ i, (s.dtlb i).dirty = true →
      IsLeaf env s.cpu (s.dtlb i).pteAddr ∧ Pte.Has (s.cpu.memReadW (s.dtlb i).pteAddr) Pte.D) ∧
    ∀ raise, (∀ cause tval, Within (PteReach env) (raise cause tval)) →
      (∀ vaddr access, Within (PteReach env) (mmuTranslate env raise vaddr access)) ∧
      (∀ vaddr, Within (PteReach env) (mmuIfetch env raise vaddr)) ∧
      ∀ vaddr paddr s', Translated env raise vaddr .write s paddr s' → LeafMarked env s'.cpu vaddr := by
  have hcoherent : Coherent env s := by
    refine hrun.mmuReach.coherent ?_
    rw [← hempty]
    exact coherent_flushed env s₀
  have hexact : EntriesExact env s.cpu s.dtlb := by
    refine hrun.entriesExact ?_
    rw [← hempty]
    exact .empty env _
  refine ⟨hexact.dirty, fun raise hraise => ⟨?_, ?_, fun vaddr paddr s' h => h.marks hraise hexact hcoherent⟩⟩
  · exact (covers_pteReach env).mmuTranslate hraise
  · exact (covers_pteReach env).mmuIfetch hraise

/-- U-mode, under a table at `0x4000` that lets the user write to the first 4 MiB. -/
def writablePage : Sys :=
  let zero := Cpu.zero (Mem.writeW (fun _ => 0) 0x4000 0x17)
  { cpu := { zero with privMode := 0, csr := { zero.csr with satp := 0x80000004 } } }

/-- A load from the first page and a store to the second. -/
def writtenPage : Sys := (writablePage.fillDtlb 0x100 .read 0x4000 1).fillDtlb 0x1100 .write 0x4000 1

theorem writtenPage_reached : PteReach deviceless writablePage writtenPage := by
  have hread : Granted deviceless writablePage.cpu 0x100 .read 0x4000 1 := ⟨by decide, by decide⟩
  have hwrite : Granted deviceless (writablePage.fillDtlb 0x100 .read 0x4000 1).cpu 0x1100 .write 0x4000 1 :=
    ⟨by decide, by decide⟩
  exact .tail (.single (.retry hread)) (.retry hwrite)

theorem writtenPage_translated : Translated deviceless raiseNone 0x1104 .write writtenPage 0x1104 writtenPage := by
  have hlook : writtenPage.dtlb.lookup 0x1104 .write = some (writtenPage.dtlb 1) := by decide
  have hsatp : writtenPage.cpu.csr.satp ≠ 0 := by decide
  refine ⟨hsatp, (mmuTranslate_hit hsatp hlook).trans ?_, .inl (by rw [hlook]; rfl)⟩
  rfl

theorem dirty_exact_writtenPage :
    writablePage.tlbFlushAll = writablePage ∧ PteReach deviceless writablePage writtenPage ∧
      Pte.Has (writtenPage.cpu.memReadW (writtenPage.dtlb 1).pteAddr) Pte.D ∧
      LeafMarked deviceless writtenPage.cpu 0x1104 := by
  obtain ⟨hflags, hcalls⟩ := dirty_exact rfl writtenPage_reached
  have hraise : ∀ cause tval, Within (PteReach deviceless) (raiseNone cause tval) := fun _ _ => .failure
  exact ⟨rfl, writtenPage_reached, (hflags 1 (by decide)).2,
    (hcalls raiseNone hraise).2.2 0x1104 0x1104 writtenPage writtenPage_translated⟩

end Rv32emu
