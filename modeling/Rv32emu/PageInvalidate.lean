import Rv32emu.PageIndex
import Rv32emu.Tlb

/-!
# `cache_invalidate_va` with the page index and without

The comment of `cache_invalidate_va` says that a block lies in one page, so that the bucket of its start is enough.
`block_translate` ends a block at the instruction that reaches the end of the page, and a four-byte instruction may go
two bytes past it.

* `invalidateWhere_agree` : when two of the loops do the same;
* `JitCache.InvalidatesPage` : the two ways agree, and they find the blocks with code in the page;
* `JitCache.NothingMissed` : no block straddles into the page, and none that starts in it was put back by a failed
  `cache_put`;
* `invalidateVa_iff` : they are the same.
-/

namespace Rv32emu

open StateRel

namespace JitCache

variable {c : JitCache} {lost : List Ref} {hit hit' : CachedBlock → Bool} {rs rs' : List Ref}

/-! ## The blocks that are found -/

def Invalidates (c c' : JitCache) (r : Ref) : Prop :=
  ∃ b b', c.block r = some b ∧ b.invalidated = false ∧ c'.block r = some b' ∧ b'.invalidated = true

/-- A valid block of the cache that was translated under this `satp`. -/
structure Holds (c : JitCache) (satp : Word) (r : Ref) (b : CachedBlock) : Prop where
  alive : c.Alive r
  block : c.block r = some b
  satp_eq : b.satp = satp
  valid : b.invalidated = false

theorem invalidates_where (hhit : ∀ b, hit b = true → b.invalidated = false) (count : Word) (r : Ref) :
    Invalidates c (invalidateWhere hit rs count c).2 r ↔ r ∈ rs ∧ ∃ b, c.block r = some b ∧ hit b = true := by
  rw [invalidateWhere_eq]
  constructor
  · rintro ⟨b, b', hb, hvalid, hb', hinvalid⟩
    simp only [hb, Option.map_some] at hb'
    split_ifs at hb' with hmem
    · cases hb'
      refine ⟨hmem, b, hb, ?_⟩
      unfold mark at hinvalid
      split_ifs at hinvalid with hhits
      · exact hhits
      · rw [hvalid] at hinvalid
        cases hinvalid
    · cases hb'
      rw [hvalid] at hinvalid
      cases hinvalid
  · rintro ⟨hmem, b, hb, hhits⟩
    exact ⟨b, mark hit b, hb, hhit b hhits, by simp [hmem, hb], by simp [mark, hhits]⟩

/-- **Two loops that find the same blocks do the same.** -/
theorem invalidateWhere_agree (hrs : rs.Nodup) (hrs' : rs'.Nodup)
    (h : ∀ r b, c.block r = some b → (r ∈ rs ∧ hit b = true ↔ r ∈ rs' ∧ hit' b = true)) (count : Word) :
    invalidateWhere hit rs count c = invalidateWhere hit' rs' count c := by
  have hcount : (rs.countP fun r => (c.block r).any hit) = rs'.countP fun r => (c.block r).any hit' := by
    rw [List.countP_eq_length_filter, List.countP_eq_length_filter]
    refine ((List.perm_ext_iff_of_nodup (hrs.filter _) (hrs'.filter _)).mpr fun r => ?_).length_eq
    rw [List.mem_filter, List.mem_filter]
    cases hb : c.block r with
    | none => simp
    | some b => simpa [hb] using h r b hb
  refine Prod.ext ?_ ?_
  · rw [invalidateWhere_count hit hrs, invalidateWhere_count hit' hrs', hcount]
  · rw [invalidateWhere_eq, invalidateWhere_eq]
    congr 1
    funext r
    cases hb : c.block r with
    | none => simp
    | some b =>
      have hsame := h r b hb
      by_cases hfound : r ∈ rs ∧ hit b = true
      · obtain ⟨hmem, hhits⟩ := hfound
        obtain ⟨hmem', hhits'⟩ := hsame.mp ⟨hmem, hhits⟩
        simp [mark, hmem, hhits, hmem', hhits']
      · have hkeep : ∀ {l : List Ref} {f : CachedBlock → Bool}, ¬ (r ∈ l ∧ f b = true) →
            (if r ∈ l then (some b).map (mark f) else some b) = some b := by
          intro l f hnot
          split_ifs with hmem
          · rw [Option.map_some, mark, if_neg fun hf => hnot ⟨hmem, hf⟩]
          · rfl
        rw [hkeep hfound, hkeep fun hfound' => hfound (hsame.mpr hfound')]

namespace Indexed

theorem listed_value (h : c.Indexed lost) {p : EntryPtr} (hp : p ∈ c.cache.list) :
    (c.cache.entry p).map CacheEntry.value = c.cache.aliveValue p := by
  obtain ⟨e, he, halive⟩ := Option.map_eq_some_iff.mp ((h.wf.mem_list p).mp hp)
  rw [he, Option.map_some, eq_comm]
  exact Cache.aliveValue_eq_some.mpr ⟨e, he, halive, rfl⟩

theorem mem_listed (h : c.Indexed lost) (r : Ref) : r ∈ c.listed ↔ c.Alive r := by
  rw [listed, List.mem_filterMap]
  constructor
  · rintro ⟨p, hp, hvalue⟩
    exact ⟨p, (h.listed_value hp).symm.trans hvalue⟩
  · rintro ⟨p, hp⟩
    obtain ⟨e, he, halive, -⟩ := Cache.aliveValue_eq_some.mp hp
    have hmem := h.wf.alive_mem he halive
    exact ⟨p, hmem, (h.listed_value hmem).trans hp⟩

theorem listed_nodup (h : c.Indexed lost) : c.listed.Nodup := by
  refine List.pairwise_filterMap.mpr (h.wf.list_nodup.imp_of_mem fun {p q} hp hq hne r hr r' hr' heq => hne ?_)
  rw [h.listed_value hp] at hr
  rw [h.listed_value hq] at hr'
  exact h.one p q r hr (heq ▸ hr')

theorem scan_iff (h : c.Indexed lost) (va satp : Word) {r : Ref} {b : CachedBlock} (hb : c.block r = some b) :
    r ∈ c.listed ∧ scanHit va satp b = true ↔ c.Holds satp r b ∧
      (pageOf b.pcStart = pageOf va ∨ b.Straddles ∧ pageEnd b.pcStart = pageOf va ∧ pageEnd b.pcStart ≠ 0) := by
  rw [h.mem_listed, scanHit, decide_eq_true_iff]
  constructor
  · rintro ⟨halive, hsatp, hvalid, hrange⟩
    obtain ⟨b', hb', hfits⟩ := h.alive r halive
    rw [hb] at hb'
    cases hb'
    exact ⟨⟨halive, hb, hsatp, hvalid⟩, (hfits.scan_iff va).mp hrange⟩
  · rintro ⟨⟨halive, -, hsatp, hvalid⟩, hpages⟩
    obtain ⟨b', hb', hfits⟩ := h.alive r halive
    rw [hb] at hb'
    cases hb'
    exact ⟨halive, hsatp, hvalid, (hfits.scan_iff va).mpr hpages⟩

theorem index_iff (h : c.Indexed lost) (hcomplete : c.pageIndexIncomplete = false) (va satp : Word) {r : Ref}
    {b : CachedBlock} (hb : c.block r = some b) :
    r ∈ c.pageIndex (pageBucket va) ∧ indexHit va satp b = true ↔
      c.Holds satp r b ∧ r ∉ lost ∧ pageOf b.pcStart = pageOf va := by
  rw [indexHit, decide_eq_true_iff]
  constructor
  · rintro ⟨hmem, hsatp, hvalid, hpage⟩
    obtain ⟨⟨halive, hlost⟩, -⟩ := h.files.sound _ r hmem
    exact ⟨⟨halive, hb, hsatp, hvalid⟩, hlost, hpage⟩
  · rintro ⟨⟨halive, -, hsatp, hvalid⟩, hlost, hpage⟩
    have hmem := h.files.complete hcomplete r b ⟨halive, hlost⟩ hb
    have hbucket : pageBucket b.pcStart = pageBucket va := by rw [pageBucket, hpage, pageBucket]
    exact ⟨hbucket ▸ hmem, hsatp, hvalid, hpage⟩

end Indexed

/-! ## With the index and without -/

/-- `cache_invalidate_va` does the same with the page index and without, and invalidates the valid blocks of this
`satp` that have an instruction byte in the page of `va`. -/
structure InvalidatesPage (c : JitCache) (va satp : Word) : Prop where
  agree : c.cacheInvalidateVa true va satp = c.cacheInvalidateVa false va satp
  finds : ∀ r, Invalidates c (c.cacheInvalidateVa true va satp).2 r ↔ ∃ b, c.Holds satp r b ∧ b.HasByteIn va

/-- A block that straddles into the page is found by the scan only, and not there if it wraps around; a block that
starts in the page is found by the index if it was not lost. -/
def NothingMissed (c : JitCache) (lost : List Ref) (va satp : Word) : Prop :=
  ∀ r b, c.Holds satp r b →
    (b.Straddles → pageEnd b.pcStart = pageOf va → c.pageIndexIncomplete = true ∧ pageEnd b.pcStart ≠ 0) ∧
      (r ∈ lost → pageOf b.pcStart = pageOf va → c.pageIndexIncomplete = true)

theorem NothingMissed.congr {lost' : List Ref} {va satp : Word} (h : ∀ r, r ∈ lost' ↔ r ∈ lost) :
    c.NothingMissed lost' va satp ↔ c.NothingMissed lost va satp := by
  simp only [NothingMissed, h]

namespace Indexed

theorem scan_finds (h : c.Indexed lost) (va satp : Word) (r : Ref) :
    Invalidates c (invalidateWhere (scanHit va satp) c.listed 0 c).2 r ↔ ∃ b, c.Holds satp r b ∧
      (pageOf b.pcStart = pageOf va ∨ b.Straddles ∧ pageEnd b.pcStart = pageOf va ∧ pageEnd b.pcStart ≠ 0) := by
  rw [invalidates_where fun b hb => (of_decide_eq_true hb).2.1, ← exists_and_left]
  refine exists_congr fun b => ⟨?_, fun hb => ?_⟩
  · rintro ⟨hmem, hb, hhit⟩
    exact (h.scan_iff va satp hb).mp ⟨hmem, hhit⟩
  · obtain ⟨hmem, hhit⟩ := (h.scan_iff va satp hb.1.block).mpr hb
    exact ⟨hmem, hb.1.block, hhit⟩

theorem index_finds (h : c.Indexed lost) (hcomplete : c.pageIndexIncomplete = false) (va satp : Word) (r : Ref) :
    Invalidates c (invalidateWhere (indexHit va satp) (c.pageIndex (pageBucket va)) 0 c).2 r ↔
      ∃ b, c.Holds satp r b ∧ r ∉ lost ∧ pageOf b.pcStart = pageOf va := by
  rw [invalidates_where fun b hb => (of_decide_eq_true hb).2.1, ← exists_and_left]
  refine exists_congr fun b => ⟨?_, fun hb => ?_⟩
  · rintro ⟨hmem, hb, hhit⟩
    exact (h.index_iff hcomplete va satp hb).mp ⟨hmem, hhit⟩
  · obtain ⟨hmem, hhit⟩ := (h.index_iff hcomplete va satp hb.1.block).mpr hb
    exact ⟨hmem, hb.1.block, hhit⟩

theorem hasByteIn_iff (h : c.Indexed lost) {satp : Word} {r : Ref} {b : CachedBlock} (hb : c.Holds satp r b)
    (va : Word) : b.HasByteIn va ↔ pageOf b.pcStart = pageOf va ∨ b.Straddles ∧ pageEnd b.pcStart = pageOf va := by
  obtain ⟨b', hb', hfits⟩ := h.alive r hb.alive
  rw [hb.block] at hb'
  cases hb'
  exact hfits.hasByteIn_iff va

theorem not_both (b : CachedBlock) {va : Word} (hpage : pageOf b.pcStart = pageOf va) : pageEnd b.pcStart ≠ pageOf va :=
  fun hend => pageEnd_ne b.pcStart (hend.trans hpage.symm)

/-- Where the index is given up, the scan is what is compared. -/
theorem invalidatesPage_incomplete (h : c.Indexed lost) (hincomplete : c.pageIndexIncomplete = true) (va satp : Word) :
    c.InvalidatesPage va satp ↔ c.NothingMissed lost va satp := by
  have hscan : ∀ chaining, c.cacheInvalidateVa chaining va satp =
      invalidateWhere (scanHit va satp) c.listed 0 c := by
    intro chaining
    rw [cacheInvalidateVa, if_neg h.bounded.pos.ne', if_neg]
    rintro ⟨-, hfalse⟩
    rw [hincomplete] at hfalse
    cases hfalse
  constructor
  · rintro ⟨-, hfinds⟩ r b hb
    refine ⟨fun hstraddles hend => ⟨hincomplete, ?_⟩, fun _ _ => hincomplete⟩
    have hfound := (hfinds r).mpr ⟨b, hb, (h.hasByteIn_iff hb va).mpr (.inr ⟨hstraddles, hend⟩)⟩
    rw [hscan, h.scan_finds] at hfound
    obtain ⟨b', hb', hpages⟩ := hfound
    obtain rfl : b = b' := Option.some.inj (hb.block.symm.trans hb'.block)
    obtain hpage | ⟨-, -, hne⟩ := hpages
    · exact absurd hend (not_both b hpage)
    · exact hne
  · intro hmissed
    refine ⟨by rw [hscan, hscan], fun r => ?_⟩
    rw [hscan, h.scan_finds]
    refine exists_congr fun b => and_congr_right fun hb => ?_
    rw [h.hasByteIn_iff hb]
    refine or_congr_right ⟨fun hpages => ⟨hpages.1, hpages.2.1⟩, fun hpages => ⟨hpages.1, hpages.2, ?_⟩⟩
    exact ((hmissed r b hb).1 hpages.1 hpages.2).2

/-- Where it is complete, the index and the scan find the blocks that start in the page and are not lost. -/
theorem invalidatesPage_complete (h : c.Indexed lost) (hcomplete : c.pageIndexIncomplete = false) (va satp : Word) :
    c.InvalidatesPage va satp ↔ c.NothingMissed lost va satp := by
  have hindex : c.cacheInvalidateVa true va satp =
      invalidateWhere (indexHit va satp) (c.pageIndex (pageBucket va)) 0 c := by
    rw [cacheInvalidateVa, if_neg h.bounded.pos.ne', if_pos ⟨rfl, hcomplete⟩]
  have hscan : c.cacheInvalidateVa false va satp = invalidateWhere (scanHit va satp) c.listed 0 c := by
    rw [cacheInvalidateVa, if_neg h.bounded.pos.ne', if_neg fun hand => Bool.false_ne_true hand.1]
  constructor
  · rintro ⟨-, hfinds⟩ r b hb
    have hfound : b.HasByteIn va → r ∉ lost ∧ pageOf b.pcStart = pageOf va := by
      intro hbyte
      have hfound := (hfinds r).mpr ⟨b, hb, hbyte⟩
      rw [hindex, h.index_finds hcomplete] at hfound
      obtain ⟨b', hb', hlost, hpage⟩ := hfound
      obtain rfl : b = b' := Option.some.inj (hb.block.symm.trans hb'.block)
      exact ⟨hlost, hpage⟩
    rw [h.hasByteIn_iff hb] at hfound
    refine ⟨fun hstraddles hend => ?_, fun hlost hpage => absurd hlost (hfound (.inl hpage)).1⟩
    exact absurd hend (not_both b (hfound (.inr ⟨hstraddles, hend⟩)).2)
  · intro hmissed
    have hno : ∀ r b, c.Holds satp r b → (¬ (b.Straddles ∧ pageEnd b.pcStart = pageOf va)) ∧
        (pageOf b.pcStart = pageOf va → r ∉ lost) := by
      intro r b hb
      obtain ⟨hstraddles, hlost⟩ := hmissed r b hb
      rw [hcomplete] at hstraddles hlost
      exact ⟨fun hand => Bool.false_ne_true (hstraddles hand.1 hand.2).1,
        fun hpage hmem => Bool.false_ne_true (hlost hmem hpage)⟩
    refine ⟨?_, fun r => ?_⟩
    · rw [hindex, hscan]
      refine invalidateWhere_agree (h.files.nodup _) h.listed_nodup (fun r b hb => ?_) 0
      rw [h.index_iff hcomplete va satp hb, h.scan_iff va satp hb]
      refine and_congr_right fun hholds => ⟨fun hpage => .inl hpage.2, ?_⟩
      rintro (hpage | ⟨hstraddles, hend, -⟩)
      · exact ⟨(hno r b hholds).2 hpage, hpage⟩
      · exact absurd ⟨hstraddles, hend⟩ (hno r b hholds).1
    · rw [hindex, h.index_finds hcomplete]
      refine exists_congr fun b => and_congr_right fun hb => ?_
      rw [h.hasByteIn_iff hb, or_iff_left (hno r b hb).1]
      exact ⟨fun hpage => hpage.2, fun hpage => ⟨(hno r b hb).2 hpage, hpage⟩⟩

end Indexed

end JitCache

/-! ## Every run -/

/-- **The page index misses the blocks that straddle into the page and those that a failed `cache_put` has put back,
and nothing else.** -/
theorem invalidateVa_iff {env : SysEnv} (bits : Nat) {c₀ c : JitCache} (hc : jitCacheCreate bits = some c₀)
    (ops : List (JitOp env)) (hrun : jitRun ops c₀ = some c) (va satp : Word) :
    c.InvalidatesPage va satp ↔ c.NothingMissed (lostBlocks ops c₀) va satp := by
  obtain ⟨lost, hindexed, hlost⟩ := (JitCache.Indexed.create hc).run hrun
  rw [← JitCache.NothingMissed.congr (fun r => (hlost r).trans (or_iff_left List.not_mem_nil))]
  cases hincomplete : c.pageIndexIncomplete with
  | true => exact hindexed.invalidatesPage_incomplete hincomplete va satp
  | false => exact hindexed.invalidatesPage_complete hincomplete va satp

/-- A `SYSTEM` build with compressed instructions. -/
def withC : SysEnv := { deviceless with extC := true }

/-- A `nop` of four bytes, two bytes before the end of its page. -/
def atPageEnd (pc : Word) : Sys := { cpu := { Cpu.zero (Mem.writeW (fun _ => 0) (memOff pc) 0x13) with PC := pc } }

theorem atPageEnd_loop {pc : Word} (hend : pageEnd pc ≤ pc + 4) (n : Nat) :
    sysTranslateLoop withC (fun _ _ => failure) (pageEnd pc) (n + 1) pc (atPageEnd pc) =
      some (([{ opcode := .nop, pc }], pc + 4, .page), atPageEnd pc) := by
  have hword : (atPageEnd pc).cpu.ifetch pc = 0x13 := Mem.readW_writeW _ _ _
  have hdec : rvDecodeInto true withC.extC {} 0x13 = .ok { opcode := .nop } := by decide
  refine bind_eq_some.mpr ⟨0x13, atPageEnd pc, by rw [mmuIfetch_bare rfl, hword], ?_⟩
  have hlen : insnLen 0x13 = 4 := by decide
  rw [if_neg (by decide), hdec]
  simp only [hlen, if_pos hend]
  rfl

/-- `block_translate` stops after it. -/
def nopAt (pc : Word) (hend : pageEnd pc ≤ pc + 4) : BuiltBlock withC where
  decoding := ⟨pc, [{ opcode := .nop, pc }], pc + 4, true⟩
  built := ⟨fun _ _ => failure, 1, atPageEnd pc, atPageEnd pc,
    bind_eq_some.mpr ⟨_, _, rfl, bind_eq_some.mpr ⟨_, _, atPageEnd_loop hend 2047, rfl⟩⟩⟩
  irs_ne := List.cons_ne_nil _ _

def oneNop (pc : Word) (hend : pageEnd pc ≤ pc + 4) : List (JitOp withC) := [.put pc (nopAt pc hend) 0 true true]

def emptyOne : JitCache := { cache := { hash := cacheHash true 0, capacity := 1 } }

/-- A block that ends with its page. -/
theorem invalidateVa_iff_nop :
    ∃ c, jitRun (oneNop 0xffc (by decide)) emptyOne = some c ∧ (c.cacheInvalidateVa true 0 0).1 = 1 ∧
      c.InvalidatesPage 0 0 := by
  have hsome : (jitRun (oneNop 0xffc (by decide)) emptyOne).map (fun c => (c.cacheInvalidateVa true 0 0).1) =
      some 1 := by decide
  obtain ⟨c, hrun, hcount⟩ := Option.map_eq_some_iff.mp hsome
  refine ⟨c, hrun, hcount, (invalidateVa_iff 0 rfl _ hrun 0 0).mpr fun r b hb => ?_⟩
  have hblock : c.block = Function.update (fun _ => none) 0 (some ⟨0xffc, 0x1000, 0, false⟩) := by
    cases hrun
    rfl
  have hbr := hb.block
  rw [hblock] at hbr
  by_cases hr : r = 0
  · rw [hr, Function.update_self] at hbr
    cases hbr
    exact ⟨fun hstraddles => absurd hstraddles (by decide), fun hlost => absurd hlost (by rw [hr]; decide)⟩
  · rw [Function.update_of_ne hr] at hbr
    cases hbr

/-- **A block that straddles is missed**: a four-byte `nop` two bytes before the end of its page. -/
theorem straddling_block_missed :
    ∃ c, jitCacheCreate 0 = some emptyOne ∧ jitRun (oneNop 0xffe (by decide)) emptyOne = some c ∧
      (c.cacheInvalidateVa true 0x1000 0).1 = 0 ∧ (c.cacheInvalidateVa false 0x1000 0).1 = 1 ∧
      ¬ c.InvalidatesPage 0x1000 0 := by
  have hsome : (jitRun (oneNop 0xffe (by decide)) emptyOne).map
      (fun c => ((c.cacheInvalidateVa true 0x1000 0).1, (c.cacheInvalidateVa false 0x1000 0).1)) = some (0, 1) := by
    decide
  obtain ⟨c, hrun, hcounts⟩ := Option.map_eq_some_iff.mp hsome
  obtain ⟨hindex, hscan⟩ := Prod.mk.inj hcounts
  refine ⟨c, rfl, hrun, hindex, hscan, fun h => ?_⟩
  rw [h.agree, hscan] at hindex
  cases hindex

/-- A block is put into the cache, and then one for which there is no memory. -/
def failedPut : List (JitOp withC) :=
  [.put 0xffc (nopAt 0xffc (by decide)) 0 true true, .put 0x1ffc (nopAt 0x1ffc (by decide)) 0 false true]

/-- **A block that a failed `cache_put` has put back is missed.** -/
theorem restored_block_missed :
    ∃ c, jitRun failedPut emptyOne = some c ∧ lostBlocks failedPut emptyOne = [0] ∧
      (c.cacheInvalidateVa true 0 0).1 = 0 ∧ (c.cacheInvalidateVa false 0 0).1 = 1 := by
  have hsome : (jitRun failedPut emptyOne).map
      (fun c => ((c.cacheInvalidateVa true 0 0).1, (c.cacheInvalidateVa false 0 0).1)) = some (0, 1) := by decide
  obtain ⟨c, hrun, hcounts⟩ := Option.map_eq_some_iff.mp hsome
  obtain ⟨hindex, hscan⟩ := Prod.mk.inj hcounts
  exact ⟨c, hrun, by decide, hindex, hscan⟩

end Rv32emu
