import Rv32emu.T2cAgree

/-!
# Publishing and finding tier-2 code

`jit_cache_update`, `jit_cache_clear` and `jit_cache_clear_page` of `t2c.c`, against the code that
`t2c_jit_cache_helper` emits.

* `JitCacheOp`, `jitCacheRun` : the operations on the table;
* `lastOn` : the last operation that writes a slot;
* `CodeTab.Filed` : a key stands in the slot `jit_cache_update` uses for it, and no writer is at work;
* `lookup`, `run_indirect` : what the code of an indirect jump does, in both kinds of builds;
* `jitCachePos_eq_iff` : the two ways to compute the index agree if bits 12 to 23 of the target are zero;
* `published_found_iff` : only then published code is found.
-/

namespace Rv32emu

open Llvm

/-! ## The table -/

/-- `struct jit_cache *`, by index. -/
abbrev CodeTab := BitVec 64 → CodeSlot

def nJitCacheEntries : Word := 0x1000

/-- `RV_PG_SIZE - 1`. -/
def pageOffsetMask : Word := 0xfff

/-- The stores of a writer, under the sequence number it has loaded. -/
def CodeSlot.write (c : CodeSlot) (key : BitVec 64) (entry : Option Word) : CodeSlot :=
  let seq := c.seq
  let c := { c with seq := seq + 1 }
  let c := { c with entry }
  let c := { c with key }
  { c with seq := seq + 2 }

/-- `(uint32_t) key` -/
def keyPc (key : BitVec 64) : Word := key.setWidth 32

/-- `(uint32_t) (key >> 32)` -/
def keySatp (key : BitVec 64) : Word := (key >>> 32).setWidth 32

def jitCachePos (key : BitVec 64) : BitVec 64 :=
  ((keyPc key ^^^ keySatp key) &&& (nJitCacheEntries - 1)).setWidth 64

def jitCacheUpdate (cache : CodeTab) (key : BitVec 64) (entry : Option Word) : CodeTab :=
  Function.update cache (jitCachePos key) ((cache (jitCachePos key)).write key entry)

/-- The loops visit every slot once, and a step of them writes only the slot it visits. -/
def jitCacheClearWhere (hit : BitVec 64 → Bool) (cache : CodeTab) : CodeTab := fun i =>
  if i.toNat < nJitCacheEntries.toNat ∧ hit (cache i).key = true then (cache i).write 0 none else cache i

def jitCacheClear (cache : CodeTab) : CodeTab := jitCacheClearWhere (fun _ => true) cache

/-- The keys that `jit_cache_clear_page` removes. -/
def keyInPage (va satp : Word) (key : BitVec 64) : Bool :=
  key ≠ 0 ∧ keySatp key = satp ∧ keyPc key &&& ~~~pageOffsetMask = va &&& ~~~pageOffsetMask

def jitCacheClearPage (cache : CodeTab) (va satp : Word) : CodeTab :=
  jitCacheClearWhere (keyInPage va satp) cache

/-- `jit_cache_init`: the memory comes from `calloc`. -/
def jitCacheInit : CodeTab := fun _ => {}

inductive JitCacheOp
  | update (key : BitVec 64) (entry : Option Word)
  | clear
  | clearPage (va satp : Word)

namespace JitCacheOp

def exec (cache : CodeTab) : JitCacheOp → CodeTab
  | .update key entry => jitCacheUpdate cache key entry
  | .clear => jitCacheClear cache
  | .clearPage va satp => jitCacheClearPage cache va satp

/-- The operation writes the slot `i`. -/
def writes (cache : CodeTab) (i : BitVec 64) : JitCacheOp → Bool
  | .update key _ => i = jitCachePos key
  | .clear => i.toNat < nJitCacheEntries.toNat
  | .clearPage va satp => i.toNat < nJitCacheEntries.toNat ∧ keyInPage va satp (cache i).key = true

end JitCacheOp

def jitCacheRun : List JitCacheOp → CodeTab → CodeTab
  | [], cache => cache
  | op :: ops, cache => jitCacheRun ops (op.exec cache)

/-- The last operation that writes the slot `i`; `last` is the one before the run. -/
def lastOn (i : BitVec 64) : List JitCacheOp → CodeTab → Option JitCacheOp → Option JitCacheOp
  | [], _, last => last
  | op :: ops, cache, last => lastOn i ops (op.exec cache) (if op.writes cache i = true then some op else last)

/-- The key of a block: in a `SYSTEM` build `satp` stands above the address. -/
def blockKey (system : Bool) (pc satp : Word) : BitVec 64 :=
  if system then pc.setWidth 64 ||| satp.setWidth 64 <<< 32 else pc.setWidth 64

/-! ## What a slot holds -/

section Slots

variable {cache : CodeTab} {i : BitVec 64}

theorem JitCacheOp.exec_of_not_writes {op : JitCacheOp} (h : op.writes cache i = false) :
    op.exec cache i = cache i := by
  cases op with
  | update key entry => exact Function.update_of_ne (of_decide_eq_false h) _ _
  | clear =>
    have hlt : ¬ i.toNat < nJitCacheEntries.toNat := of_decide_eq_false h
    exact if_neg fun hi => hlt hi.1
  | clearPage va satp => exact if_neg (of_decide_eq_false h)

theorem jitCacheUpdate_self (cache : CodeTab) (key : BitVec 64) (entry : Option Word) :
    jitCacheUpdate cache key entry (jitCachePos key) =
      { seq := (cache (jitCachePos key)).seq + 2, key, entry } :=
  Function.update_self ..

/-- A key stands in the slot `jit_cache_update` uses for it, and the sequence number is even. -/
structure CodeTab.Filed (cache : CodeTab) : Prop where
  pos : ∀ i, (cache i).key ≠ 0 → i = jitCachePos (cache i).key
  even : ∀ i, (cache i).seq.toNat % 2 = 0

theorem filed_init : CodeTab.Filed jitCacheInit := ⟨fun _ h => absurd rfl h, fun _ => rfl⟩

theorem even_add_two {seq : Word} (h : seq.toNat % 2 = 0) : (seq + 2).toNat % 2 = 0 := by
  rw [BitVec.toNat_add]
  change (seq.toNat + 2) % 2 ^ 32 % 2 = 0
  omega

theorem CodeTab.Filed.clearWhere (h : cache.Filed) (hit : BitVec 64 → Bool) : (jitCacheClearWhere hit cache).Filed := by
  refine ⟨fun i hi => ?_, fun i => ?_⟩
  all_goals
    unfold jitCacheClearWhere at *
    split_ifs at * with hhit
  · exact absurd rfl hi
  · exact h.pos i hi
  · exact even_add_two (h.even i)
  · exact h.even i

theorem CodeTab.Filed.exec (h : cache.Filed) : ∀ op : JitCacheOp, (op.exec cache).Filed
  | .clear => h.clearWhere fun _ => true
  | .clearPage va satp => h.clearWhere (keyInPage va satp)
  | .update key entry => by
    change (jitCacheUpdate cache key entry).Filed
    refine ⟨fun i hi => ?_, fun i => ?_⟩
    all_goals by_cases hpos : i = jitCachePos key
    · rw [hpos, jitCacheUpdate_self]
    · rw [jitCacheUpdate, Function.update_of_ne hpos] at hi ⊢
      exact h.pos i hi
    · rw [hpos, jitCacheUpdate_self]
      exact even_add_two (h.even _)
    · rw [jitCacheUpdate, Function.update_of_ne hpos]
      exact h.even i

/-- The last operation on the slot, if it is an update, has left its key and its entry there. -/
def LeftBy (last : Option JitCacheOp) (c : CodeSlot) : Prop :=
  ∀ key entry, last = some (.update key entry) → c.key = key ∧ c.entry = entry

theorem leftBy_none (c : CodeSlot) : LeftBy none c := fun _ _ h => nomatch h

theorem LeftBy.exec {last : Option JitCacheOp} (h : LeftBy last (cache i)) (op : JitCacheOp) :
    LeftBy (if op.writes cache i = true then some op else last) (op.exec cache i) := by
  intro key entry hlast
  by_cases hw : op.writes cache i = true
  · rw [if_pos hw, Option.some.injEq] at hlast
    subst hlast
    have hi : i = jitCachePos key := of_decide_eq_true hw
    change (jitCacheUpdate cache key entry i).key = key ∧ (jitCacheUpdate cache key entry i).entry = entry
    rw [hi, jitCacheUpdate_self]
    exact ⟨rfl, rfl⟩
  · rw [if_neg hw] at hlast
    rw [JitCacheOp.exec_of_not_writes (Bool.eq_false_iff.mpr hw)]
    exact h key entry hlast

theorem jitCacheRun_slot (ops : List JitCacheOp) (i : BitVec 64) {cache : CodeTab} {last : Option JitCacheOp}
    (hfiled : cache.Filed) (hleft : LeftBy last (cache i)) :
    (jitCacheRun ops cache).Filed ∧ LeftBy (lastOn i ops cache last) (jitCacheRun ops cache i) := by
  induction ops generalizing cache last with
  | nil => exact ⟨hfiled, hleft⟩
  | cons op ops ih => exact ih (hfiled.exec op) (hleft.exec op)

end Slots

/-! ## What the code of an indirect jump does -/

def lookupKey (system : Bool) (addr satp : Word) : BitVec 64 :=
  if system then addr.setWidth 64 + satp.setWidth 64 <<< 32 else addr.setWidth 64

/-- The index of an element of a code table, under the mask of the table. -/
def lookupIndex (system : Bool) (addr satp mask : Word) : BitVec 64 :=
  ((if system then addr ^^^ (addr >>> 12) ^^^ satp else addr ^^^ (addr >>> 12)) &&& mask).setWidth 64

section Run

variable (env : Env) (mb : BitVec 64)

/-- The inline cache, the seqlock of `jit_cache`, and a return to the interpreter. -/
def lookup (system : Bool) (addr : Word) (s : T2cState) : Option (Exit Word × T2cState) :=
  let satp := s.cpu.csr.satp
  let key := lookupKey system addr satp
  let i := lookupIndex system addr satp 0x3ff
  let ic := s.tables .inlineCache i
  let jc := s.tables .jitCache (lookupIndex system addr satp 0xfff)
  let fallback := some (.ret, (s.setPC addr).flush)
  if truth (bit (ic.key == key) &&& bit (isCode (codePtr ic.entry))) then enterCode env (codePtr ic.entry) s
  else if truth (bit (jc.seq &&& 1 == 0)) then
    if truth (bit (jc.key == key)) then
      if truth (bit (jc.seq == jc.seq) &&& bit (isCode (codePtr jc.entry))) then
        (fillInlineCache mb i key (codePtr jc.entry) s).bind (enterCode env (codePtr jc.entry))
      else fallback
    else fallback
  else fallback

variable (chk : Word → Bool) (r : Regs HostPtr) (s : T2cState) (ir : Insn)

/-! In a `SYSTEM` build the three handlers differ from those of a user-mode build in the key and the index. -/

theorem exec_cjr_sys :
    ∃ f, t2cOp (t2cCjr ⟨true, mb, chk⟩ ir) {} = some ({}, f) ∧
      f.exec (t2cHost env mb) r s = lookup env mb true (s.cpu.X ir.rs1) s.tick := by
  refine ⟨_, rfl, ?_⟩
  dsimp only [lookup]
  refine ite_congr rfl (fun _ => rfl) fun _ => ite_congr rfl (fun _ => ?_) fun _ => rfl
  exact ite_congr rfl (fun _ => ite_congr rfl (fun _ => rfl) fun _ => rfl) fun _ => rfl

theorem exec_cjalr_sys :
    ∃ f, t2cOp (t2cCjalr ⟨true, mb, chk⟩ ir) {} = some ({}, f) ∧
      f.exec (t2cHost env mb) r s = lookup env mb true (s.cpu.X ir.rs1) (s.tick.setX regRa (ir.pc + 2)) := by
  refine ⟨_, rfl, ?_⟩
  dsimp only [lookup]
  refine ite_congr rfl (fun _ => rfl) fun _ => ite_congr rfl (fun _ => ?_) fun _ => rfl
  exact ite_congr rfl (fun _ => ite_congr rfl (fun _ => rfl) fun _ => rfl) fun _ => rfl

/-- `jalr` without the test of `rd`. -/
theorem exec_jalr_link_sys (link : T2cBuild Unit) {s' : T2cState}
    (h : link = pure () ∧ s' = s.tick ∨
      link = (do storeImm32 0 (ir.pc + 4) (← genAddr 0 (.X ir.rd))) ∧ s' = s.tick.setX ir.rd (ir.pc + 4)) :
    ∃ f, t2cOp (do
        let val ← loadVmreg 0 32 ir.rs1
        let val ← buildBin 0 .add val (constInt ir.imm)
        let val ← buildBin 0 .and val (constInt (~~~(1 : Word)))
        link
        t2cJitCacheHelper ⟨true, mb, chk⟩ val) {} = some ({}, f) ∧
      f.exec (t2cHost env mb) r s = lookup env mb true ((s.cpu.X ir.rs1 + ir.imm) &&& ~~~1) s' := by
  rcases h with ⟨rfl, rfl⟩ | ⟨rfl, rfl⟩
  all_goals
    refine ⟨_, rfl, ?_⟩
    dsimp only [lookup]
    refine ite_congr rfl (fun _ => rfl) fun _ => ite_congr rfl (fun _ => ?_) fun _ => rfl
    exact ite_congr rfl (fun _ => ite_congr rfl (fun _ => rfl) fun _ => rfl) fun _ => rfl

theorem exec_jalr_sys :
    ∃ f, t2cOp (t2cJalr ⟨true, mb, chk⟩ ir) {} = some ({}, f) ∧
      f.exec (t2cHost env mb) r s = lookup env mb true ((s.cpu.X ir.rs1 + ir.imm) &&& ~~~1)
        (if ir.rd = 0 then s.tick else s.tick.setX ir.rd (ir.pc + 4)) := by
  refine exec_jalr_link_sys env mb chk r s ir (storeLink ir.rd (ir.pc + 4)) ?_
  unfold storeLink
  by_cases hrd : ir.rd = 0
  · exact .inl ⟨if_pos hrd, if_pos hrd⟩
  · exact .inr ⟨if_neg hrd, if_neg hrd⟩

end Run

def Insn.IsIndirect (ir : Insn) : Prop := ir.opcode = .jalr ∨ ir.opcode = .cjr ∨ ir.opcode = .cjalr

def Insn.indirectTarget (ir : Insn) (s : Cpu) : Word :=
  if ir.opcode = .jalr then (s.X ir.rs1 + ir.imm) &&& ~~~1 else s.X ir.rs1

def t2cIndirect (cfg : T2cEnv) (ir : Insn) : T2cBuild Handed :=
  match ir.opcode with
  | .cjr => t2cCjr cfg ir
  | .cjalr => t2cCjalr cfg ir
  | _ => t2cJalr cfg ir

theorem t2c_indirect (cfg : T2cEnv) (lk : T2cLinks) {ir : Insn} (h : ir.IsIndirect) :
    t2c cfg lk ir = t2cOp (t2cIndirect cfg ir) := by
  unfold t2c t2cCode t2cIndirect
  rcases h with h | h | h <;> rw [h]

/-- The state in which an indirect jump is looked up. -/
def Insn.linked (ir : Insn) (s : T2cState) : T2cState :=
  match ir.opcode with
  | .cjr => s.tick
  | .cjalr => s.tick.setX regRa (ir.pc + 2)
  | _ => if ir.rd = 0 then s.tick else s.tick.setX ir.rd (ir.pc + 4)

theorem exec_indirect (env : Env) (system : Bool) (mb : BitVec 64) (chk : Word → Bool) (r : Regs HostPtr)
    (s : T2cState) {ir : Insn} (h : ir.IsIndirect) :
    ∃ f, t2cOp (t2cIndirect ⟨system, mb, chk⟩ ir) {} = some ({}, f) ∧
      f.exec (t2cHost env mb) r s = lookup env mb system (ir.indirectTarget s.cpu) (ir.linked s) := by
  unfold t2cIndirect Insn.indirectTarget Insn.linked
  rcases h with h | h | h
  all_goals
    rw [h]
    cases system
  · exact exec_jalr mb chk
  · exact exec_jalr_sys env mb chk r s ir
  · exact exec_cjr env r s mb chk ir
  · exact exec_cjr_sys env mb chk r s ir
  · exact exec_cjalr env r s mb chk ir
  · exact exec_cjalr_sys env mb chk r s ir

theorem linked_tables (ir : Insn) (s : T2cState) : (ir.linked s).tables = s.tables := by
  unfold Insn.linked
  split
  · rfl
  · rfl
  · split <;> rfl

theorem linked_satp (ir : Insn) (s : T2cState) : (ir.linked s).cpu.csr.satp = s.cpu.csr.satp := by
  unfold Insn.linked
  split
  · rfl
  · rfl
  · split <;> rfl

/-- The code of an indirect jump looks its target up. -/
theorem run_indirect (env : Env) (cfg : T2cEnv) (r : Regs HostPtr) (s : T2cState) (lk : T2cLinks) {ir : Insn}
    (h : ir.IsIndirect) :
    t2cRun env cfg (t2c cfg lk ir) r s =
      (lookup env cfg.memBase cfg.system (ir.indirectTarget s.cpu) (ir.linked s)).map fun y => ({}, y) := by
  obtain ⟨system, mb, chk⟩ := cfg
  obtain ⟨f, hf, hexec⟩ := exec_indirect env system mb chk r s h
  unfold t2cRun
  rw [t2c_indirect _ lk h, hf, Option.bind_some, hexec]

/-! ## Keys and indices -/

theorem lookupKey_eq (system : Bool) (pc satp : Word) : lookupKey system pc satp = blockKey system pc satp := by
  unfold lookupKey blockKey
  split
  · apply BitVec.add_eq_or_of_and_eq_zero
    apply BitVec.eq_of_getLsbD_eq
    intro i hi
    simp only [BitVec.getLsbD_and, BitVec.getLsbD_setWidth, BitVec.getLsbD_shiftLeft, BitVec.getLsbD_zero]
    by_cases h32 : i < 32
    · simp [h32]
    · simp [pc.getLsbD_of_ge i (by omega)]
  · rfl

theorem keyPc_blockKey (system : Bool) (pc satp : Word) : keyPc (blockKey system pc satp) = pc := by
  unfold keyPc blockKey
  split
  all_goals
    apply BitVec.eq_of_getLsbD_eq
    intro i hi
    simp [hi]

theorem keySatp_blockKey (system : Bool) (pc satp : Word) :
    keySatp (blockKey system pc satp) = if system then satp else 0 := by
  unfold keySatp blockKey
  split
  all_goals
    apply BitVec.eq_of_getLsbD_eq
    intro i hi
    have hlow : i < 64 := by omega
    have hhigh : 32 + i < 64 := by omega
    simp [hi, hlow, hhigh]

/-- The index in terms of the address that is mixed with `satp`. -/
theorem lookupIndex_eq (system : Bool) (pc satp mask : Word) :
    lookupIndex system pc satp mask =
      (((pc ^^^ if system then satp else 0) ^^^ (pc >>> 12)) &&& mask).setWidth 64 := by
  unfold lookupIndex
  cases system
  · simp
  · simp only [if_true]
    rw [BitVec.xor_assoc, BitVec.xor_comm (pc >>> 12), ← BitVec.xor_assoc]

theorem and_xor_eq_iff (x h m : Word) : (x ^^^ h) &&& m = x &&& m ↔ h &&& m = 0 := by
  have hsplit : (x ^^^ h) &&& m = (x &&& m) ^^^ (h &&& m) := by
    apply BitVec.eq_of_getLsbD_eq
    intro i hi
    simp only [BitVec.getLsbD_and, BitVec.getLsbD_xor]
    cases x.getLsbD i <;> cases h.getLsbD i <;> cases m.getLsbD i <;> rfl
  have hself : x &&& m = (x &&& m) ^^^ 0 := BitVec.xor_zero.symm
  rw [hsplit]
  nth_rewrite 2 [hself]
  exact BitVec.xor_right_inj _

/-- The bits of the target that only the emitted code mixes into the index. -/
def Word.mixed (pc : Word) : Word := (pc >>> 12) &&& 0xfff

/-- **The two indices.** They agree exactly if bits 12 to 23 of the target are zero. -/
theorem jitCachePos_eq_iff (system : Bool) (pc satp : Word) :
    lookupIndex system pc satp 0xfff = jitCachePos (blockKey system pc satp) ↔ pc.mixed = 0 := by
  rw [lookupIndex_eq, jitCachePos, keyPc_blockKey, keySatp_blockKey]
  constructor
  · intro h
    exact (and_xor_eq_iff _ _ _).mp (setWidth_64_inj h)
  · intro h
    exact congrArg (BitVec.setWidth 64) ((and_xor_eq_iff _ _ _).mpr h)

/-! ## Published code -/

/-- The inline cache has an entry for the target. -/
def T2cState.InlineHit (system : Bool) (target : Word) (s : T2cState) : Prop :=
  let c := s.tables .inlineCache (lookupIndex system target s.cpu.csr.satp 0x3ff)
  c.key = lookupKey system target s.cpu.csr.satp ∧ c.entry ≠ none

theorem isCode_iff (o : Option Word) : isCode (codePtr o) = true ↔ o ≠ none := by
  cases o with
  | none => exact iff_of_false (fun h => by cases h) fun h => h rfl
  | some pc => exact iff_of_true rfl fun h => by cases h

section Slow

variable (env : Env) (mb : BitVec 64) {system : Bool} {target : Word} {s : T2cState}

/-- The seqlock protocol finds an entry in the slot. -/
def CodeSlot.Serves (c : CodeSlot) (key : BitVec 64) (entry : Word) : Prop :=
  c.seq &&& 1 = 0 ∧ c.key = key ∧ c.entry = some entry

/-- Behind a miss of the inline cache the code of the slot is entered. -/
theorem lookup_serves (hmiss : ¬ s.InlineHit system target) {entry : Word}
    (h : (s.tables .jitCache (lookupIndex system target s.cpu.csr.satp 0xfff)).Serves
      (lookupKey system target s.cpu.csr.satp) entry) :
    ∃ s', lookup env mb system target s = some (.left entry, s') := by
  obtain ⟨heven, hkey, hentry⟩ := h
  dsimp only [T2cState.InlineHit] at hmiss
  unfold lookup
  simp only [truth_bit_and, truth_bit, Bool.and_eq_true, beq_iff_eq, isCode_iff]
  rw [if_neg hmiss, if_pos heven, if_pos hkey, hentry, if_pos ⟨trivial, Option.some_ne_none _⟩]
  exact ⟨_, rfl⟩

/-- Otherwise the interpreter goes on at the target. -/
theorem lookup_falls_back (hmiss : ¬ s.InlineHit system target)
    (h : ∀ entry, ¬ (s.tables .jitCache (lookupIndex system target s.cpu.csr.satp 0xfff)).Serves
      (lookupKey system target s.cpu.csr.satp) entry) :
    lookup env mb system target s = some (.ret, (s.setPC target).flush) := by
  dsimp only [T2cState.InlineHit] at hmiss
  unfold lookup
  simp only [truth_bit_and, truth_bit, Bool.and_eq_true, beq_iff_eq, isCode_iff]
  rw [if_neg hmiss]
  split_ifs with heven hkey hentry
  · obtain ⟨entry, he⟩ := Option.ne_none_iff_exists'.mp hentry.2
    exact absurd ⟨heven, hkey, he⟩ (h entry)
  all_goals rfl

end Slow

theorem inlineHit_linked {system : Bool} {target : Word} {ir : Insn} {s : T2cState} :
    (ir.linked s).InlineHit system target ↔ s.InlineHit system target := by
  unfold T2cState.InlineHit
  rw [linked_tables, linked_satp]

/-- `published_found_iff` without the run: the slot of the key holds what was published. -/
theorem CodeTab.Filed.serves_iff {cache : CodeTab} (hfiled : cache.Filed) {system : Bool} {target satp entry : Word}
    (hkey : (cache (jitCachePos (blockKey system target satp))).key = blockKey system target satp)
    (hentry : (cache (jitCachePos (blockKey system target satp))).entry = some entry) (e : Word) :
    (cache (lookupIndex system target satp 0xfff)).Serves (lookupKey system target satp) e ↔
      target.mixed = 0 ∧ e = entry := by
  have heven : ∀ w : Word, w.toNat % 2 = 0 → w &&& 1 = 0 := by
    intro w hw
    apply BitVec.eq_of_toNat_eq
    rw [BitVec.toNat_and]
    exact (Nat.and_one_is_mod w.toNat).trans hw
  rw [lookupKey_eq]
  constructor
  · rintro ⟨-, hk, he⟩
    by_cases hzero : blockKey system target satp = 0
    · -- the key 0 belongs to the address 0, where both indices are 0
      have hpc := keyPc_blockKey system target satp
      rw [hzero] at hpc
      have hmixed : target.mixed = 0 := by
        rw [← hpc]
        rfl
      rw [(jitCachePos_eq_iff ..).mpr hmixed, hentry, Option.some.injEq] at he
      exact ⟨hmixed, he.symm⟩
    · have hpos := hfiled.pos (lookupIndex system target satp 0xfff) (by rwa [hk])
      rw [hk] at hpos
      rw [hpos, hentry, Option.some.injEq] at he
      exact ⟨(jitCachePos_eq_iff ..).mp hpos, he.symm⟩
  · rintro ⟨hmixed, rfl⟩
    rw [(jitCachePos_eq_iff ..).mpr hmixed]
    exact ⟨heven _ (hfiled.even _), hkey, hentry⟩

/-- **Published code is found only if bits 12 to 23 of its address are zero.** The last operation on the slot of
the target has published `entry`, and the inline cache does not know the target. Elsewhere the code goes back to
the interpreter. -/
theorem published_found_iff (env : Env) (cfg : T2cEnv) (lk : T2cLinks) (r : Regs HostPtr) {ir : Insn}
    (hind : ir.IsIndirect) (ops : List JitCacheOp) (s : T2cState)
    (htable : s.tables .jitCache = jitCacheRun ops jitCacheInit) {entry : Word}
    (hlast : lastOn (jitCachePos (blockKey cfg.system (ir.indirectTarget s.cpu) s.cpu.csr.satp)) ops jitCacheInit none =
      some (.update (blockKey cfg.system (ir.indirectTarget s.cpu) s.cpu.csr.satp) (some entry)))
    (hmiss : ¬ s.InlineHit cfg.system (ir.indirectTarget s.cpu)) :
    ((lookupIndex cfg.system (ir.indirectTarget s.cpu) s.cpu.csr.satp 0xfff =
          jitCachePos (blockKey cfg.system (ir.indirectTarget s.cpu) s.cpu.csr.satp) ∧
        ∃ s', t2cRun env cfg (t2c cfg lk ir) r s = some ({}, .left entry, s')) ↔
      (ir.indirectTarget s.cpu).mixed = 0) ∧
    ((ir.indirectTarget s.cpu).mixed ≠ 0 →
      ∃ s', t2cRun env cfg (t2c cfg lk ir) r s = some ({}, .ret, s') ∧ s'.cpu.PC = ir.indirectTarget s.cpu) := by
  obtain ⟨hfiled, hleft⟩ := jitCacheRun_slot ops (jitCachePos (blockKey cfg.system (ir.indirectTarget s.cpu)
    s.cpu.csr.satp)) filed_init (leftBy_none _)
  obtain ⟨hkey, hentry⟩ := hleft _ _ hlast
  have hserves := hfiled.serves_iff hkey hentry
  have hmiss' : ¬ (ir.linked s).InlineHit cfg.system (ir.indirectTarget s.cpu) := mt inlineHit_linked.mp hmiss
  rw [← htable, ← linked_tables ir, ← linked_satp ir] at hserves
  rw [run_indirect env cfg r s lk hind, jitCachePos_eq_iff]
  refine ⟨⟨And.left, fun hmixed => ⟨hmixed, ?_⟩⟩, fun hmixed => ?_⟩
  · obtain ⟨s', hs'⟩ := lookup_serves env cfg.memBase hmiss' ((hserves entry).mpr ⟨hmixed, rfl⟩)
    rw [hs']
    exact ⟨s', rfl⟩
  · rw [lookup_falls_back env cfg.memBase hmiss' fun e he => hmixed ((hserves e).mp he).1]
    exact ⟨_, rfl, rfl⟩

/-- The block at `target` is published in a user-mode build. -/
def publishTarget (target : Word) : List JitCacheOp := [.update (blockKey false target 0) (some target)]

/-- All registers hold `target`, whose block is published. -/
def publishedAt (target : Word) : T2cState where
  cpu := { Cpu.zero (fun _ => 0) with X := fun _ => target }
  insnCounter := 0
  tables
    | .jitCache => jitCacheRun (publishTarget target) jitCacheInit
    | .inlineCache => fun _ => {}

/-- `c.jr ra` in a user-mode build. -/
def jumpRa : Insn := { opcode := .cjr, rs1 := 1 }

def userCfg : T2cEnv := ⟨false, 0, fun _ => false⟩

theorem lastOn_publishTarget (target : Word) :
    lastOn (jitCachePos (blockKey false target 0)) (publishTarget target) jitCacheInit none =
      some (.update (blockKey false target 0) (some target)) :=
  if_pos (decide_eq_true rfl)

theorem jumpRa_target (target : Word) : jumpRa.indirectTarget (publishedAt target).cpu = target := rfl

theorem publishedAt_satp (target : Word) : (publishedAt target).cpu.csr.satp = 0 := rfl

theorem publishedAt_miss (target : Word) : ¬ (publishedAt target).InlineHit false target := fun h => h.2 rfl

theorem published_found_low :
    Word.mixed 0x44 = 0 ∧ ∀ r, ∃ s',
      t2cRun (Env.bare true) userCfg (t2c userCfg {} jumpRa) r (publishedAt 0x44) = some ({}, .left 0x44, s') := by
  refine ⟨rfl, fun r => ?_⟩
  refine ((published_found_iff (Env.bare true) userCfg {} r (.inr (.inl rfl)) (publishTarget 0x44) (publishedAt 0x44)
    rfl ?_ ?_).1.mpr ?_).2
  all_goals rw [jumpRa_target]
  · rw [publishedAt_satp]
    exact lastOn_publishTarget 0x44
  · exact publishedAt_miss 0x44
  · rfl

/-- The block at `0x1000` is published in slot 0; its callers look for it in slot 1. -/
theorem published_lost :
    lastOn (jitCachePos (blockKey false 0x1000 0)) (publishTarget 0x1000) jitCacheInit none =
        some (.update (blockKey false 0x1000 0) (some 0x1000)) ∧
      ¬ (publishedAt 0x1000).InlineHit false 0x1000 ∧
      jitCachePos (blockKey false 0x1000 0) = 0 ∧ lookupIndex false 0x1000 0 0xfff = 1 ∧
      ∀ r s', t2cRun (Env.bare true) userCfg (t2c userCfg {} jumpRa) r (publishedAt 0x1000) ≠
        some ({}, .left 0x1000, s') := by
  refine ⟨lastOn_publishTarget 0x1000, publishedAt_miss 0x1000, rfl, rfl, fun r s' h => ?_⟩
  have hback := lookup_falls_back (Env.bare true) 0 (mt inlineHit_linked.mp (publishedAt_miss 0x1000))
    (s := jumpRa.linked (publishedAt 0x1000)) (by rintro e ⟨-, -, ⟨⟩⟩)
  rw [run_indirect _ _ _ _ _ (.inr (.inl rfl)), jumpRa_target] at h
  change (lookup (Env.bare true) 0 false 0x1000 (jumpRa.linked (publishedAt 0x1000))).map _ = _ at h
  rw [hback] at h
  cases h

end Rv32emu
