import Rv32emu.Probe
import Rv32emu.SysEngine

/-!
# The hash table behind the block map

The engines look blocks up in a function from addresses to blocks. Here is the table that stands for
it: 1024 slots that are probed in order from the hash of the address, and the L1 cache in front with
its split arrays of tags and pointers. The loops have no bound of their own; `none` is a loop that has
not ended within `fuel` rounds.

* `BlockTable`, `blockFind`, `blockLookupOrFind`, `blockInsert`, `blockMapClear` : the table as the
  source has it;
* `MapOp`, `Tracked`, `execAll` : runs of these operations, with the blocks inserted since the last
  clear;
* `Tracked.Wf` : what holds after every run; with it all loops end;
* `Tracked.Consistent` : what holds as long as no block is inserted for an address that has one;
* `Realizes`, `Performs` : the table does what the engines' function does.
-/

namespace Rv32emu

/-! ## The table -/

/-- A pointer to a block, with the `pc_start` found there. -/
structure BlockPtr where
  ref : Ref
  pcStart : Word
  deriving DecidableEq, Repr

def mapHash (val : Word) : Word := ((val * 0x61c88647) >>> 22) &&& 0x3ff

/-- `block_map_t` and `block_l1_cache_t`. -/
structure BlockTable where
  map : BitVec 10 → Option BlockPtr := fun _ => none
  size : Nat := 0
  tags : BitVec 8 → Word := fun _ => 0xffffffff
  ptrs : BitVec 8 → Option BlockPtr := fun _ => none

namespace BlockTable

/-- `index & mask`. -/
def slot (index : Word) : BitVec 10 := index.setWidth 10

/-- `index++`. -/
def next (index : Word) : Word := index + 1

def blockFind (fuel : Nat) (t : BlockTable) (addr : Word) : Option (Option BlockPtr) :=
  Probe.findLoop slot next t.map (fun b => b.pcStart = addr) fuel (mapHash addr)

/-- `block_l1_update`, and the refill of `block_lookup_or_find`. -/
def l1Fill (extC : Bool) (t : BlockTable) (pc : Word) (b : BlockPtr) : BlockTable :=
  { t with tags := Function.update t.tags (l1Index extC pc) pc
           ptrs := Function.update t.ptrs (l1Index extC pc) (some b) }

def blockLookupOrFind (fuel : Nat) (extC : Bool) (t : BlockTable) (pc : Word) :
    Option (Option BlockPtr × BlockTable) :=
  if t.tags (l1Index extC pc) = pc then some (t.ptrs (l1Index extC pc), t)
  else do
    let block ← t.blockFind fuel pc
    match block with
    | some b => return (some b, t.l1Fill extC pc b)
    | none => return (none, t)

def blockInsert (fuel : Nat) (extC : Bool) (t : BlockTable) (b : BlockPtr) : Option BlockTable := do
  let i ← Probe.freeLoop slot next t.map fuel (mapHash b.pcStart)
  return { t with map := Function.update t.map i (some b), size := t.size + 1 }.l1Fill extC b.pcStart b

def blockMapClear (_ : BlockTable) : BlockTable := {}

end BlockTable

/-! ## Runs -/

inductive MapOp
  /-- `block_lookup_or_find`. -/
  | lookup (pc : Word)
  /-- `block_find`. -/
  | find (pc : Word)
  /-- `block_map_clear`. -/
  | clear
  /-- `block_insert` of a new block. -/
  | insert (pcStart : Word)
  deriving DecidableEq, Repr

/-- A table, the blocks inserted since it was last cleared, and the name the next block gets. -/
structure Tracked where
  table : BlockTable := {}
  live : List BlockPtr := []
  fresh : Ref := 0

def MapOp.exec (fuel : Nat) (extC : Bool) (t : Tracked) : MapOp → Option Tracked
  | .lookup pc => do
    let r ← t.table.blockLookupOrFind fuel extC pc
    return { t with table := r.2 }
  | .find pc => do
    let _ ← t.table.blockFind fuel pc
    return t
  | .clear => some { t with table := t.table.blockMapClear, live := [] }
  | .insert pc => do
    let table ← t.table.blockInsert fuel extC ⟨t.fresh, pc⟩
    return { table, live := ⟨t.fresh, pc⟩ :: t.live, fresh := t.fresh + 1 }

/-- The operations of a list, one after the other. -/
def execAll (fuel : Nat) (extC : Bool) : List MapOp → Tracked → Option Tracked
  | [], t => some t
  | op :: ops, t => do
    let t ← op.exec fuel extC t
    execAll fuel extC ops t

theorem execAll_append (fuel : Nat) (extC : Bool) (ops ops' : List MapOp) (t : Tracked) :
    execAll fuel extC (ops ++ ops') t = (execAll fuel extC ops t).bind (execAll fuel extC ops') := by
  induction ops generalizing t with
  | nil => rfl
  | cons op ops ih =>
    simp only [List.cons_append, execAll, Option.bind_eq_bind, Option.bind_assoc, ih]

/-- The block map behaves as a finite map: both lookups of an address return the one block inserted for
it since the last clear. -/
def Tracked.Agrees (fuel : Nat) (extC : Bool) (t : Tracked) : Prop :=
  ∀ pc, ∃ r t', t.table.blockLookupOrFind fuel extC pc = some (r, t') ∧
    t.table.blockFind fuel pc = some r ∧ ∀ b, r = some b ↔ b ∈ t.live ∧ b.pcStart = pc

/-! ## What holds after every run -/

structure Tracked.Wf (t : Tracked) : Prop where
  stored : Probe.Stored mapHash BlockPtr.pcStart BlockTable.slot BlockTable.next t.table.map
  size_eq : Probe.occupied t.table.map = t.table.size
  size_le : t.table.size ≤ 820
  live : ∀ b, b ∈ t.live ↔ ∃ i, t.table.map i = some b

/-- The load test that precedes every insertion. -/
def MapOp.Allowed (t : Tracked) : MapOp → Prop
  | .insert _ => mapFull t.table.size = false
  | _ => True

theorem wf_empty (fresh : Ref) : Tracked.Wf { fresh } where
  stored := Probe.stored_empty
  size_eq := Probe.occupied_empty
  size_le := Nat.zero_le _
  live b := by simp

theorem next_iterate (i : Nat) (index : Word) : BlockTable.next^[i] index = index + BitVec.ofNat 32 i := by
  induction i with
  | zero => simp
  | succ i ih =>
    rw [Function.iterate_succ_apply', ih, BlockTable.next, BitVec.add_assoc, BitVec.ofNat_add]
    rfl

theorem exists_slot (index : Word) (x : BitVec 10) :
    ∃ i < 1024, BlockTable.slot (BlockTable.next^[i] index) = x := by
  refine ⟨(x - BlockTable.slot index).toNat, (x - BlockTable.slot index).isLt, ?_⟩
  rw [next_iterate]
  apply BitVec.eq_of_toNat_eq
  simp only [BlockTable.slot, BitVec.toNat_setWidth, BitVec.toNat_add, BitVec.toNat_ofNat,
    BitVec.toNat_sub]
  have hx := x.isLt
  omega

namespace Tracked.Wf

variable {t : Tracked} {fuel : Nat}

theorem exists_free (h : t.Wf) (hfuel : 1024 ≤ fuel) (index : Word) :
    ∃ i < fuel, t.table.map (BlockTable.slot (BlockTable.next^[i] index)) = none := by
  have hcard : Probe.occupied t.table.map < Fintype.card (BitVec 10) := by
    have hsize := h.size_le
    rw [h.size_eq]
    rw [← FinEnum.card_eq_fintypeCard, FinEnum.card_bitVec]
    omega
  obtain ⟨x, hx⟩ := Probe.exists_free hcard
  obtain ⟨i, hi, hslot⟩ := exists_slot index x
  exact ⟨i, by omega, by rw [hslot, hx]⟩

/-- **The probe loop of `block_find` ends.** -/
theorem blockFind_ends (h : t.Wf) (hfuel : 1024 ≤ fuel) (pc : Word) :
    ∃ r, t.table.blockFind fuel pc = some r :=
  Probe.findLoop_ends _ (h.exists_free hfuel _)

/-- **The probe loop of `block_insert` ends.** -/
theorem freeLoop_ends (h : t.Wf) (hfuel : 1024 ≤ fuel) (index : Word) :
    ∃ i, Probe.freeLoop BlockTable.slot BlockTable.next t.table.map fuel index = some i :=
  Probe.freeLoop_ends (h.exists_free hfuel _)

/-- `block_find` finds a block of the table, and one if there is one. -/
theorem blockFind_live (h : t.Wf) {pc : Word} {r : Option BlockPtr} (hr : t.table.blockFind fuel pc = some r) :
    (∀ b, r = some b → b ∈ t.live ∧ b.pcStart = pc) ∧ (r = none → ∀ b ∈ t.live, b.pcStart ≠ pc) := by
  constructor
  · rintro b rfl
    obtain ⟨hpc, i, hi⟩ := Probe.findLoop_some hr
    exact ⟨(h.live b).mpr ⟨i, hi⟩, of_decide_eq_true hpc⟩
  · rintro rfl b hb rfl
    obtain ⟨i, hi⟩ := (h.live b).mp hb
    simpa using Probe.findLoop_none hr (h.stored i b hi) hi

theorem blockLookupOrFind_ends (h : t.Wf) (hfuel : 1024 ≤ fuel) (extC : Bool) (pc : Word) :
    ∃ r, t.table.blockLookupOrFind fuel extC pc = some r := by
  unfold BlockTable.blockLookupOrFind
  split_ifs
  · exact ⟨_, rfl⟩
  · obtain ⟨r, hr⟩ := h.blockFind_ends hfuel pc
    rw [hr]
    cases r with
    | some b => exact ⟨_, rfl⟩
    | none => exact ⟨_, rfl⟩

end Tracked.Wf

/-- A lookup changes the L1 cache only. -/
theorem BlockTable.blockLookupOrFind_cases {fuel : Nat} {extC : Bool} {t : BlockTable} {pc : Word}
    {r : Option BlockPtr × BlockTable} (h : t.blockLookupOrFind fuel extC pc = some r) :
    (t.tags (l1Index extC pc) = pc ∧ r = (t.ptrs (l1Index extC pc), t)) ∨
      (t.tags (l1Index extC pc) ≠ pc ∧
        ((∃ b, t.blockFind fuel pc = some (some b) ∧ r = (some b, t.l1Fill extC pc b)) ∨
          (t.blockFind fuel pc = some none ∧ r = (none, t)))) := by
  unfold BlockTable.blockLookupOrFind at h
  split_ifs at h with htag
  · exact .inl ⟨htag, (Option.some.inj h).symm⟩
  · refine .inr ⟨htag, ?_⟩
    obtain ⟨block, hblock, h⟩ := Option.bind_eq_some_iff.mp h
    cases block with
    | some b => exact .inl ⟨b, hblock, (Option.some.inj h).symm⟩
    | none => exact .inr ⟨hblock, (Option.some.inj h).symm⟩

theorem BlockTable.blockInsert_eq {fuel : Nat} {extC : Bool} {t t' : BlockTable} {b : BlockPtr}
    (h : t.blockInsert fuel extC b = some t') :
    ∃ i, t.map i = none ∧ Probe.Reaches slot next t.map (mapHash b.pcStart) i ∧
      t' = { t with map := Function.update t.map i (some b), size := t.size + 1 }.l1Fill extC b.pcStart b := by
  obtain ⟨i, hi, h⟩ := Option.bind_eq_some_iff.mp h
  obtain ⟨hempty, hreach⟩ := Probe.freeLoop_some hi
  exact ⟨i, hempty, hreach, (Option.some.inj h).symm⟩

section Run

variable {fuel : Nat} {extC : Bool} {t t' : Tracked} {op : MapOp}

theorem exec_ends (hfuel : 1024 ≤ fuel) (h : t.Wf) (op : MapOp) : ∃ t', op.exec fuel extC t = some t' := by
  cases op with
  | lookup pc =>
    obtain ⟨r, hr⟩ := h.blockLookupOrFind_ends hfuel extC pc
    exact ⟨{ t with table := r.2 }, by simp [MapOp.exec, hr]⟩
  | find pc =>
    obtain ⟨r, hr⟩ := h.blockFind_ends hfuel pc
    exact ⟨t, by simp [MapOp.exec, hr]⟩
  | clear => exact ⟨_, rfl⟩
  | insert pc =>
    obtain ⟨i, hi⟩ := h.freeLoop_ends hfuel (mapHash pc)
    exact ⟨_, by simp only [MapOp.exec, BlockTable.blockInsert, hi]; rfl⟩

/-- What an operation does to the table and to the blocks it holds. -/
theorem exec_cases (h : op.exec fuel extC t = some t') :
    (∃ pc r, op = .lookup pc ∧ t.table.blockLookupOrFind fuel extC pc = some r ∧
      t' = { t with table := r.2 }) ∨
    (∃ pc, op = .find pc ∧ t' = t) ∨
    (op = .clear ∧ t' = { fresh := t.fresh }) ∨
    (∃ pc table, op = .insert pc ∧ t.table.blockInsert fuel extC ⟨t.fresh, pc⟩ = some table ∧
      t' = { table, live := ⟨t.fresh, pc⟩ :: t.live, fresh := t.fresh + 1 }) := by
  cases op with
  | lookup pc =>
    obtain ⟨r, hr, h⟩ := Option.bind_eq_some_iff.mp h
    exact .inl ⟨pc, r, rfl, hr, (Option.some.inj h).symm⟩
  | find pc =>
    obtain ⟨r, hr, h⟩ := Option.bind_eq_some_iff.mp h
    exact .inr (.inl ⟨pc, rfl, (Option.some.inj h).symm⟩)
  | clear => exact .inr (.inr (.inl ⟨rfl, (Option.some.inj h).symm⟩))
  | insert pc =>
    obtain ⟨table, htable, h⟩ := Option.bind_eq_some_iff.mp h
    exact .inr (.inr (.inr ⟨pc, table, rfl, htable, (Option.some.inj h).symm⟩))

theorem lookup_map {pc : Word} {r : Option BlockPtr × BlockTable}
    (h : t.table.blockLookupOrFind fuel extC pc = some r) :
    r.2.map = t.table.map ∧ r.2.size = t.table.size := by
  obtain ⟨-, rfl⟩ | ⟨-, ⟨b, -, rfl⟩ | ⟨-, rfl⟩⟩ := BlockTable.blockLookupOrFind_cases h
  · exact ⟨rfl, rfl⟩
  · exact ⟨rfl, rfl⟩
  · exact ⟨rfl, rfl⟩

theorem not_mapFull {size : Nat} (h : mapFull size = false) : size < 820 := by
  unfold mapFull at h
  simp only [decide_eq_false_iff_not] at h
  omega

/-- **One operation keeps the table well formed.** -/
theorem Tracked.Wf.exec (hwf : t.Wf) (hallowed : op.Allowed t) (h : op.exec fuel extC t = some t') :
    t'.Wf := by
  obtain ⟨pc, r, rfl, hr, rfl⟩ | ⟨pc, rfl, rfl⟩ | ⟨rfl, rfl⟩ | ⟨pc, table, rfl, hins, rfl⟩ := exec_cases h
  · obtain ⟨hmap, hsize⟩ := lookup_map hr
    exact ⟨by rw [hmap]; exact hwf.stored, by rw [hmap, hsize]; exact hwf.size_eq,
      by rw [hsize]; exact hwf.size_le, fun b => by rw [hmap]; exact hwf.live b⟩
  · exact hwf
  · exact wf_empty _
  · obtain ⟨i, hempty, hreach, rfl⟩ := BlockTable.blockInsert_eq hins
    have hlt : t.table.size < 820 := not_mapFull hallowed
    refine ⟨Probe.stored_update hwf.stored hempty hreach, ?_, hlt, fun b => ?_⟩
    · have hocc := Probe.occupied_update (⟨t.fresh, pc⟩ : BlockPtr) hempty
      rw [hwf.size_eq] at hocc
      exact hocc
    · change b ∈ _ :: t.live ↔ ∃ j, Function.update t.table.map i _ j = some b
      rw [List.mem_cons, hwf.live b]
      constructor
      · rintro (rfl | ⟨j, hj⟩)
        · exact ⟨i, Function.update_self _ _ _⟩
        · have hne : j ≠ i := fun he => by rw [he, hempty] at hj; cases hj
          exact ⟨j, by rw [Function.update_of_ne hne]; exact hj⟩
      · rintro ⟨j, hj⟩
        by_cases hji : j = i
        · rw [hji, Function.update_self] at hj
          exact .inl (Option.some.inj hj).symm
        · rw [Function.update_of_ne hji] at hj
          exact .inr ⟨j, hj⟩

end Run

/-! ## One block for an address -/

structure Tracked.Consistent (extC : Bool) (t : Tracked) : Prop where
  unique : ∀ b ∈ t.live, ∀ b' ∈ t.live, b.pcStart = b'.pcStart → b = b'
  l1 : ∀ pc, t.table.tags (l1Index extC pc) = pc →
    ∀ b, t.table.ptrs (l1Index extC pc) = some b ↔ b ∈ t.live ∧ b.pcStart = pc

/-- No block is inserted for an address that has one. -/
def MapOp.Fresh (t : Tracked) : MapOp → Prop
  | .insert pc => ∀ b ∈ t.live, b.pcStart ≠ pc
  | _ => True

theorem consistent_empty (extC : Bool) (fresh : Ref) : Tracked.Consistent extC { fresh } where
  unique b hb := by cases hb
  l1 pc _ b := by simp

/-- A filled slot of the L1 cache answers for one address. -/
theorem BlockTable.l1Fill_cases {extC : Bool} {t : BlockTable} {pc pc' : Word} {b : BlockPtr}
    (h : (t.l1Fill extC pc b).tags (l1Index extC pc') = pc') :
    (pc' = pc ∧ (t.l1Fill extC pc b).ptrs (l1Index extC pc') = some b) ∨
      (pc' ≠ pc ∧ t.tags (l1Index extC pc') = pc' ∧
        (t.l1Fill extC pc b).ptrs (l1Index extC pc') = t.ptrs (l1Index extC pc')) := by
  simp only [BlockTable.l1Fill] at h ⊢
  by_cases hi : l1Index extC pc' = l1Index extC pc
  · rw [hi, Function.update_self] at h
    exact .inl ⟨h.symm, by rw [hi, Function.update_self]⟩
  · rw [Function.update_of_ne hi] at h
    refine .inr ⟨fun he => hi (by rw [he]), h, ?_⟩
    rw [Function.update_of_ne hi]

namespace Tracked.Consistent

variable {fuel : Nat} {extC : Bool} {t t' : Tracked} {op : MapOp}

/-- With one block for an address, `block_find` finds exactly that one. -/
theorem blockFind_iff (h : t.Consistent extC) (hwf : t.Wf) {pc : Word} {r : Option BlockPtr}
    (hr : t.table.blockFind fuel pc = some r) (b : BlockPtr) : r = some b ↔ b ∈ t.live ∧ b.pcStart = pc := by
  obtain ⟨hsome, hnone⟩ := hwf.blockFind_live hr
  refine ⟨hsome b, fun ⟨hb, hpc⟩ => ?_⟩
  cases r with
  | none => exact absurd hpc (hnone rfl b hb)
  | some b' =>
    obtain ⟨hb', hpc'⟩ := hsome b' rfl
    rw [h.unique b' hb' b hb (hpc'.trans hpc.symm)]

/-- **Both lookups agree.** -/
theorem agrees (h : t.Consistent extC) (hwf : t.Wf) (hfuel : 1024 ≤ fuel) : t.Agrees fuel extC := by
  intro pc
  obtain ⟨r, hr⟩ := hwf.blockLookupOrFind_ends hfuel extC pc
  obtain ⟨r', hr'⟩ := hwf.blockFind_ends hfuel pc
  have hfind := h.blockFind_iff hwf hr'
  refine ⟨r', r.2, ?_, hr', hfind⟩
  obtain ⟨htag, rfl⟩ | ⟨-, ⟨b, hb, rfl⟩ | ⟨hb, rfl⟩⟩ := BlockTable.blockLookupOrFind_cases hr
  · have hl1 := h.l1 pc htag
    have heq : t.table.ptrs (l1Index extC pc) = r' := by
      ext b
      exact (hl1 b).trans (hfind b).symm
    rw [hr, heq]
  · rw [hb] at hr'
    rw [hr, ← Option.some.inj hr']
  · rw [hb] at hr'
    rw [hr, ← Option.some.inj hr']

theorem exec (hcon : t.Consistent extC) (hwf : t.Wf) (hfresh : op.Fresh t)
    (h : op.exec fuel extC t = some t') : t'.Consistent extC := by
  obtain ⟨pc, r, rfl, hr, rfl⟩ | ⟨pc, rfl, rfl⟩ | ⟨rfl, rfl⟩ | ⟨pc, table, rfl, hins, rfl⟩ := exec_cases h
  · refine ⟨hcon.unique, fun pc' htag b => ?_⟩
    obtain ⟨-, rfl⟩ | ⟨-, ⟨b', hb', rfl⟩ | ⟨-, rfl⟩⟩ := BlockTable.blockLookupOrFind_cases hr
    · exact hcon.l1 pc' htag b
    · obtain ⟨rfl, hptr⟩ | ⟨-, htag', hptr⟩ := BlockTable.l1Fill_cases htag
      · rw [hptr]
        exact hcon.blockFind_iff hwf hb' b
      · rw [hptr]
        exact hcon.l1 pc' htag' b
    · exact hcon.l1 pc' htag b
  · exact hcon
  · exact consistent_empty extC _
  · obtain ⟨i, -, -, rfl⟩ := BlockTable.blockInsert_eq hins
    have hother : ∀ b ∈ t.live, b.pcStart ≠ pc := hfresh
    refine ⟨fun b hb b' hb' heq => ?_, fun pc' htag b => ?_⟩
    · obtain rfl | hb := List.mem_cons.mp hb <;> obtain rfl | hb' := List.mem_cons.mp hb'
      · rfl
      · exact absurd heq.symm (hother b' hb')
      · exact absurd heq (hother b hb)
      · exact hcon.unique b hb b' hb' heq
    · rw [List.mem_cons]
      obtain ⟨rfl, hptr⟩ | ⟨hne, htag', hptr⟩ := BlockTable.l1Fill_cases htag
      · rw [hptr, Option.some.injEq]
        constructor
        · rintro rfl
          exact ⟨.inl rfl, rfl⟩
        · rintro ⟨rfl | hb, hpc⟩
          · rfl
          · exact absurd hpc (hother b hb)
      · rw [hptr]
        refine (hcon.l1 pc' htag' b).trans (and_congr_left fun hpc => ?_)
        refine ⟨.inr, fun hb => hb.resolve_left ?_⟩
        rintro rfl
        exact hne hpc.symm

end Tracked.Consistent

/-! ## The function of the engines -/

/-- The table holds what the engines' block map says. -/
structure Realizes {B : Type} (fuel : Nat) (t : Tracked) (e : BlockMap B) : Prop where
  index : ∀ pc r, t.table.blockFind fuel pc = some r → e.index pc = r.map BlockPtr.ref
  l1 : ∀ i, e.l1 i = (t.table.tags i, (t.table.ptrs i).map BlockPtr.ref)
  size_eq : e.size = t.table.size
  fresh_eq : e.fresh = t.fresh

/-- Wherever the table stands for `e`, the operations `ops` end, and it then stands for `e'`. -/
def Performs {B : Type} (fuel : Nat) (extC : Bool) (ops : List MapOp) (e e' : BlockMap B) : Prop :=
  ∀ t : Tracked, t.Wf → Realizes fuel t e →
    ∃ t', execAll fuel extC ops t = some t' ∧ t'.Wf ∧ Realizes fuel t' e'

theorem realizes_empty {B : Type} (fuel : Nat) : Realizes fuel {} ({} : BlockMap B) where
  index pc r hr := by
    obtain ⟨hsome, -⟩ := (wf_empty 0).blockFind_live hr
    cases r with
    | none => rfl
    | some b => exact absurd (hsome b rfl).1 List.not_mem_nil
  l1 i := rfl
  size_eq := rfl
  fresh_eq := rfl

namespace Performs

variable {B : Type} {fuel : Nat} {extC : Bool} {ops ops' : List MapOp} {e e' e'' : BlockMap B}

/-- The blocks themselves and `prev` are not part of the table. -/
theorem same (hindex : e'.index = e.index) (hl1 : e'.l1 = e.l1) (hsize : e'.size = e.size)
    (hfresh : e'.fresh = e.fresh) : Performs fuel extC [] e e' := by
  intro t hwf h
  exact ⟨t, rfl, hwf, by rw [hindex]; exact h.index, by rw [hl1]; exact h.l1, hsize.trans h.size_eq,
    hfresh.trans h.fresh_eq⟩

theorem refl (e : BlockMap B) : Performs fuel extC [] e e := same rfl rfl rfl rfl

theorem trans (h : Performs fuel extC ops e e') (h' : Performs fuel extC ops' e' e'') :
    Performs fuel extC (ops ++ ops') e e'' := by
  intro t hwf hr
  obtain ⟨t', ht', hwf', hr'⟩ := h t hwf hr
  obtain ⟨t'', ht'', hwf'', hr''⟩ := h' t' hwf' hr'
  exact ⟨t'', by rw [execAll_append, ht', Option.bind_some, ht''], hwf'', hr''⟩

/-- An operation that may be carried out is carried out. -/
theorem of_exec {op : MapOp} (hfuel : 1024 ≤ fuel)
    (hallowed : ∀ t : Tracked, Realizes fuel t e → op.Allowed t)
    (h : ∀ t t' : Tracked, t.Wf → t'.Wf → Realizes fuel t e → op.exec fuel extC t = some t' →
      Realizes fuel t' e') : Performs fuel extC [op] e e' := by
  intro t hwf hr
  obtain ⟨t', ht'⟩ := exec_ends hfuel hwf op
  have hwf' := hwf.exec (hallowed t hr) ht'
  exact ⟨t', by simp [execAll, ht'], hwf', h t t' hwf hwf' hr ht'⟩

theorem find (hfuel : 1024 ≤ fuel) (pc : Word) (e : BlockMap B) : Performs fuel extC [.find pc] e e := by
  refine of_exec hfuel (fun _ _ => trivial) fun t t' _ _ hr h => ?_
  obtain ⟨_, _, hop, -⟩ | ⟨_, -, rfl⟩ | ⟨hop, -⟩ | ⟨_, _, hop, -⟩ := exec_cases h
  · cases hop
  · exact hr
  · cases hop
  · cases hop

theorem clear (hfuel : 1024 ≤ fuel) (e : BlockMap B) : Performs fuel extC [.clear] e e.blockMapClear := by
  refine of_exec hfuel (fun _ _ => trivial) fun t t' _ _ hr h => ?_
  cases h
  exact ⟨(realizes_empty fuel (B := B)).index, fun _ => rfl, rfl, hr.fresh_eq⟩

/-- Filling a slot of the L1 cache. -/
theorem l1_update {t : BlockTable} {pc : Word} {b : BlockPtr}
    (h : ∀ i, e.l1 i = (t.tags i, (t.ptrs i).map BlockPtr.ref)) (i : BitVec 8) :
    Function.update e.l1 (l1Index extC pc) (pc, some b.ref) i =
      ((t.l1Fill extC pc b).tags i, ((t.l1Fill extC pc b).ptrs i).map BlockPtr.ref) := by
  simp only [BlockTable.l1Fill]
  by_cases hi : i = l1Index extC pc
  · subst hi
    simp only [Function.update_self, Option.map_some]
  · simp only [Function.update_of_ne hi, h i]

theorem lookup (hfuel : 1024 ≤ fuel) (pc : Word) (e : BlockMap B) :
    Performs fuel extC [.lookup pc] e (e.blockLookupOrFind extC pc).2 := by
  refine of_exec hfuel (fun _ _ => trivial) fun t t' _ _ hr h => ?_
  obtain ⟨_, r, hop, hlook, rfl⟩ | ⟨_, hop, -⟩ | ⟨hop, -⟩ | ⟨_, _, hop, -⟩ := exec_cases h
  · cases hop
    unfold BlockMap.blockLookupOrFind
    simp only [hr.l1 (l1Index extC pc)]
    obtain ⟨htag, rfl⟩ | ⟨htag, ⟨b, hb, rfl⟩ | ⟨hb, rfl⟩⟩ := BlockTable.blockLookupOrFind_cases hlook
    · rw [if_pos htag]
      exact hr
    · rw [if_neg htag, hr.index pc _ hb]
      exact ⟨hr.index, l1_update hr.l1, hr.size_eq, hr.fresh_eq⟩
    · rw [if_neg htag, hr.index pc _ hb]
      exact hr
  · cases hop
  · cases hop
  · cases hop

theorem insert (hfuel : 1024 ≤ fuel) {e : BlockMap B} (hfull : mapFull e.size = false) (pc : Word) (b : B) :
    Performs fuel extC [.insert pc] e (e.blockInsert extC pc b) := by
  refine of_exec hfuel (fun t hr => ?_) fun t t' hwf hwf' hr h => ?_
  · change mapFull t.table.size = false
    rw [← hr.size_eq]
    exact hfull
  obtain ⟨_, _, hop, -⟩ | ⟨_, hop, -⟩ | ⟨hop, -⟩ | ⟨_, _, hop, hins, rfl⟩ := exec_cases h
  · cases hop
  · cases hop
  · cases hop
  cases hop
  obtain ⟨i, hempty, hreach, rfl⟩ := BlockTable.blockInsert_eq hins
  refine ⟨fun pc' r hr' => ?_, fun j => ?_, ?_, ?_⟩
  · obtain ⟨old, hold⟩ := hwf.blockFind_ends hfuel pc'
    have hnew := Probe.findLoop_update hwf.stored hempty hreach hold ⟨r, hr'⟩
    rw [show r = _ from Option.some.inj (hr'.symm.trans hnew)]
    have hindex := hr.index pc' old hold
    simp only [BlockMap.blockInsert]
    by_cases hpc : pc = pc'
    · subst hpc
      cases old with
      | some b' =>
        rw [if_pos (by rw [hindex]; rfl), hindex, Option.some_or]
      | none =>
        rw [if_neg (by rw [hindex]; simp), Function.update_self, Option.none_or, if_pos rfl, hr.fresh_eq]
        rfl
    · rw [if_neg hpc, Option.or_none, ← hindex]
      split_ifs
      · rfl
      · exact Function.update_of_ne (Ne.symm hpc) _ _
  · simp only [BlockMap.blockInsert, hr.fresh_eq]
    exact l1_update (t := t.table) (b := ⟨t.fresh, pc⟩) hr.l1 j
  · exact congrArg (· + 1) hr.size_eq
  · exact congrArg (· + 1) hr.fresh_eq

end Performs

end Rv32emu
