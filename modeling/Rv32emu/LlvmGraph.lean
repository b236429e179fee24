import Rv32emu.Llvm

/-!
# Functions put together from fragments

* `place`, `Fragment.append` : code put behind what stands in a block; its further blocks are new ones of the function;
* `Fragment.block_append`, `Fragment.block_append_of_ne`, `Fragment.block_buildBr` : what stands in the blocks then;
* `Fragment.exec_placed` : code does in a function what it does by itself, and what stands behind it follows.
-/

namespace Llvm

variable {P G : Type}

def Item.targets : Item P G → List Nat
  | .br b => [b]
  | .condBr _ b b' => [b, b']
  | .assign .. | .store .. | .retVoid => []

/-! ## Code in a function -/

/-- Where the blocks of code lie that is put into the block `b` of a function with `count` blocks. -/
def place (b count : Nat) : Nat → Nat
  | 0 => b
  | k + 1 => count + k

/-- The registers from `k` on, and the blocks where `loc` says. -/
def Item.place (k : Nat) (loc : Nat → Nat) : Item P G → Item P G
  | .assign n rhs => .assign (k + n) (rhs.shift k)
  | .store v p => .store (v.shift k) (p.shift k)
  | .retVoid => .retVoid
  | .br b => .br (loc b)
  | .condBr c b b' => .condBr (c.shift k) (loc b) (loc b')

namespace Fragment

/-- The code `c` behind what stands in the block `b` of `f`. -/
def append (f : Fragment P G) (b : Builder) (c : Fragment P G) : Fragment P G where
  regs := f.regs + c.regs
  count := f.count + (c.count - 1)
  log := c.log.map (fun e => (Llvm.place b f.count e.1, e.2.place f.regs (Llvm.place b f.count))) ++ f.log

def buildBr (f : Fragment P G) (b dest : Builder) : Fragment P G := { f with log := (b, .br dest) :: f.log }

/-- Nothing stands in blocks that there are not. -/
def Bounded (f : Fragment P G) : Prop := ∀ b i, (b, i) ∈ f.log → b < f.count

def Forward (f : Fragment P G) : Prop := ∀ b i, (b, i) ∈ f.log → ∀ j ∈ i.targets, 0 < j

end Fragment

theorem place_inj {b count j k : Nat} (hb : b < count) : place b count j = place b count k ↔ j = k := by
  cases j <;> cases k <;> simp only [place] <;> omega

theorem place_lt {b count n j : Nat} (hb : b < count) (hj : j < n) : place b count j < count + (n - 1) := by
  cases j <;> simp only [place] <;> omega

theorem place_eq_iff {b count j : Nat} (x : Nat) :
    place b count j = x ↔ j = 0 ∧ b = x ∨ 0 < j ∧ count + (j - 1) = x := by
  cases j <;> simp [place]

namespace Fragment

variable {f c : Fragment P G} {b : Builder}

theorem block_eq (f : Fragment P G) (j : Nat) :
    f.block j = f.log.reverse.filterMap fun e => if e.1 = j then some e.2 else none := rfl

/-- The block `k` of code, where it has been put. -/
theorem block_append (c : Fragment P G) (hb : b < f.count) (k : Nat) :
    (f.append b c).block (Llvm.place b f.count k) =
      f.block (Llvm.place b f.count k) ++ (c.block k).map (Item.place f.regs (Llvm.place b f.count)) := by
  rw [block_eq, append, List.reverse_append, List.filterMap_append, ← block_eq, ← List.map_reverse, List.filterMap_map,
    block_eq c, List.map_filterMap]
  refine congrArg _ (List.filterMap_congr fun e _ => ?_)
  simp only [Function.comp_apply, place_inj hb]
  split_ifs <;> rfl

theorem block_append_of_ne (c : Fragment P G) {j : Nat} (hj : j < f.count) (hne : j ≠ b) :
    (f.append b c).block j = f.block j := by
  rw [block_eq, append, List.reverse_append, List.filterMap_append, ← block_eq, ← List.map_reverse, List.filterMap_map]
  refine (congrArg _ (List.filterMap_eq_nil_iff.mpr fun e _ => ?_)).trans (List.append_nil _)
  refine if_neg fun heq => ?_
  rcases (place_eq_iff j).mp heq with ⟨-, h⟩ | ⟨-, h⟩
  · exact hne h.symm
  · exact absurd hj (Nat.not_lt.mpr (h ▸ Nat.le_add_right ..))

theorem Bounded.block_eq_nil (h : f.Bounded) {j : Nat} (hj : f.count ≤ j) : f.block j = [] := by
  refine List.filterMap_eq_nil_iff.mpr fun e he => if_neg fun heq => ?_
  exact absurd (h e.1 e.2 (List.mem_reverse.mp he)) (Nat.not_lt.mpr (heq ▸ hj))

theorem Bounded.append (hf : f.Bounded) (hc : c.Bounded) (hb : b < f.count) : (f.append b c).Bounded := by
  intro j i he
  rcases List.mem_append.mp he with he | he
  · obtain ⟨e0, he0, heq⟩ := List.mem_map.mp he
    cases heq
    exact place_lt hb (hc e0.1 e0.2 he0)
  · exact Nat.lt_of_lt_of_le (hf j i he) (Nat.le_add_right ..)

theorem block_buildBr (f : Fragment P G) (b dest j : Builder) :
    (f.buildBr b dest).block j = f.block j ++ if b = j then [.br dest] else [] := by
  rw [block_eq, buildBr, List.reverse_cons, List.filterMap_append, ← block_eq]
  by_cases h : b = j <;> simp [h]

theorem Bounded.buildBr (hf : f.Bounded) (hb : b < f.count) (dest : Builder) : (f.buildBr b dest).Bounded := by
  intro j i he
  rcases List.mem_cons.mp he with heq | he
  · cases heq
    exact hb
  · exact hf j i he

end Fragment

/-! ## Execution -/

section Exec

variable {S E : Type} (h : Host P G S E)

/-- What follows code that has ended with `x`, if `rest j` stands behind its block `j`. -/
def resume (blocks : Nat → List (Item P G)) (fuel : Nat) (loc : Nat → Nat) (rest : Nat → List (Item P G))
    (r : Regs P) (x : Exit E × S) : Option (Exit E × S) :=
  match x.1 with
  | .ret => some x
  | .fall j => runItems h (runBlocks h blocks fuel) (loc j) (rest j) r x.2
  | .left _ => some x

variable {h} {c : Fragment P G} {blocks : Nat → List (Item P G)} {k : Nat} {loc : Nat → Nat}
  {rest : Nat → List (Item P G)}

/-- A branch behind the block that falls through is taken. -/
theorem resume_branch {fuel dest j : Nat} (hdest : (rest j).head? = some (.br dest)) (r : Regs P) (s : S) :
    resume h blocks fuel loc rest r (.fall j, s) = runBlocks h blocks fuel dest r s := by
  obtain ⟨items, hitems⟩ := List.head?_eq_some_iff.mp hdest
  simp only [resume, hitems, runItems]

/-- The items of a block are among those of the code. -/
theorem Fragment.mem_block {f : Fragment P G} {j : Nat} {i : Item P G} (hi : i ∈ f.block j) : (j, i) ∈ f.log := by
  obtain ⟨e, he, heq⟩ := List.mem_filterMap.mp hi
  obtain ⟨hj, heq⟩ := Option.ite_none_right_eq_some.mp heq
  rw [← hj, ← Option.some_inj.mp heq]
  exact List.mem_reverse.mp he

/-- The items of placed code, if its jumps are placed; the registers of the code are those of the function from `k`
on. -/
theorem runItems_place {jump : Nat → Regs P → S → Option (Exit E × S)} {x : Exit E × S}
    (hjump : ∀ j, 0 < j → ∀ r s, jump j (r.shift k) s = some x →
      ∃ m r', ∀ fuel, runBlocks h blocks (m + fuel) (loc j) r s = resume h blocks fuel loc rest r' x)
    (b : Nat) (items : List (Item P G)) (htargets : ∀ i ∈ items, ∀ j ∈ i.targets, 0 < j) (r : Regs P) (s : S)
    (hx : runItems h jump b items (r.shift k) s = some x) :
    ∃ m r', ∀ fuel, runItems h (runBlocks h blocks (m + fuel)) (loc b) (items.map (Item.place k loc) ++ rest b) r s =
      resume h blocks fuel loc rest r' x := by
  induction items generalizing r s with
  | nil =>
    cases hx
    exact ⟨0, r, fun fuel => by rw [Nat.zero_add]; rfl⟩
  | cons i items ih =>
    have hrest : ∀ i ∈ items, ∀ j ∈ i.targets, 0 < j := fun i hi => htargets i (List.mem_cons_of_mem _ hi)
    have htarget := htargets i List.mem_cons_self
    cases i with
    | assign n rhs =>
      simp only [runItems, List.map_cons, Item.place, List.cons_append, Rhs.eval_shift] at hx ⊢
      rcases heval : rhs.eval h (r.shift k) s with _ | ⟨v, s1⟩ | ⟨e, s1⟩
      · rw [heval] at hx
        cases hx
      · rw [heval] at hx
        refine ih hrest (r.set (k + n) v) s1 ?_
        rw [Regs.set_shift]
        exact hx
      · rw [heval] at hx
        cases hx
        exact ⟨0, r, fun fuel => rfl⟩
    | store v p =>
      simp only [runItems, List.map_cons, Item.place, List.cons_append, Operand.eval_shift] at hx ⊢
      cases hstore : h.store _ (p.eval (r.shift k)) (v.eval (r.shift k)) s with
      | none =>
        rw [hstore] at hx
        cases hx
      | some s1 =>
        rw [hstore] at hx
        exact ih hrest r s1 hx
    | retVoid =>
      cases hx
      exact ⟨0, r, fun fuel => rfl⟩
    | br j => exact hjump j (htarget j (List.mem_singleton_self j)) r s hx
    | condBr c j j' =>
      simp only [runItems, List.map_cons, Item.place, List.cons_append, Operand.eval_shift] at hx ⊢
      by_cases hc : truth (c.eval (r.shift k)) = true
      · rw [if_pos hc] at hx
        simp only [hc, if_true]
        exact hjump j (htarget j List.mem_cons_self) r s hx
      · rw [if_neg hc] at hx
        simp only [hc, Bool.false_eq_true, if_false]
        exact hjump j' (htarget j' (List.mem_cons_of_mem _ (List.mem_singleton_self j'))) r s hx

/-- The blocks of placed code, by induction on those that are entered. -/
theorem runBlocks_placed (hbound : c.Bounded) (hforward : c.Forward)
    (hlies : ∀ j, 0 < j → j < c.count → blocks (loc j) = (c.block j).map (Item.place k loc) ++ rest j)
    {x : Exit E × S} (hfall : ∀ j, x.1 = .fall j → j < c.count) (n : Nat) :
    ∀ j, 0 < j → ∀ r s, runBlocks h c.block n j (r.shift k) s = some x →
      ∃ m r', ∀ fuel, runBlocks h blocks (m + fuel) (loc j) r s = resume h blocks fuel loc rest r' x := by
  induction n with
  | zero => exact fun j hj r s hx => by cases hx
  | succ n ih =>
    intro j hj r s hx
    have hlt : j < c.count := by
      by_contra hge
      rw [runBlocks, hbound.block_eq_nil (Nat.not_lt.mp hge)] at hx
      cases hx
      exact hge (hfall j rfl)
    obtain ⟨m, r', hm⟩ :=
      runItems_place ih j (c.block j) (fun i hi => hforward j i (Fragment.mem_block hi)) r s hx
    refine ⟨m + 1, r', fun fuel => ?_⟩
    rw [Nat.add_right_comm, runBlocks, hlies j hj hlt]
    exact hm fuel

/-- **Code in a function does what it does by itself**, and goes on with what stands behind the block it ends in. -/
theorem Fragment.exec_placed (hbound : c.Bounded) (hforward : c.Forward) (hcount : 0 < c.count)
    (hlies : ∀ j, 0 < j → j < c.count → blocks (loc j) = (c.block j).map (Item.place k loc) ++ rest j) (r : Regs P)
    (s : S) {x : Exit E × S} (hx : c.exec h (r.shift k) s = some x) (hfall : ∀ j, x.1 = .fall j → j < c.count) :
    ∃ m r', ∀ fuel,
      runItems h (runBlocks h blocks (m + fuel)) (loc 0) ((c.block 0).map (Item.place k loc) ++ rest 0) r s =
        resume h blocks fuel loc rest r' x := by
  obtain ⟨n, hn⟩ := Nat.exists_eq_succ_of_ne_zero hcount.ne'
  rw [Fragment.exec, hn, runBlocks] at hx
  exact runItems_place (runBlocks_placed hbound hforward hlies hfall n) 0 (c.block 0)
    (fun i hi => hforward 0 i (Fragment.mem_block hi)) r s hx

end Exec

end Llvm
