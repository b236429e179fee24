import Rv32emu.ElfLoad
import Rv32emu.Machine
import Rv32emu.MapRun
import Mathlib.Order.Bounds.Basic
import Mathlib.Order.Interval.Finset.Nat

/-!
# The file descriptors of the guest

* `rvRemapStdstream`, `findFreeFd`, `syscallOpen`, `syscallClose` : as in the source, over the map of `map.c`;
* `FdState.live` : the stream of a descriptor;
* `CallSound`, `RunSound` : what a sound table does in one call, and in a sequence of calls;
* `FdInv` : the invariant; `openHandle_sound`, `close_sound` : one call;
* `fdRun_sound_iff` : when a sequence of calls is sound.
-/

namespace Rv32emu

open MapTree

/-! ## The table -/

/-- A `FILE` that has been opened; the numbers are given out in the order of opening. -/
abbrev Stream := Nat

/-- `fd_map`, and what the host has done with streams. -/
structure FdState where
  fdMap : RbMap Int Stream := {}
  /-- The streams below this have been opened. -/
  opened : Nat := 0
  /-- The streams that `fclose` has been called with. -/
  closed : List Stream := []

namespace FdState

def live (s : FdState) (fd : Int) : Option Stream := (mapFind compare s.fdMap fd).map MapNode.data

end FdState

/-- `fd_stream_pair_t`, with what `malloc` gives for the node. -/
structure FdStreamPair where
  fd : Int
  file : Option Stream
  node : Option MapAddr

/-- The entry of a descriptor is dropped, if there is one. -/
def dropFd (m : RbMap Int Stream) (fd : Int) : Option (RbMap Int Stream) :=
  match mapFind compare m fd with
  | some it => mapErase compare m (some it)
  | none => some m

/-- One turn of `rv_remap_stdstream`. -/
def remapOne (m : RbMap Int Stream) (fsp : FdStreamPair) : Option (RbMap Int Stream) :=
  match fsp.file with
  | none => some m
  | some file =>
    if fsp.fd ≠ 0 ∧ fsp.fd ≠ 1 ∧ fsp.fd ≠ 2 then some m
    else do
      let m ← dropFd m fsp.fd
      let (_, m) ← mapInsert compare m fsp.fd file fsp.node
      return m

def rvRemapStdstream (m : RbMap Int Stream) (fsp : List FdStreamPair) : Option (RbMap Int Stream) :=
  fsp.foldlM remapOne m

/-! ## The calls -/

/-- The loop of `find_free_fd`, `k` numbers before `i` overflows. -/
def freeFdFrom (m : RbMap Int Stream) : Nat → Int → Option Int
  | 0, _ => none
  | k + 1, i => if (mapFind compare m i).isNone then some i else freeFdFrom m k (i + 1)

def findFreeFd (m : RbMap Int Stream) : Option Int := freeFdFrom m (2 ^ 31 - 3) 3

def getModeStr (flags _mode : Word) : Option String :=
  if flags &&& 3 = 0 then some "rb" else if flags &&& 3 = 1 then some "wb"
  else if flags &&& 3 = 2 then some "a+" else none

structure OpenHost where
  /-- `malloc` for the name succeeds. -/
  malloc : Bool
  /-- `fopen` succeeds. -/
  fopen : List Byte → String → Bool
  /-- `malloc` in `map_create_node`. -/
  node : Option MapAddr

def strnlen (bytes : Nat → Byte) (maxLen : Nat) : Nat := ((List.range maxLen).takeWhile fun i => bytes i ≠ 0).length

/-- The name in guest memory, if it ends there. -/
def openName (mem : GuestMemory) (name : Word) : Option (List Byte) :=
  if mem.size ≤ name.toNat then none
  else
    let maxLen := mem.size - name.toNat
    let namePtr := fun i => mem.bytes (name.toNat + i)
    let nameLen := strnlen namePtr maxLen
    if nameLen = maxLen then none else some ((List.range nameLen).map namePtr)

/-- `syscall_open` up to `fopen`. -/
def openHandle (mem : GuestMemory) (host : OpenHost) (name flags mode : Word) : Bool :=
  match openName mem name with
  | none => false
  | some nameStr =>
    if host.malloc then
      match getModeStr flags mode with
      | none => false
      | some modeStr => host.fopen nameStr modeStr
    else false

/-- `syscall_open`, with the new `a0`. Nothing looks at the result of `map_insert`. -/
def syscallOpen (mem : GuestMemory) (host : OpenHost) (name flags mode : Word) (s : FdState) :
    Option (FdState × Word) :=
  if openHandle mem host name flags mode then do
    let handle := s.opened
    let fd ← findFreeFd s.fdMap
    let (_, m) ← mapInsert compare s.fdMap fd handle host.node
    return ({ s with fdMap := m, opened := s.opened + 1 }, BitVec.ofInt 32 fd)
  else some (s, -1)

/-- What `syscall_close` reads besides the table. -/
structure CloseEnv where
  system : Bool
  onExit : Bool
  exitAddr : Word

/-- `syscall_close`; `fclose` says whether that succeeds. -/
def syscallClose (env : CloseEnv) (fclose : Bool) (fd : Word) (s : FdState) : Option (FdState × Word) :=
  if env.system = false ∧ fd.toNat < 3 ∧ env.onExit = false ∧ env.exitAddr ≠ 0 then some (s, -1)
  else if 3 ≤ fd.toNat then
    match mapFind compare s.fdMap fd.toInt with
    | none => some (s, 0)
    | some it => do
      let s := { s with closed := it.data :: s.closed }
      if fclose = false then return (s, -1)
      let m ← mapErase compare s.fdMap (some it)
      return ({ s with fdMap := m }, 0)
  else some (s, 0)

/-- A system call with its arguments and what the host does. -/
inductive FdCall
  | open (mem : GuestMemory) (host : OpenHost) (name flags mode : Word)
  | close (env : CloseEnv) (fclose : Bool) (fd : Word)

def FdCall.run (s : FdState) : FdCall → Option (FdState × Word)
  | .open mem host name flags mode => syscallOpen mem host name flags mode s
  | .close env fclose fd => syscallClose env fclose fd s

/-! ## What a sound table does -/

/-- The stream of an open descriptor belongs to no other one, and no stream in the table has been closed. -/
structure FdState.Sound (s : FdState) : Prop where
  own : ∀ fd fd' σ, 3 ≤ fd → s.live fd = some σ → s.live fd' = some σ → fd' = fd
  notClosed : ∀ fd σ, s.live fd = some σ → σ ∉ s.closed

/-- `open` answers with the smallest free descriptor, which gets the stream, or with -1; nothing else changes. -/
def OpenSound (opens : Bool) (s s' : FdState) (a0 : Word) : Prop :=
  if opens then ∃ fd : Int, IsLeast {k | 3 ≤ k ∧ s.live k = none} fd ∧ fd < 2 ^ 31 ∧ a0 = BitVec.ofInt 32 fd ∧
    s'.live = Function.update s.live fd (some s.opened)
  else a0 = -1 ∧ s'.live = s.live

/-- `close` takes the descriptor out of the table where it succeeds; nothing else changes. -/
def CloseSound (fd : Word) (s s' : FdState) (a0 : Word) : Prop :=
  s'.live = if 3 ≤ fd.toNat ∧ a0 = 0 then Function.update s.live fd.toInt none else s.live

/-- A call from the state `s`. -/
def CallSound (s s' : FdState) (a0 : Word) : FdCall → Prop
  | .open mem host name flags mode => OpenSound (openHandle mem host name flags mode) s s' a0
  | .close _ _ fd => CloseSound fd s s' a0

/-- Every call of the sequence is sound, and so is every table. -/
def RunSound (s : FdState) : List FdCall → Prop
  | [] => s.Sound
  | c :: rest => s.Sound ∧ ∃ s' a0, c.run s = some (s', a0) ∧ CallSound s s' a0 c ∧ RunSound s' rest

/-- The host gives `open` a node for its stream, and a descriptor is left; `fclose` succeeds. -/
def FdCall.Meets (s : FdState) : FdCall → Prop
  | .open mem host name flags mode => openHandle mem host name flags mode = true →
      host.node ≠ none ∧ ∃ k : Int, 3 ≤ k ∧ k < 2 ^ 31 ∧ s.live k = none
  | .close _ fclose fd => 3 ≤ fd.toNat → s.live fd.toInt ≠ none → fclose = true

def RunMeets (s : FdState) : List FdCall → Prop
  | [] => True
  | c :: rest => c.Meets s ∧ ∀ s' a0, c.run s = some (s', a0) → RunMeets s' rest

/-! ## The invariant -/

structure FdInv (s : FdState) : Prop where
  wf : s.fdMap.Wf compare
  keys : ∀ x ∈ s.fdMap.root.toList, 0 ≤ x.key ∧ x.key < 2 ^ 31
  data : ∀ x ∈ s.fdMap.root.toList, x.data < s.opened
  closed : ∀ σ ∈ s.closed, σ < s.opened
  sound : s.Sound

/-- The table that `rv_create` leaves: the standard streams, under their descriptors. -/
structure FdStart (s : FdState) : Prop where
  wf : s.fdMap.Wf compare
  keys : ∀ x ∈ s.fdMap.root.toList, 0 ≤ x.key ∧ x.key < 3
  data : ∀ x ∈ s.fdMap.root.toList, x.data < s.opened
  closed : s.closed = []

section Live

variable {s : FdState} {m : RbMap Int Stream} {fd : Int} {σ : Stream}

theorem live_eq_none_iff : s.live fd = none ↔ mapFind compare s.fdMap fd = none := Option.map_eq_none_iff

theorem mapFind_iff (h : m.Wf compare) {x : MapNode Int Stream} :
    mapFind compare m fd = some x ↔ x ∈ m.root.toList ∧ x.key = fd := by
  rw [mapFind, findNode_iff h.sorted, compare_eq_iff_eq, eq_comm]

theorem exists_node (h : s.fdMap.Wf compare) (hlive : s.live fd = some σ) :
    ∃ x ∈ s.fdMap.root.toList, x.key = fd ∧ x.data = σ := by
  obtain ⟨x, hfind, hdata⟩ := Option.map_eq_some_iff.mp hlive
  obtain ⟨hmem, hkey⟩ := (mapFind_iff h).mp hfind
  exact ⟨x, hmem, hkey, hdata⟩

theorem FdStart.inv (h : FdStart s) : FdInv s where
  wf := h.wf
  keys x hx := ⟨(h.keys x hx).1, (h.keys x hx).2.trans (by decide)⟩
  data := h.data
  closed σ hσ := by
    rw [h.closed] at hσ
    exact absurd hσ List.not_mem_nil
  sound :=
    { own := fun fd fd' σ hfd hlive _ => by
        obtain ⟨x, hx, hkey, -⟩ := exists_node h.wf hlive
        have hlt := (h.keys x hx).2
        omega
      notClosed := fun fd σ _ hσ => by
        rw [h.closed] at hσ
        exact absurd hσ List.not_mem_nil }

theorem FdInv.size_le (h : FdInv s) : s.fdMap.size ≤ 2 ^ 31 := by
  have hnodup : (s.fdMap.root.toList.map MapNode.key).Nodup := by
    rw [List.nodup_iff_pairwise_ne, List.pairwise_map]
    exact h.wf.sorted.imp fun hlt => ne_of_lt (compare_lt_iff_lt.mp hlt)
  have hsub : (s.fdMap.root.toList.map MapNode.key).toFinset ⊆ Finset.Ico (0 : Int) (2 ^ 31) := by
    intro k hk
    obtain ⟨x, hx, rfl⟩ := List.mem_map.mp (List.mem_toFinset.mp hk)
    exact Finset.mem_Ico.mpr (h.keys x hx)
  have hcard := Finset.card_le_card hsub
  rwa [List.toFinset_card_of_nodup hnodup, List.length_map, Int.card_Ico, ← h.wf.size] at hcard

theorem mem_of_erased {t t' : MapTree Int Stream} {it : MapNode Int Stream} {u v : List (MapNode Int Stream)}
    (hold : t.toList = u ++ it :: v) (hnew : t'.toList = u ++ v) (x : MapNode Int Stream) (hx : x ∈ t'.toList) :
    x ∈ t.toList := by
  rw [hnew] at hx
  rw [hold]
  exact (List.mem_append.mp hx).elim (List.mem_append_left _) fun hv =>
    List.mem_append_right _ (List.mem_cons_of_mem _ hv)

theorem mem_of_inserted {t t' : MapTree Int Stream} {it : MapNode Int Stream} {u v : List (MapNode Int Stream)}
    (hold : t.toList = u ++ v) (hnew : t'.toList = u ++ it :: v) (x : MapNode Int Stream) (hx : x ∈ t'.toList) :
    x = it ∨ x ∈ t.toList := by
  rw [hnew] at hx
  rw [hold]
  rcases List.mem_append.mp hx with hu | hv
  · exact .inr (List.mem_append_left _ hu)
  · exact (List.mem_cons.mp hv).imp_right (List.mem_append_right _)

/-! ## The free descriptor -/

theorem freeFdFrom_some {k : Nat} {i : Int} (h : freeFdFrom m k i = some fd) :
    IsLeast {j | i ≤ j ∧ mapFind compare m j = none} fd ∧ fd < i + k := by
  induction k generalizing i with
  | zero => cases h
  | succ k ih =>
    unfold freeFdFrom at h
    by_cases hi : (mapFind compare m i).isNone = true
    · rw [if_pos hi] at h
      cases h
      exact ⟨⟨⟨le_refl _, Option.isNone_iff_eq_none.mp hi⟩, fun j hj => hj.1⟩, by omega⟩
    · rw [if_neg hi] at h
      obtain ⟨⟨⟨hle, hnone⟩, hleast⟩, hlt⟩ := ih h
      refine ⟨⟨⟨by omega, hnone⟩, fun j hj => ?_⟩, by omega⟩
      rcases eq_or_lt_of_le hj.1 with rfl | hij
      · exact absurd (Option.isNone_iff_eq_none.mpr hj.2) hi
      · exact hleast ⟨by omega, hj.2⟩

theorem freeFdFrom_none {k : Nat} {i : Int} (h : freeFdFrom m k i = none) {j : Int} (hij : i ≤ j) (hj : j < i + k) :
    mapFind compare m j ≠ none := by
  induction k generalizing i with
  | zero => omega
  | succ k ih =>
    unfold freeFdFrom at h
    by_cases hi : (mapFind compare m i).isNone = true
    · rw [if_pos hi] at h
      cases h
    · rw [if_neg hi] at h
      rcases eq_or_lt_of_le hij with rfl | hlt
      · exact fun hnone => hi (Option.isNone_iff_eq_none.mpr hnone)
      · exact ih h (by omega) (by omega)

/-- The descriptor found is the smallest that is free. -/
theorem findFreeFd_some (h : findFreeFd s.fdMap = some fd) :
    IsLeast {k | 3 ≤ k ∧ s.live k = none} fd ∧ fd < 2 ^ 31 := by
  simp only [live_eq_none_iff]
  exact freeFdFrom_some h

theorem findFreeFd_none (h : findFreeFd s.fdMap = none) : ¬ ∃ k : Int, 3 ≤ k ∧ k < 2 ^ 31 ∧ s.live k = none := by
  rintro ⟨k, hle, hlt, hfree⟩
  exact freeFdFrom_none h hle hlt (live_eq_none_iff.mp hfree)

end Live

/-! ## One call -/

section Calls

variable {s : FdState}

/-- `map_insert` under a free descriptor. -/
theorem FdInv.insert (h : FdInv s) {fd : Int} (hfree : s.live fd = none) (hlow : 3 ≤ fd) (hhigh : fd < 2 ^ 31)
    (addr : MapAddr) :
    ∃ m, mapInsert compare s.fdMap fd s.opened (some addr) = some (true, m) ∧
      ({ s with fdMap := m } : FdState).live = Function.update s.live fd (some s.opened) ∧
      FdInv { s with fdMap := m, opened := s.opened + 1 } := by
  obtain ⟨res, hres, hins⟩ := h.wf.insert fd s.opened (some addr)
  cases hins with
  | present _ hfind => cases (live_eq_none_iff.mp hfree).symm.trans hfind
  | refused _ _ hwhy =>
    rcases hwhy with hmem | hdeep
    · cases hmem
    · have hsize := h.size_le
      omega
  | @added _ m u v _ hwf hold hnew =>
    have hlive : ({ s with fdMap := m } : FdState).live = Function.update s.live fd (some s.opened) := by
      funext k
      change (mapFind compare m k).map MapNode.data = _
      rw [mapFind, findNode_add hwf.sorted hold hnew k, Function.update_apply]
      simp only [compare_eq_iff_eq]
      split_ifs <;> rfl
    have hmem : ∀ x ∈ m.root.toList, x = ⟨addr, fd, s.opened⟩ ∨ x ∈ s.fdMap.root.toList := mem_of_inserted hold hnew
    refine ⟨m, hres, hlive, hwf, fun x hx => ?_, fun x hx => ?_, fun σ hσ => Nat.lt_succ_of_lt (h.closed σ hσ), ?_⟩
    · rcases hmem x hx with rfl | hx
      · exact ⟨le_trans (by decide) hlow, hhigh⟩
      · exact h.keys x hx
    · rcases hmem x hx with rfl | hx
      · exact Nat.lt_succ_self _
      · exact Nat.lt_succ_of_lt (h.data x hx)
    · -- no other descriptor has the new stream
      have hnone : ∀ k, s.live k ≠ some s.opened := fun k hk => by
        obtain ⟨x, hx, -, hdata⟩ := exists_node h.wf hk
        exact absurd (h.data x hx) (hdata ▸ lt_irrefl _)
      have hlive' : ({ s with fdMap := m, opened := s.opened + 1 } : FdState).live =
        Function.update s.live fd (some s.opened) := hlive
      constructor
      · intro k k' σ hk hσ hσ'
        rw [hlive', Function.update_apply] at hσ hσ'
        split_ifs at hσ hσ' with heq heq' heq'
        · rw [heq, heq']
        · cases hσ
          exact absurd hσ' (hnone k')
        · cases hσ'
          exact absurd hσ (hnone k)
        · exact h.sound.own k k' σ hk hσ hσ'
      · intro k σ hσ hclosed
        rw [hlive', Function.update_apply] at hσ
        split_ifs at hσ with heq
        · cases hσ
          exact absurd (h.closed _ hclosed) (lt_irrefl _)
        · exact h.sound.notClosed k σ hσ hclosed

/-- `map_erase` of a descriptor in use, after `fclose`. -/
theorem FdInv.erase (h : FdInv s) {fd : Int} {it : MapNode Int Stream} (hfind : mapFind compare s.fdMap fd = some it)
    (hlow : 3 ≤ fd) :
    ∃ m, mapErase compare s.fdMap (some it) = some m ∧
      ({ s with fdMap := m } : FdState).live = Function.update s.live fd none ∧
      FdInv { s with fdMap := m, closed := it.data :: s.closed } := by
  obtain ⟨hit, hkey⟩ := (mapFind_iff h.wf).mp hfind
  obtain ⟨m, u, v, herase, hwf, hold, hnew⟩ := h.wf.erase hit
  have hlive : ({ s with fdMap := m } : FdState).live = Function.update s.live fd none := by
    funext k
    change (mapFind compare m k).map MapNode.data = _
    rw [h.wf.find_erased hit herase, hkey, Function.update_apply]
    simp only [compare_eq_iff_eq]
    split_ifs <;> rfl
  have hmem : ∀ x ∈ m.root.toList, x ∈ s.fdMap.root.toList := mem_of_erased hold hnew
  have hfd : s.live fd = some it.data := by
    unfold FdState.live
    rw [hfind]
    rfl
  have hlive' : ({ s with fdMap := m, closed := it.data :: s.closed } : FdState).live =
    Function.update s.live fd none := hlive
  refine ⟨m, herase, hlive, hwf, fun x hx => h.keys x (hmem x hx), fun x hx => h.data x (hmem x hx), fun σ hσ => ?_, ?_⟩
  · rcases List.mem_cons.mp hσ with rfl | hσ
    · exact h.data it hit
    · exact h.closed σ hσ
  · constructor
    · intro k k' σ hk hσ hσ'
      rw [hlive', Function.update_apply] at hσ hσ'
      split_ifs at hσ hσ'
      exact h.sound.own k k' σ hk hσ hσ'
    · intro k σ hσ hclosed
      rw [hlive', Function.update_apply] at hσ
      split_ifs at hσ with heq
      rcases List.mem_cons.mp hclosed with rfl | hclosed
      · exact heq (h.sound.own fd k it.data hlow hfd hσ)
      · exact h.sound.notClosed k σ hσ hclosed

theorem FdInv.open_step (h : FdInv s) {mem : GuestMemory} {host : OpenHost} {name flags mode : Word}
    (hmeets : (FdCall.open mem host name flags mode).Meets s) :
    ∃ s' a0, syscallOpen mem host name flags mode s = some (s', a0) ∧
      OpenSound (openHandle mem host name flags mode) s s' a0 ∧ FdInv s' := by
  by_cases hopens : openHandle mem host name flags mode = true
  · obtain ⟨hnode, hfree⟩ := hmeets hopens
    obtain ⟨addr, haddr⟩ := Option.ne_none_iff_exists'.mp hnode
    cases hfd : findFreeFd s.fdMap with
    | none => exact absurd hfree (findFreeFd_none hfd)
    | some fd =>
      obtain ⟨hleast, hhigh⟩ := findFreeFd_some hfd
      obtain ⟨m, hins, hlive, hinv⟩ := h.insert hleast.1.2 hleast.1.1 hhigh addr
      refine ⟨_, BitVec.ofInt 32 fd, ?_, ?_, hinv⟩
      · rw [syscallOpen, if_pos hopens, hfd, haddr]
        change ((mapInsert compare s.fdMap fd s.opened (some addr)).bind _) = _
        rw [hins]
        rfl
      · rw [OpenSound, if_pos hopens]
        exact ⟨fd, hleast, hhigh, rfl, hlive⟩
  · refine ⟨s, -1, if_neg hopens, ?_, h⟩
    rw [OpenSound, if_neg hopens]
    exact ⟨rfl, rfl⟩

/-- `close` of a standard stream. -/
theorem syscallClose_low {env : CloseEnv} {fclose : Bool} {fd : Word} (hlow : ¬ 3 ≤ fd.toNat) :
    ∃ a0, syscallClose env fclose fd s = some (s, a0) := by
  unfold syscallClose
  by_cases hguard : env.system = false ∧ fd.toNat < 3 ∧ env.onExit = false ∧ env.exitAddr ≠ 0
  · exact ⟨-1, if_pos hguard⟩
  · rw [if_neg hguard, if_neg hlow]
    exact ⟨0, rfl⟩

/-- `close` of any other descriptor. -/
theorem syscallClose_high {env : CloseEnv} {fclose : Bool} {fd : Word} (hlow : 3 ≤ fd.toNat) :
    syscallClose env fclose fd s = match mapFind compare s.fdMap fd.toInt with
      | none => some (s, 0)
      | some it =>
        if fclose = false then some ({ s with closed := it.data :: s.closed }, -1)
        else (mapErase compare s.fdMap (some it)).bind fun m =>
          some ({ s with fdMap := m, closed := it.data :: s.closed }, 0) := by
  unfold syscallClose
  rw [if_neg fun hguard => absurd hguard.2.1 (Nat.not_lt.mpr hlow), if_pos hlow]
  rfl

theorem FdInv.close_step (h : FdInv s) {env : CloseEnv} {fclose : Bool} {fd : Word}
    (hmeets : (FdCall.close env fclose fd).Meets s) :
    ∃ s' a0, syscallClose env fclose fd s = some (s', a0) ∧ CloseSound fd s s' a0 ∧ FdInv s' := by
  by_cases hlow : 3 ≤ fd.toNat
  · rw [syscallClose_high hlow]
    cases hfind : mapFind compare s.fdMap fd.toInt with
    | none =>
      refine ⟨s, 0, rfl, ?_, h⟩
      rw [CloseSound, if_pos ⟨hlow, rfl⟩, Function.update_eq_self_iff.mpr (live_eq_none_iff.mpr hfind).symm]
    | some it =>
      obtain ⟨hit, hkey⟩ := (mapFind_iff h.wf).mp hfind
      have hlive : s.live fd.toInt ≠ none := fun hnone => by cases (live_eq_none_iff.mp hnone).symm.trans hfind
      have hle : 3 ≤ fd.toInt := by
        have hpos := (h.keys it hit).1
        rw [hkey, BitVec.toInt_eq_toNat_cond] at hpos
        rw [BitVec.toInt_eq_toNat_cond]
        have hlt := fd.isLt
        split_ifs at hpos ⊢ <;> omega
      obtain ⟨m, herase, hgone, hinv⟩ := h.erase hfind hle
      refine ⟨_, 0, ?_, ?_, hinv⟩
      · change (if fclose = false then _ else _) = _
        rw [hmeets hlow hlive, if_neg Bool.true_eq_false.mp, herase]
        rfl
      · rw [CloseSound, if_pos ⟨hlow, rfl⟩]
        exact hgone
  · have hkept : ∃ a0, syscallClose env fclose fd s = some (s, a0) := syscallClose_low hlow
    obtain ⟨a0, hrun⟩ := hkept
    exact ⟨s, a0, hrun, (if_neg fun hc => hlow hc.1).symm, h⟩

theorem FdInv.step (h : FdInv s) {c : FdCall} (hmeets : c.Meets s) :
    ∃ s' a0, c.run s = some (s', a0) ∧ CallSound s s' a0 c ∧ FdInv s' := by
  cases c with
  | «open» mem host name flags mode => exact h.open_step hmeets
  | close env fclose fd => exact h.close_step hmeets

/-- A call that is not met: the new stream is lost, or a closed one stays. -/
theorem FdInv.not_step (h : FdInv s) {c : FdCall} (hmeets : ¬ c.Meets s) {s' : FdState} {a0 : Word}
    (hrun : c.run s = some (s', a0)) (hcall : CallSound s s' a0 c) : ¬ s'.Sound := by
  cases c with
  | «open» mem host name flags mode =>
    obtain ⟨hopens, hnot⟩ := Classical.not_imp.mp hmeets
    change syscallOpen mem host name flags mode s = some (s', a0) at hrun
    change OpenSound (openHandle mem host name flags mode) s s' a0 at hcall
    rw [OpenSound, if_pos hopens] at hcall
    obtain ⟨fd, hleast, hhigh, -, hlive⟩ := hcall
    have hnode : host.node = none := by
      by_contra hne
      exact hnot ⟨hne, fd, hleast.1.1, hhigh, hleast.1.2⟩
    rw [syscallOpen, if_pos hopens, hnode] at hrun
    obtain ⟨fd', -, hrest⟩ := Option.bind_eq_some_iff.mp hrun
    obtain ⟨⟨added, m⟩, hins, hlast⟩ := Option.bind_eq_some_iff.mp hrest
    have hsame : m = s.fdMap := by
      obtain ⟨res, hres, hins'⟩ := h.wf.insert fd' s.opened none
      rw [hins] at hres
      cases hres
      cases hins' <;> rfl
    cases hlast
    subst hsame
    have hnew := congrFun hlive fd
    rw [Function.update_self] at hnew
    exact absurd (hnew.symm.trans hleast.1.2) (Option.some_ne_none _)
  | close env fclose fd =>
    obtain ⟨hlow, hnot⟩ := Classical.not_imp.mp hmeets
    obtain ⟨hlive, hfail⟩ := Classical.not_imp.mp hnot
    change syscallClose env fclose fd s = some (s', a0) at hrun
    rw [syscallClose_high hlow] at hrun
    cases hfind : mapFind compare s.fdMap fd.toInt with
    | none => exact absurd (live_eq_none_iff.mpr hfind) hlive
    | some it =>
      rw [hfind] at hrun
      change (if fclose = false then _ else _) = _ at hrun
      rw [if_pos (Bool.eq_false_iff.mpr hfail)] at hrun
      cases hrun
      intro hsound
      refine hsound.notClosed fd.toInt it.data ?_ List.mem_cons_self
      change (mapFind compare s.fdMap fd.toInt).map MapNode.data = _
      rw [hfind]
      rfl

end Calls

/-! ## The standard streams -/

theorem FdStart.dropFd {m : RbMap Int Stream} {n : Nat} (h : FdStart { fdMap := m, opened := n }) (fd : Int) :
    ∃ m', Rv32emu.dropFd m fd = some m' ∧ FdStart { fdMap := m', opened := n } := by
  unfold Rv32emu.dropFd
  cases hfind : mapFind compare m fd with
  | none => exact ⟨m, rfl, h⟩
  | some it =>
    obtain ⟨m', u, v, hrun, hwf, hold, hnew⟩ := h.wf.erase ((mapFind_iff h.wf).mp hfind).1
    have hmem : ∀ x ∈ m'.root.toList, x ∈ m.root.toList := mem_of_erased hold hnew
    exact ⟨m', hrun, hwf, fun x hx => h.keys x (hmem x hx), fun x hx => h.data x (hmem x hx), rfl⟩

theorem FdStart.insert {m : RbMap Int Stream} {n : Nat} (h : FdStart { fdMap := m, opened := n }) {fd : Int}
    (hfd : 0 ≤ fd ∧ fd < 3) {file : Stream} (hfile : file < n) (node : Option MapAddr) :
    ∃ added m', mapInsert compare m fd file node = some (added, m') ∧ FdStart { fdMap := m', opened := n } := by
  obtain ⟨⟨added, m'⟩, hins, hcases⟩ := h.wf.insert fd file node
  refine ⟨added, m', hins, ?_⟩
  generalize hres : (added, m') = res at hcases
  cases hcases with
  | present _ _ =>
    cases hres
    exact h
  | refused _ _ _ =>
    cases hres
    exact h
  | added addr _ hwf hold hnew =>
    cases hres
    refine ⟨hwf, fun x hx => ?_, fun x hx => ?_, rfl⟩
    · rcases mem_of_inserted hold hnew x hx with rfl | hx
      · exact hfd
      · exact h.keys x hx
    · rcases mem_of_inserted hold hnew x hx with rfl | hx
      · exact hfile
      · exact h.data x hx

/-- `rv_remap_stdstream` keeps to the descriptors of the standard streams. -/
theorem FdStart.remapOne {m : RbMap Int Stream} {n : Nat} (h : FdStart { fdMap := m, opened := n }) {fsp : FdStreamPair}
    (hfile : ∀ file ∈ fsp.file, file < n) :
    ∃ m', Rv32emu.remapOne m fsp = some m' ∧ FdStart { fdMap := m', opened := n } := by
  unfold Rv32emu.remapOne
  cases hpair : fsp.file with
  | none => exact ⟨m, rfl, h⟩
  | some file =>
    by_cases hstd : fsp.fd ≠ 0 ∧ fsp.fd ≠ 1 ∧ fsp.fd ≠ 2
    · exact ⟨m, if_pos hstd, h⟩
    · obtain ⟨m₁, hdrop, h₁⟩ := h.dropFd fsp.fd
      have hfd : 0 ≤ fsp.fd ∧ fsp.fd < 3 := by omega
      obtain ⟨added, m', hins, h'⟩ := h₁.insert hfd (hfile file hpair) fsp.node
      refine ⟨m', ?_, h'⟩
      change (if _ then _ else (Rv32emu.dropFd m fsp.fd).bind _) = _
      rw [if_neg hstd, hdrop]
      change ((mapInsert compare m₁ fsp.fd file fsp.node).bind _) = _
      rw [hins]
      rfl

theorem FdStart.remap {m : RbMap Int Stream} {n : Nat} (h : FdStart { fdMap := m, opened := n })
    {fsp : List FdStreamPair} (hfile : ∀ pair ∈ fsp, ∀ file ∈ pair.file, file < n) :
    ∃ m', rvRemapStdstream m fsp = some m' ∧ FdStart { fdMap := m', opened := n } := by
  induction fsp generalizing m with
  | nil => exact ⟨m, rfl, h⟩
  | cons pair rest ih =>
    obtain ⟨m₁, hone, h₁⟩ := h.remapOne (hfile pair List.mem_cons_self)
    obtain ⟨m', hrest, h'⟩ := ih h₁ fun p hp => hfile p (List.mem_cons_of_mem _ hp)
    refine ⟨m', ?_, h'⟩
    unfold rvRemapStdstream
    rw [List.foldlM_cons, hone]
    exact hrest

/-- The address of the `k`th of the nodes that lie in a row. -/
def MapAddr.nth (k : Nat) : MapAddr := ⟨2 * k, Nat.mul_mod_right 2 k⟩

/-- The table of a guest whose standard streams are the first three. -/
def stdFds : FdState where
  fdMap :=
    { root := .node .black (.node .black .nil ⟨.nth 1, 0, 0⟩ .nil) ⟨.nth 2, 1, 1⟩
        (.node .black .nil ⟨.nth 3, 2, 2⟩ .nil)
      size := 3 }
  opened := 3

theorem stdFds_start : FdStart stdFds := by
  have hnew : FdStart { fdMap := {}, opened := 3 } :=
    ⟨RbMap.wf_new, fun x hx => absurd hx List.not_mem_nil, fun x hx => absurd hx List.not_mem_nil, rfl⟩
  have hpairs : ∃ m, rvRemapStdstream {} [⟨0, some 0, some ⟨2, rfl⟩⟩, ⟨1, some 1, some ⟨4, rfl⟩⟩,
      ⟨2, some 2, some ⟨6, rfl⟩⟩] = some m ∧ FdStart { fdMap := m, opened := 3 } := hnew.remap (by decide)
  obtain ⟨m, hrun, h⟩ := hpairs
  have hstd : m = stdFds.fdMap := Option.some.inj (hrun.symm.trans rfl)
  rw [hstd] at h
  exact h

/-! ## Runs -/

theorem FdInv.run_iff {s : FdState} (h : FdInv s) (calls : List FdCall) : RunSound s calls ↔ RunMeets s calls := by
  induction calls generalizing s with
  | nil => exact iff_of_true h.sound trivial
  | cons c rest ih =>
    by_cases hmeets : c.Meets s
    · obtain ⟨s', a0, hrun, hcall, hinv⟩ := h.step hmeets
      rw [RunSound, RunMeets]
      constructor
      · rintro ⟨-, s₁, a₁, hrun₁, -, hrest⟩
        cases hrun.symm.trans hrun₁
        refine ⟨hmeets, fun s₂ a₂ hrun₂ => ?_⟩
        cases hrun.symm.trans hrun₂
        exact (ih hinv).mp hrest
      · rintro ⟨-, hrest⟩
        exact ⟨h.sound, s', a0, hrun, hcall, (ih hinv).mpr (hrest s' a0 hrun)⟩
    · refine iff_of_false ?_ fun hall => hmeets hall.1
      rintro ⟨-, s', a0, hrun, hcall, hrest⟩
      refine h.not_step hmeets hrun hcall ?_
      cases rest with
      | nil => exact hrest
      | cons c' rest => exact hrest.1

/-- **The table stays sound exactly as long as** `fclose` succeeds on the streams in it and `open` gets a node and a
descriptor for its stream. -/
theorem fdRun_sound_iff {s : FdState} (h : FdStart s) (calls : List FdCall) : RunSound s calls ↔ RunMeets s calls :=
  h.inv.run_iff calls

def nameMemory : GuestMemory where
  size := 2
  bytes a := if a = 0 then 0x66 else 0
  pos := by decide
  size_le := by decide

/-- A file is opened, and closed again. -/
theorem fdRun_sound_opened : RunSound stdFds
    [.open nameMemory ⟨true, fun _ _ => true, some ⟨8, rfl⟩⟩ 0 0 0, .close ⟨true, false, 0⟩ true 3] :=
  (fdRun_sound_iff stdFds_start _).mpr ⟨fun _ => ⟨Option.some_ne_none _, 3, le_rfl, by decide, by decide⟩,
    fun _ _ _ => ⟨fun _ _ => rfl, fun _ _ _ => trivial⟩⟩

/-- A file is opened, and `fclose` fails on it: the stream stays in the table. -/
theorem fdRun_stale : ¬ RunSound stdFds
    [.open nameMemory ⟨true, fun _ _ => true, some ⟨8, rfl⟩⟩ 0 0 0, .close ⟨true, false, 0⟩ false 3] := by
  rw [stdFds_start.inv.run_iff]
  rintro ⟨-, hrest⟩
  have hlive := (hrest _ 3 rfl).1 (by decide)
  exact absurd (hlive (by decide)) Bool.false_ne_true

end Rv32emu
