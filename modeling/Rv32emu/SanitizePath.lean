import Rv32emu.LexPath
import Mathlib.Data.List.TakeWhile
import Mathlib.Tactic.Common

/-!
# `sanitize_path`

The path is cleaned in one pass, in the buffer of the result: `r` is the next byte to read, `w` the next to write, and
`..` goes back no further than `dotdot`.

* `PathState`, `sanitizeStep`, `sanitizeLoop`, `sanitizePath` : as in the source; a write outside the buffer is `none`;
* `cString` : the string in a buffer;
* `PathInv` : the bytes written are those of the elements read so far. `PathInv.step`, `PathInv.loop`;
* `sanitizePath_normal` : the result is the normal form of the path;
* `sanitizePath_stays_iff` : the buffer holds the result and its terminator, unless the path is empty.
-/

namespace Rv32emu

open LexPath

/-! ## The function -/

def slash : BitVec 8 := 0x2f

def dotByte : BitVec 8 := 0x2e

structure PathState where
  r : Nat := 0
  w : Nat := 0
  dotdot : Nat := 0
  ret : Nat → BitVec 8 := fun _ => 0

namespace PathState

/-- `ret[w] = b; w++`, in a buffer for `n` bytes and a terminator. -/
def put (n : Nat) (b : BitVec 8) (s : PathState) : Option PathState :=
  if s.w < n + 1 then some { s with w := s.w + 1, ret := Function.update s.ret s.w b } else none

/-- The same, if `c` holds. -/
def putIf (c : Prop) [Decidable c] (n : Nat) (b : BitVec 8) (s : PathState) : Option PathState :=
  if c then s.put n b else some s

/-- `while (w > dotdot && ret[w] != '/') w--`. -/
def backUp (ret : Nat → BitVec 8) (dotdot : Nat) : Nat → Nat
  | 0 => 0
  | w + 1 => if dotdot < w + 1 ∧ ret (w + 1) ≠ slash then backUp ret dotdot w else w + 1

def copyElement (n : Nat) : List (BitVec 8) → PathState → Option PathState
  | [], s => some s
  | b :: rest, s => if b = slash then some s else (s.put n b).bind fun s => copyElement n rest { s with r := s.r + 1 }

end PathState

open PathState

/-- The `..` element, behind it. -/
def sanitizeUp (n : Nat) (root : Bool) (s : PathState) : Option PathState :=
  if s.dotdot < s.w then some { s with w := backUp s.ret s.dotdot (s.w - 1) }
  else if root = false then do
    let s ← s.putIf (0 < s.w) n slash
    let s ← s.put n dotByte
    let s ← s.put n dotByte
    return { s with dotdot := s.w }
  else some s

/-- One turn of the loop; `input` ends where the string does. -/
def sanitizeStep (input : List (BitVec 8)) (root : Bool) (s : PathState) : Option PathState :=
  let n := input.length
  if input[s.r]? = some slash then some { s with r := s.r + 1 }
  else if input[s.r]? = some dotByte ∧ (s.r + 1 = n ∨ input[s.r + 1]? = some slash) then some { s with r := s.r + 1 }
  else if input[s.r]? = some dotByte ∧ input[s.r + 1]? = some dotByte ∧
      (s.r + 2 = n ∨ input[s.r + 2]? = some slash) then
    sanitizeUp n root { s with r := s.r + 2 }
  else do
    let s ← s.putIf (root = true ∧ s.w ≠ 1 ∨ root = false ∧ s.w ≠ 0) n slash
    copyElement n (input.drop s.r) s

/-- `while (r < n)`, which runs `k` times at most. -/
def sanitizeLoop (input : List (BitVec 8)) (root : Bool) : Nat → PathState → Option PathState
  | 0, s => some s
  | k + 1, s => if s.r < input.length then (sanitizeStep input root s).bind (sanitizeLoop input root k) else some s

def sanitizeStart (n : Nat) (root : Bool) : Option PathState :=
  if root = true then (({} : PathState).put n slash).map fun s => { s with r := 1, dotdot := 1 } else some {}

def maxPathLen : Nat := 1024

/-- `sanitize_path`: the buffer, if `calloc` succeeds. -/
def sanitizePath (path : List (BitVec 8)) : Option (List (BitVec 8)) :=
  let input := path.take maxPathLen
  let n := input.length
  if n = 0 then some [dotByte]
  else do
    let root : Bool := input.head? = some slash
    let s ← sanitizeStart n root
    let s ← sanitizeLoop input root n s
    let s ← s.putIf (s.w = 0) n dotByte
    -- the rest of the buffer is cleared
    return (List.range (n + 1)).map fun i => if i < s.w then s.ret i else 0

def cString (buf : List (BitVec 8)) : List (BitVec 8) := buf.takeWhile (· ≠ 0)

/-! ## Writing -/

namespace PathState

def out (s : PathState) : List (BitVec 8) := (List.range s.w).map s.ret

theorem length_out (s : PathState) : s.out.length = s.w := by
  unfold out
  rw [List.length_map, List.length_range]

theorem getElem?_out (s : PathState) {i : Nat} (hi : i < s.w) : s.out[i]? = some (s.ret i) := by
  unfold out
  rw [List.getElem?_map, List.getElem?_range hi]
  rfl

/-- `k` bytes have been read and `e` has been written. -/
structure Wrote (s s' : PathState) (k : Nat) (e : List (BitVec 8)) : Prop where
  r : s'.r = s.r + k
  dotdot : s'.dotdot = s.dotdot
  out : s'.out = s.out ++ e

theorem Wrote.w {s s' : PathState} {k : Nat} {e : List (BitVec 8)} (h : Wrote s s' k e) : s'.w = s.w + e.length := by
  rw [← length_out, h.out, List.length_append, length_out]

theorem Wrote.refl (s : PathState) : Wrote s s 0 [] := ⟨rfl, rfl, (List.append_nil _).symm⟩

theorem Wrote.trans {s s₁ s₂ : PathState} {k k' : Nat} {e e' : List (BitVec 8)} (h : Wrote s s₁ k e)
    (h' : Wrote s₁ s₂ k' e') : Wrote s s₂ (k + k') (e ++ e') :=
  ⟨by rw [h'.r, h.r, Nat.add_assoc], h'.dotdot.trans h.dotdot, by rw [h'.out, h.out, List.append_assoc]⟩

theorem put_wrote {n : Nat} {s : PathState} (h : s.w ≤ n) (b : BitVec 8) :
    ∃ s', s.put n b = some s' ∧ Wrote s s' 0 [b] := by
  refine ⟨_, if_pos (by omega), rfl, rfl, ?_⟩
  change (List.range (s.w + 1)).map (Function.update s.ret s.w b) = (List.range s.w).map s.ret ++ [b]
  rw [List.range_succ, List.map_append, List.map_singleton, Function.update_self]
  congr 1
  refine List.map_congr_left fun i hi => Function.update_of_ne ?_ ..
  exact (List.mem_range.mp hi).ne

theorem copyElement_wrote {n : Nat} {e tail : List (BitVec 8)} {s : PathState} (hsep : slash ∉ e)
    (htail : ∀ b ∈ tail.head?, b = slash) (h : s.w + e.length ≤ n + 1) :
    ∃ s', copyElement n (e ++ tail) s = some s' ∧ Wrote s s' e.length e := by
  induction e generalizing s with
  | nil =>
    refine ⟨s, ?_, .refl s⟩
    cases tail with
    | nil => rfl
    | cons b tail => exact if_pos (htail b rfl)
  | cons b e ih =>
    rw [List.length_cons] at h
    obtain ⟨s₁, hput, hwrote⟩ := put_wrote (n := n) (by omega : s.w ≤ n) b
    have hw := hwrote.w
    rw [List.length_singleton] at hw
    have hw₁ : ({ s₁ with r := s₁.r + 1 } : PathState).w + e.length ≤ n + 1 := by
      change s₁.w + e.length ≤ n + 1
      omega
    obtain ⟨s', hcopy, hwrote'⟩ := ih (fun hmem => hsep (List.mem_cons_of_mem b hmem)) hw₁
    refine ⟨s', ?_, ?_⟩
    · have hb : b ≠ slash := fun hb => hsep (hb ▸ List.mem_cons_self)
      rw [List.cons_append, copyElement, if_neg hb, hput]
      exact hcopy
    · have hread : Wrote s { s₁ with r := s₁.r + 1 } 1 [b] := ⟨by rw [hwrote.r], hwrote.dotdot, hwrote.out⟩
      rw [List.length_cons, Nat.add_comm]
      exact hread.trans hwrote'

/-- Going back stops where it has to, or behind the last separator. -/
theorem backUp_eq {ret : Nat → BitVec 8} {dotdot b w : Nat} (hb : b ≤ w) (hdotdot : dotdot ≤ b)
    (hstop : b = dotdot ∨ ret b = slash) (hret : ∀ i, b < i → i ≤ w → ret i ≠ slash) : backUp ret dotdot w = b := by
  induction w with
  | zero => exact (Nat.le_zero.mp hb).symm
  | succ w ih =>
    unfold backUp
    by_cases hw : b = w + 1
    · subst hw
      refine if_neg fun h => ?_
      rcases hstop with heq | hslash
      · omega
      · exact h.2 hslash
    · rw [if_pos ⟨by omega, hret (w + 1) (by omega) le_rfl⟩]
      exact ih (by omega) fun i hi hiw => hret i hi (by omega)

end PathState

/-! ## What the loop reads -/

/-- The next element of the input from `r` on, and what follows it. -/
structure Splits (input : List (BitVec 8)) (r : Nat) (e tail : List (BitVec 8)) : Prop where
  drop : input.drop r = e ++ tail
  no_slash : slash ∉ e
  tail : ∀ b ∈ tail.head?, b = slash

namespace Splits

variable {input e tail : List (BitVec 8)} {r : Nat}

theorem exists_splits (input : List (BitVec 8)) (r : Nat) : ∃ e tail, Splits input r e tail := by
  refine ⟨(input.drop r).takeWhile (· ≠ slash), (input.drop r).dropWhile (· ≠ slash),
    List.takeWhile_append_dropWhile.symm, fun hmem => ?_, fun b hb => ?_⟩
  · have hne := List.mem_takeWhile_imp hmem
    simp at hne
  · have hne := List.head?_dropWhile_not (· ≠ slash) (input.drop r)
    rw [hb] at hne
    simpa using hne

theorem get (h : Splits input r e tail) (i : Nat) : input[r + i]? = (e ++ tail)[i]? := by
  rw [← h.drop, List.getElem?_drop]

theorem end_iff (h : Splits input r e tail) (hr : r < input.length) (k : Nat) :
    r + k = input.length ↔ e.length + tail.length = k := by
  have hlength := congrArg List.length h.drop
  rw [List.length_drop, List.length_append] at hlength
  omega

theorem slash_iff (h : Splits input r e tail) (hr : r < input.length) : input[r]? = some slash ↔ e = [] := by
  have hget := h.get 0
  have hend := h.end_iff hr 0
  rw [Nat.add_zero] at hget hend
  rw [hget]
  cases e with
  | nil =>
    cases tail with
    | nil => exact absurd (hend.mpr rfl) (Nat.ne_of_lt hr)
    | cons b tail => simp [h.tail b rfl]
  | cons b e =>
    have hb : b ≠ slash := fun hb => h.no_slash (hb ▸ List.mem_cons_self)
    simp [hb]

theorem ne_slash (h : Splits input r e tail) {b : BitVec 8} (hb : b ∈ e) : b ≠ slash := fun heq => h.no_slash (heq ▸ hb)

theorem dotByte_ne_slash : dotByte ≠ slash := by decide

theorem dot_iff (h : Splits input r e tail) (hr : r < input.length) :
    (input[r]? = some dotByte ∧ (r + 1 = input.length ∨ input[r + 1]? = some slash)) ↔ e = [dotByte] := by
  have hget := h.get 0
  rw [Nat.add_zero] at hget
  rw [h.end_iff hr 1, h.get 1, hget]
  match e, tail, h with
  | [], [], h => simp
  | [], b :: tail, h =>
    have hb := h.tail b rfl
    simp [hb, dotByte_ne_slash.symm]
  | [a], [], h => simp
  | [a], b :: tail, h => simp [h.tail b rfl]
  | a :: b :: e, tail, h =>
    have hb : b ≠ slash := h.ne_slash (by simp)
    have hlength : e.length + 1 + 1 + tail.length ≠ 1 := by omega
    simp [hb, hlength]

theorem up_iff (h : Splits input r e tail) (hr : r < input.length) :
    (input[r]? = some dotByte ∧ input[r + 1]? = some dotByte ∧
        (r + 2 = input.length ∨ input[r + 2]? = some slash)) ↔ e = [dotByte, dotByte] := by
  have hget := h.get 0
  rw [Nat.add_zero] at hget
  rw [h.end_iff hr 2, h.get 1, h.get 2, hget]
  match e, tail, h with
  | [], [], h => simp
  | [], b :: tail, h =>
    have hb := h.tail b rfl
    simp [hb, dotByte_ne_slash.symm]
  | [a], [], h => simp
  | [a], b :: tail, h => simp [h.tail b rfl, dotByte_ne_slash.symm]
  | [a, b], [], h => simp
  | [a, b], c :: tail, h => simp [h.tail c rfl]
  | a :: b :: c :: e, tail, h =>
    have hc : c ≠ slash := h.ne_slash (by simp)
    have hlength : e.length + 1 + 1 + 1 + tail.length ≠ 2 := by omega
    simp [hc, hlength]

theorem drop_add (h : Splits input r e tail) : input.drop (r + e.length) = tail := by
  rw [← List.drop_drop, h.drop, List.drop_left]

theorem length_le (h : Splits input r e tail) (hr : r ≤ input.length) : r + e.length ≤ input.length := by
  have hlength := congrArg List.length h.drop
  rw [List.length_drop, List.length_append] at hlength
  omega

end Splits

/-! ## The invariant -/

/-- The leading `..` of a relative path. -/
def ups (st : List (List (BitVec 8))) : List (List (BitVec 8)) := st.dropWhile (· ≠ [dotByte, dotByte])

/-- The bytes of the elements, the last one first. -/
abbrev text (root : Bool) (st : List (List (BitVec 8))) : List (BitVec 8) := body slash root st.reverse

/-- The bytes written are those of the elements that remain of what has been read. -/
structure PathInv (input : List (BitVec 8)) (s : PathState) (st : List (List (BitVec 8))) : Prop where
  canonical : Canonical slash dotByte (isRoot slash input) st
  out : s.out = text (isRoot slash input) st
  rest : ((input.drop s.r).splitOn slash).foldl (push dotByte (isRoot slash input)) st = remaining slash dotByte input
  r_le : s.r ≤ input.length
  w_le : s.w ≤ s.r
  /-- There is room for a separator in front of an element. -/
  room : st = [] ∨ s.w < s.r ∨ ∀ b ∈ (input.drop s.r).head?, b = slash
  dotdot : s.dotdot = (text (isRoot slash input) (ups st)).length

section Text

variable {root : Bool} {st : List (List (BitVec 8))} {e : List (BitVec 8)}

theorem ups_name (he : e ≠ [dotByte, dotByte]) : ups (e :: st) = ups st := by
  unfold ups
  rw [List.dropWhile_cons_of_pos (by simpa using he)]

theorem ups_up : ups ([dotByte, dotByte] :: st) = [dotByte, dotByte] :: st := by
  unfold ups
  rw [List.dropWhile_cons_of_neg (by simp)]

theorem text_nil : text root [] = if root then [slash] else [] := body_nil

/-- A further element, with a separator unless it is the first. -/
theorem text_cons (e : List (BitVec 8)) (st : List (List (BitVec 8))) :
    text root (e :: st) = text root st ++ ((if st = [] then [] else [slash]) ++ e) := by
  unfold text
  rw [List.reverse_cons]
  split_ifs with hst
  · rw [hst, List.reverse_nil, List.nil_append, body_single, List.nil_append]
  · rw [body_concat fun h => hst (List.reverse_eq_nil_iff.mp h), List.singleton_append]

theorem length_text_cons (e : List (BitVec 8)) (st : List (List (BitVec 8))) :
    (text root (e :: st)).length = (text root st).length + ((if st = [] then 0 else 1) + e.length) := by
  rw [text_cons, List.length_append, List.length_append]
  split_ifs <;> rfl

theorem length_text_nil_le (st : List (List (BitVec 8))) : (text root []).length ≤ (text root st).length := by
  induction st with
  | nil => exact Nat.le_refl _
  | cons e st ih =>
    rw [length_text_cons]
    omega

theorem length_text_lt (he : e ≠ []) (st : List (List (BitVec 8))) :
    (text root st).length < (text root (e :: st)).length := by
  have hpos := List.length_pos_of_ne_nil he
  rw [length_text_cons]
  omega

/-- Nothing but the root has been written exactly if there is no element. -/
theorem length_text_eq_iff (h : Canonical slash dotByte root st) :
    (text root st).length = (text root []).length ↔ st = [] := by
  constructor
  · intro hlength
    cases st with
    | nil => rfl
    | cons e st =>
      have hlt : (text root st).length < (text root (e :: st)).length :=
        length_text_lt (h.ne_nil e List.mem_cons_self) st
      have hle : (text root []).length ≤ (text root st).length := length_text_nil_le st
      omega
  · rintro rfl
    rfl

theorem length_text_ups_le (st : List (List (BitVec 8))) : (text root (ups st)).length ≤ (text root st).length := by
  induction st with
  | nil => exact Nat.le_refl _
  | cons e st ih =>
    by_cases he : e = [dotByte, dotByte]
    · rw [he, ups_up]
    · rw [ups_name he, length_text_cons]
      omega

theorem ups_eq (htop : ∀ e ∈ st.head?, e = [dotByte, dotByte]) : ups st = st := by
  cases st with
  | nil => rfl
  | cons e st =>
    rw [htop e rfl]
    exact ups_up

/-- Behind a separator come the bytes of the element. -/
theorem mem_of_getElem? {st : List (List (BitVec 8))} {j : Nat} (hj : 0 < j) {b : BitVec 8}
    (hb : ((if st = [] then [] else [slash]) ++ e)[j]? = some b) : b ∈ e := by
  split_ifs at hb with hst
  · exact List.mem_of_getElem? hb
  · obtain ⟨k, rfl⟩ := Nat.exists_eq_add_of_lt hj
    rw [List.singleton_append, Nat.zero_add, List.getElem?_cons_succ] at hb
    exact List.mem_of_getElem? hb

end Text

/-! ## The `..` element -/

section Up

variable {root : Bool} {st : List (List (BitVec 8))} {e : List (BitVec 8)} {s : PathState} {n : Nat}

theorem out_truncate (s : PathState) {b : Nat} (hb : b ≤ s.w) : ({ s with w := b } : PathState).out = s.out.take b := by
  change (List.range b).map s.ret = ((List.range s.w).map s.ret).take b
  rw [← List.map_take, List.take_range, Nat.min_eq_left hb]

theorem backUp_name (he : IsName slash dotByte e) (hout : s.out = text root (e :: st))
    (hdotdot : s.dotdot = (text root (ups (e :: st))).length) :
    s.dotdot < s.w ∧ backUp s.ret s.dotdot (s.w - 1) = (text root st).length := by
  have hw : s.w = (text root (e :: st)).length := by rw [← length_out, hout]
  have hlt : (text root st).length < (text root (e :: st)).length := length_text_lt he.ne_nil st
  have hups : (text root (ups st)).length ≤ (text root st).length := length_text_ups_le st
  rw [ups_name he.ne_up] at hdotdot
  have hget : ∀ i, (text root st).length ≤ i → i < s.w →
      ((if st = [] then [] else [slash]) ++ e)[i - (text root st).length]? = some (s.ret i) := by
    intro i hi hiw
    rw [← s.getElem?_out hiw, hout, text_cons, List.getElem?_append_right hi]
  refine ⟨by omega, backUp_eq (by omega) (by omega) ?_ fun i hi hiw hslash => ?_⟩
  · by_cases hst : st = []
    · subst hst
      exact .inl hdotdot.symm
    · have hb := hget _ (Nat.le_refl _) (by omega)
      rw [if_neg hst, Nat.sub_self] at hb
      exact .inr (Option.some.inj hb).symm
  · exact he.no_sep (hslash ▸ mem_of_getElem? (by omega) (hget i (by omega) (by omega)))

/-- The separator in front of an element, unless it is the first. -/
theorem putSep {c : Prop} [Decidable c] (hc : c ↔ st ≠ []) (hroom : st = [] ∨ s.w ≤ n) :
    ∃ s', s.putIf c n slash = some s' ∧ Wrote s s' 0 (if st = [] then [] else [slash]) := by
  unfold putIf
  by_cases hst : st = []
  · rw [if_neg fun h => hc.mp h hst, if_pos hst]
    exact ⟨s, rfl, .refl s⟩
  · rw [if_pos (hc.mpr hst), if_neg hst]
    exact put_wrote (hroom.resolve_left hst) slash

theorem sep_iff (h : Canonical slash dotByte root st) (hout : s.out = text root st) :
    (root = true ∧ s.w ≠ 1 ∨ root = false ∧ s.w ≠ 0) ↔ st ≠ [] := by
  have hnil := length_text_eq_iff h
  rw [← hout, length_out, text_nil] at hnil
  refine Iff.trans ?_ (not_congr hnil)
  cases root with
  | true => simp
  | false => simp

theorem pos_iff (h : Canonical slash dotByte false st) (hout : s.out = text false st) : 0 < s.w ↔ st ≠ [] := by
  rw [← sep_iff h hout]
  simp [Nat.pos_iff_ne_zero]

/-- A `..` that cannot take a name away is written. -/
theorem putUp (h : Canonical slash dotByte false st) (hout : s.out = text false st)
    (hroom : st = [] ∨ s.w + 3 ≤ s.r) (hr : s.w + 2 ≤ s.r) (hn : s.r ≤ n) :
    ∃ s', (do
        let s ← s.putIf (0 < s.w) n slash
        let s ← s.put n dotByte
        let s ← s.put n dotByte
        return { s with dotdot := s.w } : Option PathState) = some s' ∧
      s'.r = s.r ∧ s'.w ≤ s.r ∧ s'.out = text false ([dotByte, dotByte] :: st) ∧ s'.dotdot = s'.w := by
  obtain ⟨s₁, h₁, hwrote₁⟩ := putSep (s := s) (pos_iff h hout) (hroom.imp_right fun hw => (by omega : s.w ≤ n))
  have hw₁ := hwrote₁.w
  have hsep : s.w + (if st = [] then [] else [slash]).length + 2 ≤ s.r := by
    split_ifs with hst
    · exact hr
    · exact hroom.resolve_left hst
  obtain ⟨s₂, h₂, hwrote₂⟩ := put_wrote (n := n) (by omega : s₁.w ≤ n) dotByte
  have hw₂ := hwrote₂.w
  rw [List.length_singleton] at hw₂
  obtain ⟨s₃, h₃, hwrote₃⟩ := put_wrote (n := n) (by omega : s₂.w ≤ n) dotByte
  have hw₃ := hwrote₃.w
  rw [List.length_singleton] at hw₃
  have hwrote := (hwrote₁.trans hwrote₂).trans hwrote₃
  refine ⟨{ s₃ with dotdot := s₃.w }, ?_, hwrote.r, ?_, ?_, rfl⟩
  · rw [h₁]
    change (s₁.put n dotByte).bind _ = _
    rw [h₂]
    change (s₂.put n dotByte).bind _ = _
    rw [h₃]
    rfl
  · change s₃.w ≤ s.r
    omega
  · change s₃.out = _
    rw [hwrote.out, hout, text_cons, List.append_assoc]
    rfl

/-- **The `..` element** is pushed. -/
theorem sanitizeUp_spec (h : Canonical slash dotByte root st) (hout : s.out = text root st)
    (hdotdot : s.dotdot = (text root (ups st)).length) (hroom : st = [] ∨ s.w + 3 ≤ s.r) (hr : s.w + 2 ≤ s.r)
    (hn : s.r ≤ n) :
    ∃ s', sanitizeUp n root s = some s' ∧ s'.r = s.r ∧ s'.w ≤ s.r ∧
      s'.out = text root (push dotByte root st [dotByte, dotByte]) ∧
      s'.dotdot = (text root (ups (push dotByte root st [dotByte, dotByte]))).length := by
  have hw : s.w = (text root st).length := by rw [← length_out, hout]
  have hstays : root = false → (∀ e ∈ st.head?, e = [dotByte, dotByte]) → ∃ s', sanitizeUp n root s = some s' ∧
      s'.r = s.r ∧ s'.w ≤ s.r ∧ s'.out = text root (push dotByte root st [dotByte, dotByte]) ∧
      s'.dotdot = (text root (ups (push dotByte root st [dotByte, dotByte]))).length := by
    rintro rfl htop
    rw [ups_eq htop, ← hw] at hdotdot
    obtain ⟨s', hs', hr', hw', hout', hdotdot'⟩ := putUp h hout hroom hr hn
    refine ⟨s', ?_, hr', hw', ?_, ?_⟩
    · unfold sanitizeUp
      rw [if_neg (by omega), if_pos rfl]
      exact hs'
    · rw [push_up_stays rfl htop]
      exact hout'
    · rw [push_up_stays rfl htop, ups_up, ← hout', length_out]
      exact hdotdot'
  cases h with
  | nil =>
    cases root with
    | true =>
      rw [push_up]
      refine ⟨s, ?_, rfl, by omega, hout, hdotdot⟩
      unfold sanitizeUp
      rw [if_neg, if_neg (by decide)]
      change s.dotdot = (text true []).length at hdotdot
      omega
    | false => exact hstays rfl fun e he => nomatch he
  | @up st h hroot htop => exact hstays hroot (by simp)
  | @name e st he h =>
    obtain ⟨hlt, hback⟩ := backUp_name he hout hdotdot
    have hle : (text root st).length ≤ s.w := by
      rw [hw, length_text_cons]
      omega
    rw [push_up_name he]
    refine ⟨{ s with w := backUp s.ret s.dotdot (s.w - 1) }, if_pos hlt, rfl, ?_, ?_, ?_⟩
    · change backUp s.ret s.dotdot (s.w - 1) ≤ s.r
      omega
    · rw [hback, out_truncate s hle, hout, text_cons, List.take_left]
    · rw [ups_name he.ne_up] at hdotdot
      exact hdotdot

end Up

/-! ## One turn -/

namespace PathInv

variable {input e tail : List (BitVec 8)} {s : PathState} {st : List (List (BitVec 8))}

theorem rest_push (h : PathInv input s st) (hsplit : Splits input s.r e tail) :
    (tail.splitOn slash).foldl (push dotByte (isRoot slash input)) (push dotByte (isRoot slash input) st e) =
      remaining slash dotByte input := by
  rw [← foldl_element hsplit.no_slash hsplit.tail, ← hsplit.drop]
  exact h.rest

theorem of_element (h : PathInv input s st) (hsplit : Splits input s.r e tail) {s' : PathState}
    (hr : s'.r = s.r + e.length) (hw : s'.w ≤ s'.r)
    (hout : s'.out = text (isRoot slash input) (push dotByte (isRoot slash input) st e))
    (hdotdot : s'.dotdot = (text (isRoot slash input) (ups (push dotByte (isRoot slash input) st e))).length) :
    PathInv input s' (push dotByte (isRoot slash input) st e) where
  canonical := h.canonical.push hsplit.no_slash
  out := hout
  rest := by
    rw [hr, hsplit.drop_add]
    exact h.rest_push hsplit
  r_le := by
    rw [hr]
    exact hsplit.length_le h.r_le
  w_le := hw
  room := by
    rw [hr, hsplit.drop_add]
    exact .inr (.inr hsplit.tail)
  dotdot := hdotdot

theorem of_slash (h : PathInv input s st) (hsplit : Splits input s.r [] tail) (hr : s.r < input.length) :
    PathInv input { s with r := s.r + 1 } st := by
  have hdrop : input.drop s.r = tail := hsplit.drop
  obtain ⟨b, rest, hrest⟩ := List.exists_cons_of_ne_nil (l := tail) fun hnil => by
    rw [hnil, List.drop_eq_nil_iff] at hdrop
    omega
  have hb : b = slash := hsplit.tail b (by rw [hrest]; rfl)
  have hnext : input.drop (s.r + 1) = rest := by
    rw [← List.drop_drop, hdrop, hrest, List.drop_one, List.tail_cons]
  refine ⟨h.canonical, h.out, ?_, hr, Nat.le_succ_of_le h.w_le, .inr (.inl (Nat.lt_succ_of_le h.w_le)), h.dotdot⟩
  have hpushed := h.rest
  rw [hdrop, hrest, hb, splitOn_sep, List.foldl_cons, push_nil] at hpushed
  change ((input.drop (s.r + 1)).splitOn slash).foldl _ st = _
  rw [hnext]
  exact hpushed

theorem room_name (h : PathInv input s st) (hsplit : Splits input s.r e tail) (he : e ≠ []) : st = [] ∨ s.w < s.r := by
  rcases h.room with hst | hlt | hslash
  · exact .inl hst
  · exact .inr hlt
  · obtain ⟨b, e, rfl⟩ := List.exists_cons_of_ne_nil he
    have hb := hslash b (by rw [hsplit.drop]; rfl)
    exact absurd hb (hsplit.ne_slash List.mem_cons_self)

theorem copyName (h : PathInv input s st) (hsplit : Splits input s.r e tail) (he : IsName slash dotByte e) :
    ∃ s', ((s.putIf (isRoot slash input = true ∧ s.w ≠ 1 ∨ isRoot slash input = false ∧ s.w ≠ 0) input.length
        slash).bind fun s => copyElement input.length (input.drop s.r) s) = some s' ∧
      PathInv input s' (push dotByte (isRoot slash input) st e) ∧ s'.r = s.r + e.length := by
  have hle := hsplit.length_le h.r_le
  have hwle := h.w_le
  have hroom := h.room_name hsplit he.ne_nil
  obtain ⟨s₁, h₁, hwrote₁⟩ := putSep (n := input.length) (s := s) (sep_iff h.canonical h.out)
    (hroom.imp_right fun hlt => (by omega : s.w ≤ input.length))
  have hw₁ := hwrote₁.w
  have hlength : s₁.w + e.length ≤ s.r + e.length := by
    rw [hw₁]
    split_ifs with hst
    · exact Nat.add_le_add_right hwle _
    · exact Nat.add_le_add_right (hroom.resolve_left hst) _
  obtain ⟨s', h', hwrote'⟩ := copyElement_wrote (n := input.length) (s := s₁) hsplit.no_slash hsplit.tail (by omega)
  have hwrote := hwrote₁.trans hwrote'
  rw [Nat.zero_add] at hwrote
  have hw' := hwrote'.w
  refine ⟨s', ?_, h.of_element hsplit hwrote.r ?_ ?_ ?_, hwrote.r⟩
  · rw [h₁]
    change copyElement input.length (input.drop s₁.r) s₁ = some s'
    rw [hwrote₁.r, Nat.add_zero, hsplit.drop]
    exact h'
  · rw [hwrote.r]
    omega
  · rw [push_name he, text_cons, hwrote.out, h.out]
  · rw [push_name he, ups_name he.ne_up, hwrote.dotdot]
    exact h.dotdot

/-- **One turn of the loop** reads on and keeps the invariant. -/
theorem step (h : PathInv input s st) (hr : s.r < input.length) :
    ∃ s' st', sanitizeStep input (isRoot slash input) s = some s' ∧ PathInv input s' st' ∧ s.r < s'.r := by
  obtain ⟨e, tail, hsplit⟩ := Splits.exists_splits input s.r
  unfold sanitizeStep
  simp only [hsplit.slash_iff hr, hsplit.dot_iff hr, hsplit.up_iff hr]
  have hwle := h.w_le
  split_ifs with hnil hdot hup
  · subst hnil
    exact ⟨_, st, rfl, h.of_slash hsplit hr, Nat.lt_succ_self _⟩
  · subst hdot
    have hinv : PathInv input { s with r := s.r + 1 } (push dotByte (isRoot slash input) st [dotByte]) := by
      refine h.of_element hsplit rfl (Nat.le_succ_of_le hwle) ?_ ?_
      · rw [push_dot]
        exact h.out
      · rw [push_dot]
        exact h.dotdot
    exact ⟨_, _, rfl, hinv, Nat.lt_succ_self _⟩
  · subst hup
    have hle := hsplit.length_le h.r_le
    have hroom : st = [] ∨ s.w + 3 ≤ s.r + 2 :=
      (h.room_name hsplit (List.cons_ne_nil _ _)).imp_right fun hlt => Nat.add_le_add_right hlt 2
    obtain ⟨s', hs', hr', hw', hout', hdotdot'⟩ := sanitizeUp_spec (s := { s with r := s.r + 2 }) h.canonical h.out
      h.dotdot hroom (Nat.add_le_add_right hwle 2) hle
    refine ⟨s', _, hs', h.of_element hsplit hr' (hr' ▸ hw') hout' hdotdot', ?_⟩
    rw [hr']
    exact Nat.lt_add_of_pos_right (by decide)
  · have hne : e ≠ [] := hnil
    obtain ⟨s', hs', hinv, hr'⟩ := h.copyName hsplit ⟨hnil, hdot, hup, hsplit.no_slash⟩
    have hpos := List.length_pos_of_ne_nil hne
    exact ⟨s', _, hs', hinv, by omega⟩

/-- **The loop** reads the whole input. -/
theorem loop {k : Nat} (h : PathInv input s st) (hk : input.length ≤ s.r + k) :
    ∃ s' st', sanitizeLoop input (isRoot slash input) k s = some s' ∧ PathInv input s' st' ∧ s'.r = input.length := by
  induction k generalizing s st with
  | zero => exact ⟨s, st, rfl, h, Nat.le_antisymm h.r_le hk⟩
  | succ k ih =>
    unfold sanitizeLoop
    by_cases hr : s.r < input.length
    · obtain ⟨s₁, st₁, hstep, hinv, hlt⟩ := h.step hr
      rw [if_pos hr, hstep]
      exact ih hinv (by omega)
    · rw [if_neg hr]
      exact ⟨s, st, rfl, h, Nat.le_antisymm h.r_le (Nat.le_of_not_lt hr)⟩

theorem at_end (h : PathInv input s st) (hr : s.r = input.length) : st = remaining slash dotByte input := by
  have hrest := h.rest
  rw [hr, List.drop_length, List.splitOn_nil, List.foldl_cons, push_nil] at hrest
  exact hrest

end PathInv

theorem sanitizeStart_inv {input : List (BitVec 8)} (hne : input ≠ []) :
    ∃ s, sanitizeStart input.length (isRoot slash input) = some s ∧ PathInv input s [] := by
  cases hroot : isRoot slash input with
  | true =>
    obtain ⟨t, rfl⟩ := isRoot_iff.mp hroot
    refine ⟨_, rfl, .nil, ?_, ?_, Nat.succ_le_succ (Nat.zero_le _), Nat.le_refl _, .inl rfl, ?_⟩
    · rw [hroot]
      rfl
    · change (t.splitOn slash).foldl _ [] = remaining slash dotByte (slash :: t)
      unfold remaining
      rw [splitOn_sep, List.foldl_cons, push_nil]
    · rw [hroot]
      rfl
  | false =>
    refine ⟨_, rfl, .nil, ?_, rfl, Nat.zero_le _, Nat.le_refl _, .inl rfl, ?_⟩
    · rw [hroot]
      rfl
    · rw [hroot]
      rfl

/-! ## The buffer -/

/-- The string in the buffer is what has been written. -/
theorem cString_buffer {s : PathState} {n : Nat} (hw : s.w ≤ n) (hzero : 0 ∉ s.out) :
    cString ((List.range (n + 1)).map fun i => if i < s.w then s.ret i else 0) = s.out := by
  obtain ⟨k, rfl⟩ := Nat.exists_eq_add_of_le hw
  have hwritten : ((List.range s.w).map fun i => if i < s.w then s.ret i else 0) = s.out :=
    List.map_congr_left fun i hi => if_pos (List.mem_range.mp hi)
  rw [Nat.add_assoc, List.range_add, List.map_append, hwritten, cString, List.takeWhile_append_of_pos]
  · rw [List.range_succ_eq_map, List.map_cons, List.map_cons, if_neg (by simp), List.takeWhile_cons_of_neg (by simp),
      List.append_nil]
  · intro b hb
    exact decide_eq_true fun hb0 => hzero (hb0 ▸ hb)

/-- The normal form of a path has no terminator in it. -/
theorem zero_not_mem_normal {path : List (BitVec 8)} (hzero : 0 ∉ path) : 0 ∉ normal slash dotByte path := by
  intro hmem
  rcases mem_normal hmem with hslash | hdot | hpath
  · exact absurd hslash (by decide)
  · exact absurd hdot (by decide)
  · exact hzero hpath

/-! ## The result -/

/-- `.` is written if nothing has been. -/
theorem putDot {input : List (BitVec 8)} {s : PathState} (hne : input ≠ [])
    (h : PathInv input s (remaining slash dotByte input)) :
    ∃ s', s.putIf (s.w = 0) input.length dotByte = some s' ∧ s'.out = normal slash dotByte input ∧
      s'.w ≤ input.length := by
  have hw : s.w = (text (isRoot slash input) (remaining slash dotByte input)).length := by rw [← length_out, h.out]
  have hpos := List.length_pos_of_ne_nil hne
  have hle := h.w_le.trans h.r_le
  have hnil := length_text_eq_iff h.canonical
  rw [← hw, text_nil] at hnil
  unfold putIf
  split_ifs with hzero
  · obtain ⟨s', hput, hwrote⟩ := put_wrote (n := input.length) hle dotByte
    have hroot : isRoot slash input = false := by
      cases hroot : isRoot slash input with
      | true =>
        have hnone : (text true []).length ≤ (text true (remaining slash dotByte input)).length := length_text_nil_le _
        rw [hroot] at hw
        rw [← hw, hzero, text_nil] at hnone
        exact absurd hnone (by decide)
      | false => rfl
    rw [hroot] at hnil
    have hout : s.out = [] := List.eq_nil_of_length_eq_zero (by rw [length_out, hzero])
    refine ⟨s', hput, ?_, ?_⟩
    · rw [hwrote.out, hout, normal_empty hroot (hnil.mp hzero)]
      rfl
    · rw [hwrote.w, hzero]
      exact hpos
  · refine ⟨s, rfl, ?_, hle⟩
    rw [h.out, normal, join, if_neg]
    rintro ⟨hroot, hrev⟩
    rw [hroot] at hnil
    exact hzero (hnil.mpr (List.reverse_eq_nil_iff.mp hrev))

theorem sanitizePath_eq {path : List (BitVec 8)} (hne : path ≠ []) :
    ∃ s : PathState, sanitizePath path =
        some ((List.range ((path.take maxPathLen).length + 1)).map fun i => if i < s.w then s.ret i else 0) ∧
      s.out = normal slash dotByte (path.take maxPathLen) ∧ s.w ≤ (path.take maxPathLen).length := by
  have hinput : path.take maxPathLen ≠ [] := fun h => hne ((List.take_eq_nil_iff.mp h).resolve_left (by decide))
  unfold sanitizePath
  generalize path.take maxPathLen = input at hinput ⊢
  obtain ⟨s₀, hstart, hinv₀⟩ := sanitizeStart_inv hinput
  obtain ⟨s₁, st, hloop, hinv, hr⟩ := hinv₀.loop (k := input.length) (Nat.le_add_left _ _)
  have hst := hinv.at_end hr
  subst hst
  obtain ⟨s, hput, hout, hw⟩ := putDot hinput hinv
  refine ⟨s, ?_, hout, hw⟩
  rw [if_neg fun h => hinput (List.eq_nil_of_length_eq_zero h)]
  change (sanitizeStart input.length (isRoot slash input)).bind _ = _
  rw [hstart]
  change (sanitizeLoop input (isRoot slash input) input.length s₀).bind _ = _
  rw [hloop]
  change (s₁.putIf (s₁.w = 0) input.length dotByte).bind _ = _
  rw [hput]
  rfl

theorem sanitizePath_cString {path : List (BitVec 8)} (hne : path ≠ []) (hlength : path.length < maxPathLen)
    (hzero : 0 ∉ path) : ∃ buf, sanitizePath path = some buf ∧ cString buf = normal slash dotByte path := by
  obtain ⟨s, hs, hout, hw⟩ := sanitizePath_eq hne
  rw [List.take_of_length_le hlength.le] at hout
  refine ⟨_, hs, ?_⟩
  rw [cString_buffer hw (hout ▸ zero_not_mem_normal hzero), hout]

/-- **`sanitize_path` computes the lexical normal form**, the shortest equivalent path; it ends with a slash only if it
is the root, and is its own normal form. -/
theorem sanitizePath_normal (path : List (BitVec 8)) (hne : path ≠ []) (hlength : path.length < maxPathLen)
    (hzero : 0 ∉ path) :
    ∃ buf, sanitizePath path = some buf ∧ cString buf = normal slash dotByte path ∧
      Equivalent slash dotByte path (cString buf) ∧
      (∀ q, q ≠ [] → Equivalent slash dotByte path q → (cString buf).length ≤ q.length ∧
        (q.length = (cString buf).length → q = cString buf)) ∧
      ((cString buf).getLast? = some slash → cString buf = [slash]) ∧
      (sanitizePath (cString buf)).map cString = some (cString buf) := by
  obtain ⟨buf, hbuf, hout⟩ := sanitizePath_cString hne hlength hzero
  have hdot : slash ≠ dotByte := by decide
  refine ⟨buf, hbuf, hout, ?_⟩
  rw [hout]
  refine ⟨normal_equivalent hdot path, fun q hq hequiv => ?_, normal_getLast hdot, ?_⟩
  · exact ⟨normal_shortest hequiv hq, fun hlen => normal_unique hequiv hq hlen.le⟩
  · have hshort : (normal slash dotByte path).length < maxPathLen := (normal_length_le hne).trans_lt hlength
    obtain ⟨buf', hbuf', hout'⟩ := sanitizePath_cString (normal_ne_nil path) hshort (zero_not_mem_normal hzero)
    rw [hbuf', Option.map_some, hout', normal_normal hdot]

/-- `/a//../..`. -/
theorem sanitizePath_climb :
    ∃ buf, sanitizePath [slash, 0x61, slash, slash, dotByte, dotByte, slash, dotByte, dotByte] = some buf ∧
      cString buf = [slash] := by
  obtain ⟨buf, hbuf, hout, -⟩ := sanitizePath_normal
    [slash, 0x61, slash, slash, dotByte, dotByte, slash, dotByte, dotByte] (by decide) (by decide) (by decide)
  exact ⟨buf, hbuf, hout.trans (by decide)⟩

/-! ## The buffer of any path -/

inductive LoopState (input : List (BitVec 8)) : PathState → Prop
  | start {s : PathState} (h : sanitizeStart input.length (input.head? = some slash) = some s) : LoopState input s
  | turn {s s' : PathState} (h : LoopState input s) (hr : s.r < input.length)
      (hstep : sanitizeStep input (input.head? = some slash) s = some s') : LoopState input s'

/-- Every write is in the buffer of `n + 1` bytes, the write index has not passed the read index at the head of the
loop, and a terminator is in the buffer. -/
def StaysInBuffer (path : List (BitVec 8)) : Prop :=
  (∃ buf, sanitizePath path = some buf ∧ buf.length = min maxPathLen path.length + 1 ∧ 0 ∈ buf) ∧
    ∀ s, LoopState (path.take maxPathLen) s → s.w ≤ s.r ∧ s.r ≤ min maxPathLen path.length

theorem LoopState.inv {input : List (BitVec 8)} (hne : input ≠ []) {s : PathState} (h : LoopState input s) :
    ∃ st, PathInv input s st := by
  induction h with
  | start h =>
    obtain ⟨s, hstart, hinv⟩ := sanitizeStart_inv hne
    cases hstart.symm.trans h
    exact ⟨[], hinv⟩
  | turn _ hr hstep ih =>
    obtain ⟨st, hinv⟩ := ih
    obtain ⟨s', st', hs', hinv', -⟩ := hinv.step hr
    cases hs'.symm.trans hstep
    exact ⟨st', hinv'⟩

/-- The last byte of the buffer is behind what has been written. -/
theorem sanitizePath_buffer {path : List (BitVec 8)} (hne : path ≠ []) :
    ∃ buf, sanitizePath path = some buf ∧ buf.length = min maxPathLen path.length + 1 ∧ 0 ∈ buf := by
  obtain ⟨s, hs, -, hw⟩ := sanitizePath_eq hne
  refine ⟨_, hs, ?_, ?_⟩
  · rw [List.length_map, List.length_range, List.length_take]
  · exact List.mem_map.mpr ⟨(path.take maxPathLen).length, List.mem_range.mpr (Nat.lt_succ_self _),
      if_neg (Nat.not_lt.mpr hw)⟩

/-- **The buffer is large enough and terminated, except for the empty path**: its `.` fills the one byte. -/
theorem sanitizePath_stays_iff (path : List (BitVec 8)) : StaysInBuffer path ↔ path ≠ [] := by
  constructor
  · rintro ⟨⟨buf, hbuf, -, hzero⟩, -⟩ rfl
    cases hbuf
    exact absurd hzero (by decide)
  · intro hne
    refine ⟨sanitizePath_buffer hne, fun s hs => ?_⟩
    have hinput : path.take maxPathLen ≠ [] := fun h => hne ((List.take_eq_nil_iff.mp h).resolve_left (by decide))
    obtain ⟨st, hinv⟩ := hs.inv hinput
    exact ⟨hinv.w_le, hinv.r_le.trans (List.length_take ..).le⟩

theorem sanitizePath_unterminated : ¬ StaysInBuffer [] := by
  rintro ⟨⟨buf, hbuf, -, hzero⟩, -⟩
  cases hbuf
  exact absurd hzero (by decide)

end Rv32emu
