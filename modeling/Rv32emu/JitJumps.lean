import Rv32emu.Fallible
import Rv32emu.JitEmit
import Mathlib.Data.List.Perm.Basic

/-!
# Where the jumps of tier 1 land

* `Emit.encode`, `layout` : the bytes and the jump records of a list of emitter calls, from the offset
  it starts at; `emitFrom_ran` : a handler that does not flush emits these;
* `WellFormed` : every local jump gets one target, and behind every guest jump stand a PC store and an
  exit; `dispatch_wellFormed` : the handlers are of this form;
* `PassInv` : the invariant of `translate_chained_block`;
* `resolveJumps_lands_iff` : after `resolve_jumps` every jump lands where it should, if and only if
  no guest jump goes to a PC that is one of the two sentinels.
-/

namespace Rv32emu

open JitState

/-! ## Writes to the buffer -/

theorem write_before {buf : Nat → Byte} {o a : Nat} {data : List Byte} (h : a < o) :
    write buf o data a = buf a := by
  unfold write
  rw [if_neg (by omega)]

theorem write_after {buf : Nat → Byte} {o a : Nat} {data : List Byte} (h : o + data.length ≤ a) :
    write buf o data a = buf a := by
  unfold write
  rw [if_pos (by omega), List.getD_eq_default _ _ (by omega)]

theorem write_at {buf : Nat → Byte} {o i : Nat} {data : List Byte} (h : i < data.length) :
    write buf o data (o + i) = data[i] := by
  unfold write
  rw [if_pos (by omega), Nat.add_sub_cancel_left, List.getD_eq_getElem _ _ h]

theorem write_append (buf : Nat → Byte) (o : Nat) (d d' : List Byte) :
    write (write buf o d) (o + d.length) d' = write buf o (d ++ d') := by
  funext a
  rcases Nat.lt_or_ge a o with ha | ha
  · rw [write_before (by omega), write_before ha, write_before ha]
  obtain ⟨i, rfl⟩ := Nat.exists_eq_add_of_le ha
  rcases Nat.lt_or_ge i d.length with hi | hi
  · rw [write_before (by omega), write_at hi, write_at (by rw [List.length_append]; omega),
      List.getElem_append_left hi]
  obtain ⟨k, rfl⟩ := Nat.exists_eq_add_of_le hi
  rcases Nat.lt_or_ge k d'.length with hk | hk
  · rw [← Nat.add_assoc, write_at hk, Nat.add_assoc, write_at (by rw [List.length_append]; omega),
      List.getElem_append_right (by omega)]
    simp only [Nat.add_sub_cancel_left]
  · rw [write_after (by omega), write_after (by omega), write_after (by rw [List.length_append]; omega)]

@[simp] theorem word4_length (w : Word) : (word4 w).length = 4 := rfl

def dispAt (buf : Nat → Byte) (loc : Nat) : Word :=
  buf (loc + 3) ++ buf (loc + 2) ++ buf (loc + 1) ++ buf loc

theorem dispAt_write (buf : Nat → Byte) (loc : Nat) (w : Word) :
    dispAt (write buf loc (word4 w)) loc = w := by
  have h0 : write buf loc (word4 w) loc = w.setWidth 8 := write_at (i := 0) (by simp)
  have h1 : write buf loc (word4 w) (loc + 1) = (w >>> 8).setWidth 8 := write_at (i := 1) (by simp)
  have h2 : write buf loc (word4 w) (loc + 2) = (w >>> 16).setWidth 8 := write_at (i := 2) (by simp)
  have h3 : write buf loc (word4 w) (loc + 3) = (w >>> 24).setWidth 8 := write_at (i := 3) (by simp)
  unfold dispAt
  rw [h0, h1, h2, h3]
  ext i hi
  simp only [BitVec.getElem_append, BitVec.getElem_setWidth, BitVec.getLsbD_ushiftRight,
    BitVec.getLsbD_eq_getElem hi]
  split_ifs <;> rw [← BitVec.getLsbD_eq_getElem] <;> congr 1 <;> omega

/-- Where a jump whose displacement is at `loc` goes: the displacement is relative to the byte after it. -/
def landing (buf : Nat → Byte) (loc : Nat) : Int := (loc + 4 : Nat) + (dispAt buf loc).toInt

/-! ## What a handler emits when nothing is flushed -/

def Emit.encode : Emit → List Byte
  | .bytes data => data
  | .jcc _ code => (if code = jccJmp then [code] else [0x0f, code]) ++ word4 0
  | .target _ => []
  | .jmp _ _ => jccJmp :: word4 0
  | .exit => jccJmp :: word4 0

/-- The jump records of a list of calls, from the offset `o` on. -/
def layout : Nat → Locs → List Emit → List JumpFor
  | _, _, [] => []
  | o, l, .bytes data :: ops => layout (o + data.length) l ops
  | o, l, .jcc v code :: ops => layout (o + (Emit.jcc v code).encode.length) (Function.update l v o) ops
  | o, l, .target v :: ops => .inner (l v + v.skip) o :: layout o l ops
  | o, l, .jmp pc satp :: ops => .guest (o + 1) pc satp :: layout (o + 5) l ops
  | o, l, .exit :: ops => .exit (o + 1) :: layout (o + 5) l ops

def JumpFor.record : JumpFor → Jump
  | .inner loc target => { offsetLoc := loc, targetOffset := target }
  | .exit loc => { offsetLoc := loc, targetPc := targetPcExit }
  | .guest loc pc satp => { offsetLoc := loc, targetPc := pc, targetSatp := satp }

/-- From `s` to `s'` the bytes `data` and records for `ms` have been appended. -/
structure Ran (s s' : JitState) (data : List Byte) (ms : List JumpFor) : Prop where
  flush : s.shouldFlush = false
  buf : s'.buf = write s.buf s.offset data
  offset : s'.offset = s.offset + data.length
  size : s.offset ≤ codeCacheSize → s'.offset ≤ codeCacheSize
  jumps : s'.jumps = s.jumps ++ ms.map JumpFor.record
  made : s'.made = s.made ++ ms
  set : s'.set = s.set
  offsetMap : s'.offsetMap = s.offsetMap

theorem write_nil (buf : Nat → Byte) (o : Nat) : write buf o [] = buf := by
  funext a
  unfold write
  split_ifs <;> rfl

theorem Ran.refl {s : JitState} (h : s.shouldFlush = false) : Ran s s [] [] :=
  ⟨h, (write_nil _ _).symm, rfl, id, (List.append_nil _).symm, (List.append_nil _).symm, rfl, rfl⟩

theorem Ran.trans {s s' s'' : JitState} {d d' : List Byte} {ms ms' : List JumpFor} (h : Ran s s' d ms)
    (h' : Ran s' s'' d' ms') : Ran s s'' (d ++ d') (ms ++ ms') where
  flush := h.flush
  buf := by rw [h'.buf, h.buf, h.offset, write_append]
  offset := by rw [h'.offset, h.offset, List.length_append, Nat.add_assoc]
  size := fun hs => h'.size (h.size hs)
  jumps := by rw [h'.jumps, h.jumps, List.map_append, List.append_assoc]
  made := by rw [h'.made, h.made, List.append_assoc]
  set := h'.set.trans h.set
  offsetMap := h'.offsetMap.trans h.offsetMap

theorem emitBytes_ran {s : JitState} {data : List Byte} (h : (s.emitBytes data).shouldFlush = false) :
    Ran s (s.emitBytes data) data [] := by
  unfold emitBytes at h ⊢
  split_ifs at h ⊢ with hsize hblocks
  exact ⟨h, rfl, rfl, fun _ => by simp only; omega, (List.append_nil _).symm, (List.append_nil _).symm, rfl, rfl⟩

theorem emitJumpTargetAddress_ran {s s' : JitState} {pc satp : Word} {for_ : Nat → JumpFor}
    (hrec : ∀ loc, (for_ loc).record = { offsetLoc := loc, targetPc := pc, targetSatp := satp })
    (h : s.emitJumpTargetAddress pc satp for_ = .ok s') (hnf : s'.shouldFlush = false) :
    Ran s s' (word4 0) [for_ s.offset] := by
  unfold emitJumpTargetAddress at h
  split_ifs at h with hlt
  cases h
  have hran := emitBytes_ran hnf
  exact ⟨hran.flush, hran.buf, hran.offset, hran.size, by rw [hran.jumps]; simp [hrec], by
    rw [hran.made]; simp, hran.set, hran.offsetMap⟩

theorem emitJmp_ran {s s' : JitState} {pc satp : Word} (h : s.emitJmp pc satp = .ok s')
    (hnf : s'.shouldFlush = false) : Ran s s' (Emit.jmp pc satp).encode [.guest (s.offset + 1) pc satp] := by
  have h2 := emitJumpTargetAddress_ran (fun _ => rfl) h hnf
  have h1 := emitBytes_ran h2.flush
  rw [h1.offset] at h2
  exact h1.trans h2

theorem emitExit_ran {s s' : JitState} (h : s.emitExit = .ok s') (hnf : s'.shouldFlush = false) :
    Ran s s' Emit.exit.encode [.exit (s.offset + 1)] := by
  have h2 := emitJumpTargetAddress_ran (fun _ => rfl) h hnf
  have h1 := emitBytes_ran h2.flush
  rw [h1.offset] at h2
  exact h1.trans h2

theorem emitJccOffset_ran {s : JitState} (v : LocVar) {code : Byte}
    (h : (s.emitJccOffset code).shouldFlush = false) :
    Ran s (s.emitJccOffset code) (Emit.jcc v code).encode [] := by
  unfold emitJccOffset at h ⊢
  have h2 := emitBytes_ran h
  have hnf := h2.flush
  simp only [Emit.encode]
  split_ifs at h hnf h2 ⊢ with hc
  · exact (emitBytes_ran hnf).trans h2
  · have h1 := emitBytes_ran hnf
    exact ((emitBytes_ran h1.flush).trans h1).trans h2

theorem emitJumpTargetOffset_ran {s s' : JitState} {loc target : Nat}
    (h : s.emitJumpTargetOffset loc target = .ok s') (hnf : s'.shouldFlush = false) :
    Ran s s' [] [.inner loc target] := by
  unfold emitJumpTargetOffset at h
  split_ifs at h with hlt
  cases h
  exact ⟨hnf, (write_nil _ _).symm, rfl, id, rfl, rfl, rfl, rfl⟩

def encode (ops : List Emit) : List Byte := ops.flatMap Emit.encode

/-- **A handler that does not flush appends its bytes and its records.** -/
theorem emitFrom_ran {ops : List Emit} {s s' : JitState} {l : Locs} (h : emitFrom ops (s, l) = .ok s')
    (hnf : s'.shouldFlush = false) : Ran s s' (encode ops) (layout s.offset l ops) := by
  induction ops generalizing s l with
  | nil =>
    cases h
    exact .refl hnf
  | cons op ops ih =>
    unfold emitFrom at h
    cases op with
    | bytes data =>
      have hrest := ih (s := s.emitBytes data) h
      have h1 := emitBytes_ran hrest.flush
      rw [h1.offset] at hrest
      exact h1.trans hrest
    | jcc v code =>
      have hrest := ih (s := s.emitJccOffset code) h
      have h1 := emitJccOffset_ran v hrest.flush
      rw [h1.offset] at hrest
      exact h1.trans hrest
    | target v =>
      obtain ⟨sl, hop, h⟩ := bind_ok h
      obtain ⟨t, hemit, rfl⟩ := map_ok hop
      have hrest := ih h
      have h1 := emitJumpTargetOffset_ran hemit hrest.flush
      rw [h1.offset] at hrest
      exact h1.trans hrest
    | jmp pc satp =>
      obtain ⟨sl, hop, h⟩ := bind_ok h
      obtain ⟨t, hemit, rfl⟩ := map_ok hop
      have hrest := ih h
      have h1 := emitJmp_ran hemit hrest.flush
      rw [h1.offset] at hrest
      exact h1.trans hrest
    | exit =>
      obtain ⟨sl, hop, h⟩ := bind_ok h
      obtain ⟨t, hemit, rfl⟩ := map_ok hop
      have hrest := ih h
      have h1 := emitExit_ran hemit hrest.flush
      rw [h1.offset] at hrest
      exact h1.trans hrest

/-! ## The form of the handlers -/

/-- The bytes that `ops` begins with, if an `emit_exit` comes after them. -/
def exitStub : List Emit → Option (List Byte)
  | .target _ :: ops => exitStub ops
  | .bytes d :: ops => (exitStub ops).map (d ++ ·)
  | .exit :: _ => some []
  | _ => none

/-- Every variable of `live` and every one that is set gets one target, the displacement is where the
variable says, and a guest jump is followed by bytes that are in `P` and an exit. -/
def WellFormed (P : List Byte → Prop) : List LocVar → List Emit → Prop
  | live, [] => live = []
  | live, .bytes _ :: ops => WellFormed P live ops
  | live, .jcc v code :: ops =>
    v ∉ live ∧ (Emit.jcc v code).encode.length = v.skip + 4 ∧ WellFormed P (v :: live) ops
  | live, .target v :: ops => v ∈ live ∧ WellFormed P (live.erase v) ops
  | live, .jmp _ _ :: ops => (∃ d, exitStub ops = some d ∧ P d) ∧ WellFormed P live ops
  | live, .exit :: ops => WellFormed P live ops

@[simp] theorem wellFormed_straight (P : List Byte → Prop) (live : List LocVar) (code : List (List Byte))
    (ops : List Emit) : WellFormed P live (straight code ++ ops) ↔ WellFormed P live ops := by
  induction code with
  | nil => rfl
  | cons d code ih => exact ih

@[simp] theorem exitStub_straight (code : List (List Byte)) (ops : List Emit) :
    exitStub (straight code ++ ops) = (exitStub ops).map (code.flatten ++ ·) := by
  induction code with
  | nil => simp [straight]
  | cons d code ih =>
    have hcons : exitStub (straight (d :: code) ++ ops) =
        (exitStub (straight code ++ ops)).map (d ++ ·) := rfl
    rw [hcons, ih, Option.map_map]
    simp [Function.comp_def]

@[simp] theorem encode_jcc_cond (v : LocVar) (cond : Cond) : (Emit.jcc v cond.code).encode.length = 6 := by
  cases cond <;> rfl

@[simp] theorem encode_jcc_jmp (v : LocVar) : (Emit.jcc v jccJmp).encode.length = 5 := rfl

section Handlers

variable {P : List Byte → Prop} {bld : JitBuild} {csrSatp : Word} {code : NodeCode} {lk : TailLinks}

theorem wellFormed_straight_nil (data : List (List Byte)) : WellFormed P [] (straight data) := by
  have h := (wellFormed_straight P [] data []).mpr rfl
  rwa [List.append_nil] at h

theorem genSlt_append_wellFormed (cond : Cond) {ops : List Emit}
    (h : WellFormed P [] ops) : WellFormed P [] (genSlt code cond ++ ops) := by
  simpa [genSlt, WellFormed, LocVar.skip] using h

theorem genDivRem_wellFormed : WellFormed P [] (genDivRem code) := by
  exact genSlt_append_wellFormed _ (wellFormed_straight_nil _)

theorem genBranch_wellFormed {cond : Cond} {next taken : Word}
    (hpc : P (code .storePc).flatten) (htaken : P (code .storeTaken).flatten) :
    WellFormed P [] (genBranch csrSatp code lk cond next taken) := by
  unfold genBranch jmpIf
  split_ifs <;> simp [WellFormed, exitStub, LocVar.skip, hpc, htaken]

theorem genJump_wellFormed {pc : Word} (hpc : P (code .storePc).flatten) :
    WellFormed P [] (genJump csrSatp code pc) := by
  simp [genJump, WellFormed, exitStub, hpc]

theorem genIndirect_wellFormed {ops : List Emit} (hpc : P (code .storePc).flatten)
    (h : genIndirect bld csrSatp code lk = .ok ops) : WellFormed P [] ops := by
  unfold genIndirect at h
  cases hbt : lk.history with
  | none => simp [hbt] at h
  | some bt =>
    simp only [hbt, Except.ok.injEq] at h
    subst h
    unfold parseBranchHistoryTable
    simp only
    split_ifs <;> simp [WellFormed, exitStub, LocVar.skip, hpc]

theorem genLoad_wellFormed : WellFormed P [] (genLoad bld code) := by
  unfold genLoad
  split_ifs
  · simp [WellFormed, LocVar.skip]
  · exact wellFormed_straight_nil _

theorem genStore_wellFormed : WellFormed P [] (genStore bld code) := by
  unfold genStore
  split_ifs
  · simp [WellFormed, LocVar.skip]
  · exact wellFormed_straight_nil _

/-- **Every handler is well formed.** -/
theorem dispatch_wellFormed {ir : Insn} {ops : List Emit} (hpc : P (code .storePc).flatten)
    (htaken : P (code .storeTaken).flatten) (h : dispatch bld csrSatp code lk ir = .ok ops) :
    WellFormed P [] ops := by
  cases dispatch_handled h with
  | plain => exact wellFormed_straight_nil _
  | slt cond =>
    have h : WellFormed P [] (genSlt code cond ++ []) := genSlt_append_wellFormed cond rfl
    rwa [List.append_nil] at h
  | divRem => exact genDivRem_wellFormed
  | branch => exact genBranch_wellFormed hpc htaken
  | jump => exact genJump_wellFormed hpc
  | indirect h => exact genIndirect_wellFormed hpc h
  | call => simp [genCall, WellFormed]
  | load => exact genLoad_wellFormed
  | store => exact genStore_wellFormed

end Handlers

/-! ## Where the records of a handler are -/

@[simp] theorem JumpFor.loc_inner (loc target : Nat) : (JumpFor.inner loc target).loc = loc := rfl

@[simp] theorem JumpFor.loc_exit (loc : Nat) : (JumpFor.exit loc).loc = loc := rfl

@[simp] theorem JumpFor.loc_guest (loc : Nat) (pc satp : Word) : (JumpFor.guest loc pc satp).loc = loc := rfl

def FieldsApart (a b : Nat) : Prop := a + 4 ≤ b ∨ b + 4 ≤ a

theorem FieldsApart.symm {a b : Nat} (h : FieldsApart a b) : FieldsApart b a := Or.symm h

/-- The jumps that wait for their targets lie before `o` and do not overlap. -/
structure Live (o : Nat) (l : Locs) (live : List LocVar) : Prop where
  nodup : live.Nodup
  below : ∀ v ∈ live, l v + v.skip + 4 ≤ o
  apart : ∀ v ∈ live, ∀ v' ∈ live, v ≠ v' → FieldsApart (l v + v.skip) (l v' + v'.skip)

theorem Live.nil (o : Nat) (l : Locs) : Live o l [] :=
  ⟨List.nodup_nil, fun _ h => absurd h List.not_mem_nil, fun _ h => absurd h List.not_mem_nil⟩

theorem Live.mono {o o' : Nat} {l : Locs} {live : List LocVar} (h : Live o l live) (ho : o ≤ o') :
    Live o' l live :=
  ⟨h.nodup, fun v hv => (h.below v hv).trans ho, h.apart⟩

theorem Live.erase {o : Nat} {l : Locs} {live : List LocVar} (h : Live o l live) (v : LocVar) :
    Live o l (live.erase v) :=
  ⟨h.nodup.erase v, fun w hw => h.below w (List.mem_of_mem_erase hw), fun w hw w' hw' =>
    h.apart w (List.mem_of_mem_erase hw) w' (List.mem_of_mem_erase hw')⟩

theorem LocVar.skip_pos (v : LocVar) : 0 < v.skip := by cases v <;> decide

/-- A conditional jump is emitted at `o`. -/
theorem Live.cons {o : Nat} {l : Locs} {live : List LocVar} (h : Live o l live) {v : LocVar} (hv : v ∉ live) :
    Live (o + (v.skip + 4)) (Function.update l v o) (v :: live) := by
  have hother : ∀ w ∈ live, Function.update l v o w = l w := by
    intro w hw
    have hne : w ≠ v := by rintro rfl; exact hv hw
    exact Function.update_of_ne hne _ _
  have hnew : ∀ w ∈ live, FieldsApart (l w + w.skip) (o + v.skip) := by
    intro w hw
    have := h.below w hw
    exact .inl (by omega)
  refine ⟨h.nodup.cons hv, ?_, ?_⟩
  · intro w hw
    rcases List.mem_cons.mp hw with rfl | hw
    · rw [Function.update_self]
      omega
    · rw [hother w hw]
      have := h.below w hw
      omega
  · intro w hw w' hw' hne
    rcases List.mem_cons.mp hw with rfl | hold
    · have hold' := List.mem_of_ne_of_mem hne.symm hw'
      rw [Function.update_self, hother w' hold']
      exact (hnew w' hold').symm
    · rcases List.mem_cons.mp hw' with rfl | hold'
      · rw [Function.update_self, hother w hold]
        exact hnew w hold
      · rw [hother w hold, hother w' hold']
        exact h.apart w hold w' hold' hne

@[simp] theorem encode_nil : encode [] = [] := rfl

@[simp] theorem encode_cons (op : Emit) (ops : List Emit) : encode (op :: ops) = op.encode ++ encode ops := rfl

/-- A record is for a jump that waited, or its displacement comes after `o`. -/
theorem layout_loc {P : List Byte → Prop} {ops : List Emit} {o : Nat} {l : Locs} {live : List LocVar}
    (hw : WellFormed P live ops) (hl : Live o l live) {m : JumpFor} (hm : m ∈ layout o l ops) :
    ((∃ v ∈ live, m.loc = l v + v.skip) ∨ o < m.loc) ∧ m.loc + 4 ≤ o + (encode ops).length := by
  induction ops generalizing o l live with
  | nil => cases hm
  | cons op ops ih =>
    rw [encode_cons, List.length_append]
    cases op with
    | bytes data =>
      obtain ⟨hloc, hend⟩ := ih hw (hl.mono (Nat.le_add_right _ data.length)) hm
      refine ⟨hloc.imp_right fun h => by omega, ?_⟩
      simp only [Emit.encode]
      omega
    | jcc v code =>
      obtain ⟨hv, hlen, hw⟩ := hw
      rw [layout, hlen] at hm
      obtain ⟨hloc, hend⟩ := ih hw (hl.cons hv) hm
      refine ⟨?_, by omega⟩
      rcases hloc with ⟨w, hwl, hloc⟩ | hloc
      · rcases List.mem_cons.mp hwl with rfl | hold
        · rw [Function.update_self] at hloc
          have := w.skip_pos
          exact .inr (by omega)
        · have hne : w ≠ v := by rintro rfl; exact hv hold
          rw [Function.update_of_ne hne] at hloc
          exact .inl ⟨w, hold, hloc⟩
      · exact .inr (by omega)
    | target v =>
      obtain ⟨hv, hw⟩ := hw
      rcases List.mem_cons.mp hm with rfl | hm
      · have := hl.below v hv
        refine ⟨.inl ⟨v, hv, rfl⟩, ?_⟩
        simp only [JumpFor.loc]
        omega
      · obtain ⟨hloc, hend⟩ := ih hw (hl.erase v) hm
        exact ⟨hloc.imp_left fun ⟨w, hw, h⟩ => ⟨w, List.mem_of_mem_erase hw, h⟩, by omega⟩
    | jmp pc satp =>
      rcases List.mem_cons.mp hm with rfl | hm
      · simp only [JumpFor.loc, Emit.encode, List.length_cons, word4_length]
        exact ⟨.inr (by omega), by omega⟩
      · obtain ⟨hloc, hend⟩ := ih hw.2 (hl.mono (Nat.le_add_right _ 5)) hm
        simp only [Emit.encode, List.length_cons, word4_length]
        exact ⟨hloc.imp_right fun h => by omega, by omega⟩
    | exit =>
      rcases List.mem_cons.mp hm with rfl | hm
      · simp only [JumpFor.loc, Emit.encode, List.length_cons, word4_length]
        exact ⟨.inr (by omega), by omega⟩
      · obtain ⟨hloc, hend⟩ := ih hw (hl.mono (Nat.le_add_right _ 5)) hm
        simp only [Emit.encode, List.length_cons, word4_length]
        exact ⟨hloc.imp_right fun h => by omega, by omega⟩

/-- The displacements of one handler do not overlap. -/
theorem layout_apart {P : List Byte → Prop} {ops : List Emit} {o : Nat} {l : Locs} {live : List LocVar}
    (hw : WellFormed P live ops) (hl : Live o l live) :
    (layout o l ops).Pairwise fun m m' => FieldsApart m.loc m'.loc := by
  induction ops generalizing o l live with
  | nil => exact .nil
  | cons op ops ih =>
    cases op with
    | bytes data => exact ih hw (hl.mono (Nat.le_add_right _ _))
    | jcc v code =>
      obtain ⟨hv, hlen, hw⟩ := hw
      rw [layout, hlen]
      exact ih hw (hl.cons hv)
    | target v =>
      obtain ⟨hv, hw⟩ := hw
      refine .cons (fun m hm => ?_) (ih hw (hl.erase v))
      have hbelow := hl.below v hv
      rcases (layout_loc hw (hl.erase v) hm).1 with ⟨w, hwl, hloc⟩ | hloc
      · rw [hloc]
        have hne := (hl.nodup.mem_erase_iff.mp hwl).1
        exact hl.apart v hv w (List.mem_of_mem_erase hwl) hne.symm
      · exact .inl (by rw [JumpFor.loc_inner]; omega)
    | jmp pc satp =>
      have hl' := hl.mono (Nat.le_add_right o 5)
      refine .cons (fun m hm => ?_) (ih hw.2 hl')
      rcases (layout_loc hw.2 hl' hm).1 with ⟨w, hwl, hloc⟩ | hloc
      · have := hl.below w hwl
        exact .inr (by rw [JumpFor.loc_guest]; omega)
      · exact .inl (by rw [JumpFor.loc_guest]; omega)
    | exit =>
      have hw : WellFormed P live ops := hw
      have hl' := hl.mono (Nat.le_add_right o 5)
      refine .cons (fun m hm => ?_) (ih hw hl')
      rcases (layout_loc hw hl' hm).1 with ⟨w, hwl, hloc⟩ | hloc
      · have := hl.below w hwl
        exact .inr (by rw [JumpFor.loc_exit]; omega)
      · exact .inl (by rw [JumpFor.loc_exit]; omega)

/-- A local jump goes to an offset inside the handler. -/
theorem layout_inner {ops : List Emit} {o : Nat} {l : Locs} {loc target : Nat}
    (hm : .inner loc target ∈ layout o l ops) : o ≤ target ∧ target ≤ o + (encode ops).length := by
  induction ops generalizing o l with
  | nil => cases hm
  | cons op ops ih =>
    rw [encode_cons, List.length_append]
    cases op with
    | bytes data =>
      have := ih hm
      simp only [Emit.encode]
      omega
    | jcc v code =>
      have := ih hm
      omega
    | target v =>
      rcases List.mem_cons.mp hm with heq | hm
      · cases heq
        omega
      · have := ih hm
        omega
    | jmp pc satp =>
      have := ih (List.mem_of_ne_of_mem (by simp) hm)
      simp only [Emit.encode, List.length_cons, word4_length]
      omega
    | exit =>
      have := ih (List.mem_of_ne_of_mem (by simp) hm)
      simp only [Emit.encode, List.length_cons, word4_length]
      omega

/-! ## The stub behind a guest jump -/

/-- At `p` the bytes `d` are stored, then a jump of the records `ms` to the exit. -/
structure StubAt (P : List Byte → Prop) (buf : Nat → Byte) (ms : List JumpFor) (fin p : Nat)
    (d : List Byte) : Prop where
  stores : P d
  bytes : ∀ i, (h : i < d.length) → buf (p + i) = d[i]
  jump : buf (p + d.length) = jccJmp
  exit : .exit (p + d.length + 1) ∈ ms
  fin : p + d.length + 5 ≤ fin
  clear : ∀ m ∈ ms, m.loc + 4 ≤ p ∨ p + d.length + 1 ≤ m.loc

/-- What `exitStub` finds is at the head of the code. -/
theorem exitStub_spec {P : List Byte → Prop} {ops : List Emit} {o : Nat} {l : Locs} {live : List LocVar}
    (hw : WellFormed P live ops) (hl : Live o l live) {d : List Byte} (hd : exitStub ops = some d) :
    (∃ rest, encode ops = d ++ jccJmp :: (word4 0 ++ rest)) ∧ .exit (o + d.length + 1) ∈ layout o l ops ∧
      ∀ m ∈ layout o l ops, (∃ v ∈ live, m.loc = l v + v.skip) ∨ o + d.length + 1 ≤ m.loc := by
  induction ops generalizing o l live d with
  | nil => cases hd
  | cons op ops ih =>
    cases op with
    | bytes data =>
      obtain ⟨d', hd', rfl⟩ := Option.map_eq_some_iff.mp hd
      obtain ⟨⟨rest, henc⟩, hexit, hclear⟩ := ih hw (hl.mono (Nat.le_add_right _ data.length)) hd'
      rw [List.length_append, ← Nat.add_assoc]
      refine ⟨⟨rest, ?_⟩, hexit, hclear⟩
      rw [encode_cons, henc, List.append_assoc]
      rfl
    | jcc v code => cases hd
    | target v =>
      obtain ⟨⟨rest, henc⟩, hexit, hclear⟩ := ih hw.2 (hl.erase v) hd
      refine ⟨⟨rest, henc⟩, List.mem_cons_of_mem _ hexit, fun m hm => ?_⟩
      rcases List.mem_cons.mp hm with rfl | hm
      · exact .inl ⟨v, hw.1, rfl⟩
      · exact (hclear m hm).imp_left fun ⟨w, hw, h⟩ => ⟨w, List.mem_of_mem_erase hw, h⟩
    | jmp pc satp => cases hd
    | exit =>
      cases hd
      have hw : WellFormed P live ops := hw
      refine ⟨⟨encode ops, rfl⟩, List.mem_cons_self, fun m hm => ?_⟩
      rcases List.mem_cons.mp hm with rfl | hm
      · exact .inr (Nat.le_refl _)
      · refine (layout_loc hw (hl.mono (Nat.le_add_right o 5)) hm).1.imp_right fun h => ?_
        simp only [List.length_nil]
        omega

/-- **Behind every guest jump of a handler stand a store of the PC and an exit.** -/
theorem layout_stub {P : List Byte → Prop} {ops : List Emit} {o : Nat} {l : Locs} {live : List LocVar}
    (hw : WellFormed P live ops) (hl : Live o l live) (buf : Nat → Byte) {loc : Nat} {pc satp : Word}
    (hm : .guest loc pc satp ∈ layout o l ops) :
    o < loc ∧ ∃ d, StubAt P (write buf o (encode ops)) (layout o l ops) (o + (encode ops).length) (loc + 4) d := by
  induction ops generalizing o l live buf with
  | nil => cases hm
  | cons op ops ih =>
    -- the tail of the handler begins behind the head; the records of the head end before it
    have htail : ∀ {l' : Locs} {live' : List LocVar}, WellFormed P live' ops →
        Live (o + op.encode.length) l' live' →
        .guest loc pc satp ∈ layout (o + op.encode.length) l' ops →
        (∀ m ∈ layout o l (op :: ops), m ∈ layout (o + op.encode.length) l' ops ∨
          m.loc + 4 ≤ o + op.encode.length) →
        (∀ m ∈ layout (o + op.encode.length) l' ops, m ∈ layout o l (op :: ops)) →
        o < loc ∧ ∃ d, StubAt P (write buf o (encode (op :: ops))) (layout o l (op :: ops))
          (o + (encode (op :: ops)).length) (loc + 4) d := by
      intro l' live' hw' hl' hm' hsplit hsub
      obtain ⟨hlt, d, hstub⟩ := ih hw' hl' (write buf o op.encode) hm'
      rw [write_append] at hstub
      refine ⟨by omega, d, hstub.stores, hstub.bytes, hstub.jump, hsub _ hstub.exit, ?_, ?_⟩
      · have := hstub.fin
        rw [encode_cons, List.length_append]
        omega
      · intro m hm
        rcases hsplit m hm with hm | hm
        · exact hstub.clear m hm
        · exact .inl (by omega)
    cases op with
    | bytes data => exact htail hw (hl.mono (Nat.le_add_right _ _)) hm (fun m hm => .inl hm) fun m hm => hm
    | jcc v code =>
      obtain ⟨hv, hlen, hw⟩ := hw
      have hl' := hl.cons hv
      rw [← hlen] at hl'
      exact htail hw hl' hm (fun m hm => .inl hm) fun m hm => hm
    | target v =>
      refine htail hw.2 (hl.erase v) (List.mem_of_ne_of_mem (by simp) hm) (fun m hm => ?_) fun m hm =>
        List.mem_cons_of_mem _ hm
      rcases List.mem_cons.mp hm with rfl | hm
      · exact .inr ((hl.below v hw.1).trans (Nat.le_add_right _ _))
      · exact .inl hm
    | jmp pc' satp' =>
      have hl' := hl.mono (Nat.le_add_right o 5)
      rcases List.mem_cons.mp hm with heq | hm
      · cases heq
        obtain ⟨⟨d, hd, hP⟩, hw⟩ := hw
        obtain ⟨⟨rest, henc⟩, hexit, hclear⟩ := exitStub_spec hw hl' hd
        have hbuf : ∀ i, (hi : i < (encode ops).length) →
            write buf o (encode (.jmp pc satp :: ops)) (o + 1 + 4 + i) = (encode ops)[i] := by
          intro i hi
          rw [encode_cons, ← write_append]
          exact write_at hi
        have hlen : (encode ops).length = d.length + 5 + rest.length := by
          rw [henc]
          simp only [List.length_append, List.length_cons, word4_length]
          omega
        refine ⟨by omega, d, hP, ?_, ?_, List.mem_cons_of_mem _ hexit, ?_, ?_⟩
        · intro i hi
          rw [hbuf i (by omega)]
          simp only [henc, List.getElem_append_left hi]
        · rw [hbuf d.length (by omega)]
          simp [henc]
        · rw [encode_cons, List.length_append, hlen]
          simp only [Emit.encode, List.length_cons, word4_length]
          omega
        · intro m hm
          rcases List.mem_cons.mp hm with rfl | hm
          · exact .inl (Nat.le_refl _)
          · rcases hclear m hm with ⟨v, hv, hloc⟩ | hloc
            · have := hl.below v hv
              exact .inl (by omega)
            · exact .inr hloc
      · refine htail hw.2 hl' hm (fun m hm => ?_) fun m hm => List.mem_cons_of_mem _ hm
        rcases List.mem_cons.mp hm with rfl | hm
        · exact .inr (Nat.le_refl _)
        · exact .inl hm
    | exit =>
      refine htail hw (hl.mono (Nat.le_add_right o 5)) (List.mem_of_ne_of_mem (by simp) hm) (fun m hm => ?_)
        fun m hm => List.mem_cons_of_mem _ hm
      rcases List.mem_cons.mp hm with rfl | hm
      · exact .inr (Nat.le_refl _)
      · exact .inl hm

/-! ## The invariant of a pass -/

def OffsetEntry.key (bld : JitBuild) (e : OffsetEntry) : BitVec 64 := rvHashKey bld e.satp e.pc

/-- What holds between two calls. The key 0 is never found in the set, so only there a block can have two
entries. -/
structure BaseInv (bld : JitBuild) (s : JitState) : Prop where
  lower : orgSize ≤ s.offset
  upper : s.offset ≤ codeCacheSize
  entries : ∀ e ∈ s.offsetMap, orgSize ≤ e.offset ∧ e.offset ≤ s.offset
  keys : ∀ e ∈ s.offsetMap, e.key bld ≠ 0 → e.key bld ∈ s.set (setHash bld (e.key bld))
  unique : s.offsetMap.Pairwise fun e e' => e.key bld = e'.key bld → e.key bld = 0
  covered : ∀ i, ∀ k ∈ s.set i, ∃ e ∈ s.offsetMap, e.key bld = k

namespace JitCall

variable (c : JitCall)

/-- The bytes of a stretch that stores the PC. -/
def Stores (d : List Byte) : Prop :=
  ∃ b i, d = (c.code b i .storePc).flatten ∨ d = (c.code b i .storeTaken).flatten

/-- The invariant of `translate_chained_block`. -/
structure PassInv (s : JitState) : Prop extends BaseInv c.bld s where
  jumps : s.jumps = s.made.map JumpFor.record
  loc : ∀ m ∈ s.made, orgSize ≤ m.loc ∧ m.loc + 4 ≤ s.offset
  apart : s.made.Pairwise fun m m' => FieldsApart m.loc m'.loc
  inner : ∀ loc target, .inner loc target ∈ s.made → orgSize ≤ target ∧ target ≤ s.offset
  stub : ∀ loc pc satp, .guest loc pc satp ∈ s.made →
    ∃ d, StubAt c.Stores s.buf s.made s.offset (loc + 4) d

variable {c}

theorem PassInv.ran {s s' : JitState} (h : c.PassInv s) {ops : List Emit} (hw : WellFormed c.Stores [] ops)
    {l : Locs} (hran : Ran s s' (encode ops) (layout s.offset l ops)) : c.PassInv s' := by
  have hlive : Live s.offset l [] := .nil _ _
  have hle : s.offset ≤ s'.offset := by
    rw [hran.offset]
    exact Nat.le_add_right _ _
  -- the records of the handler lie behind all the others
  have hloc : ∀ m ∈ layout s.offset l ops, s.offset < m.loc ∧ m.loc + 4 ≤ s'.offset := by
    intro m hm
    obtain ⟨hm1, hm2⟩ := layout_loc hw hlive hm
    rw [hran.offset]
    exact ⟨hm1.resolve_left fun ⟨_, hv, _⟩ => absurd hv List.not_mem_nil, hm2⟩
  refine ⟨⟨h.lower.trans hle, hran.size h.upper, ?_, ?_, ?_, ?_⟩, ?_, ?_, ?_, ?_, ?_⟩
  · intro e he
    rw [hran.offsetMap] at he
    exact ⟨(h.entries e he).1, (h.entries e he).2.trans hle⟩
  · rw [hran.offsetMap, hran.set]
    exact h.keys
  · rw [hran.offsetMap]
    exact h.unique
  · rw [hran.offsetMap, hran.set]
    exact h.covered
  · rw [hran.jumps, hran.made, h.jumps, List.map_append]
  · intro m hm
    rw [hran.made] at hm
    rcases List.mem_append.mp hm with hm | hm
    · exact ⟨(h.loc m hm).1, (h.loc m hm).2.trans hle⟩
    · have hnew := hloc m hm
      exact ⟨h.lower.trans hnew.1.le, hnew.2⟩
  · rw [hran.made]
    refine List.pairwise_append.mpr ⟨h.apart, layout_apart hw hlive, fun m hm m' hm' => ?_⟩
    have := (h.loc m hm).2
    have := (hloc m' hm').1
    exact .inl (by omega)
  · intro loc target hm
    rw [hran.made] at hm
    rcases List.mem_append.mp hm with hm | hm
    · exact ⟨(h.inner loc target hm).1, (h.inner loc target hm).2.trans hle⟩
    · have := layout_inner hm
      rw [hran.offset]
      exact ⟨h.lower.trans this.1, this.2⟩
  · intro loc pc satp hm
    rw [hran.made] at hm ⊢
    rcases List.mem_append.mp hm with hm | hm
    · obtain ⟨d, hd⟩ := h.stub loc pc satp hm
      have hbelow : ∀ a, a < s.offset → s'.buf a = s.buf a := by
        intro a ha
        rw [hran.buf, write_before ha]
      have hfin := hd.fin
      refine ⟨d, hd.stores, ?_, ?_, List.mem_append_left _ hd.exit, hfin.trans hle, ?_⟩
      · intro i hi
        rw [hbelow _ (by omega), hd.bytes i hi]
      · rw [hbelow _ (by omega), hd.jump]
      · intro m hm
        rcases List.mem_append.mp hm with hm | hm
        · exact hd.clear m hm
        · have := (hloc m hm).1
          exact .inr (by omega)
    · obtain ⟨hlt, d, hd⟩ := layout_stub hw hlive s.buf hm
      rw [← hran.buf, ← hran.offset] at hd
      refine ⟨d, hd.stores, hd.bytes, hd.jump, List.mem_append_right _ hd.exit, hd.fin, ?_⟩
      intro m hm
      rcases List.mem_append.mp hm with hm | hm
      · have := (h.loc m hm).2
        exact .inl (by omega)
      · exact hd.clear m hm

/-- The invariant, as long as nothing has been flushed. -/
def Good (c : JitCall) (s : JitState) : Prop := s.shouldFlush = false → c.PassInv s

theorem Good.emitOps {s s' : JitState} (h : Good c s) {ops : List Emit} (hw : WellFormed c.Stores [] ops)
    (hs : emitOps ops s = .ok s') : Good c s' := by
  intro hnf
  have hran := emitFrom_ran hs hnf
  exact (h hran.flush).ran hw hran

theorem pageTail_wellFormed (b : JitBlock) : WellFormed c.Stores [] (c.pageTail b) := by
  have hpc : c.Stores (c.code b b.irs.length .storePc).flatten := ⟨b, _, .inl rfl⟩
  unfold pageTail jmpIf
  simp only
  split_ifs <;> simp [WellFormed, exitStub, hpc]

theorem setHas_false {bld : JitBuild} {t : CodeSet} {key : BitVec 64} (h : setHas bld t key = .ok false) :
    key ∉ t (setHash bld key) := by
  unfold setHas at h
  simp only at h
  split_ifs at h with hmem
  · cases h
  · exact hmem

theorem setHas_true {bld : JitBuild} {t : CodeSet} {key : BitVec 64} (h : setHas bld t key = .ok true) :
    key ∈ t (setHash bld key) := by
  unfold setHas at h
  simp only at h
  split_ifs at h with hmem
  · exact hmem
  · cases h

/-- `set_add` keeps the keys, and adds its own unless that is 0. -/
theorem setAdd_mem {bld : JitBuild} {t t' : CodeSet} {key : BitVec 64} {added : Bool}
    (h : setAdd bld t key = .ok (t', added)) :
    (∀ i k, k ∈ t i → k ∈ t' i) ∧ (key ≠ 0 → key ∈ t' (setHash bld key)) ∧
      ∀ i k, k ∈ t' i → k ∈ t i ∨ k = key := by
  unfold setAdd at h
  simp only at h
  split_ifs at h with hmem hfull hzero
  · cases h
    exact ⟨fun _ _ hk => hk, fun _ => hmem, fun _ _ hk => .inl hk⟩
  · cases h
    exact ⟨fun _ _ hk => hk, fun hne => absurd hzero hne, fun _ _ hk => .inl hk⟩
  · cases h
    refine ⟨fun i k hk => ?_, fun _ => ?_, fun i k hk => ?_⟩
    · by_cases hi : i = setHash bld key
      · subst hi
        rw [Function.update_self]
        exact List.mem_append_left _ hk
      · rwa [Function.update_of_ne hi]
    · rw [Function.update_self]
      exact List.mem_append_right _ List.mem_cons_self
    · by_cases hi : i = setHash bld key
      · subst hi
        rw [Function.update_self] at hk
        exact (List.mem_append.mp hk).imp_right List.mem_singleton.mp
      · rw [Function.update_of_ne hi] at hk
        exact .inl hk

/-- A block that is not in the set gets its entry. -/
theorem PassInv.insert {s : JitState} (h : c.PassInv s) {b : JitBlock} {t : CodeSet} {added : Bool}
    (hnew : rvHashKey c.bld b.satp b.pcStart ∉ s.set (setHash c.bld (rvHashKey c.bld b.satp b.pcStart)))
    (hadd : setAdd c.bld s.set (rvHashKey c.bld b.satp b.pcStart) = .ok (t, added)) :
    c.PassInv { s with set := t, offsetMap := s.offsetMap ++ [⟨b.pcStart, s.offset, b.satp⟩] } := by
  obtain ⟨hold, hkey, hnone⟩ := setAdd_mem hadd
  refine { h with entries := ?_, keys := ?_, unique := ?_, covered := ?_ }
  · intro e he
    rcases List.mem_append.mp he with he | he
    · exact h.entries e he
    · obtain rfl := List.mem_singleton.mp he
      exact ⟨h.lower, Nat.le_refl _⟩
  · intro e he hne
    rcases List.mem_append.mp he with he | he
    · exact hold _ _ (h.keys e he hne)
    · obtain rfl := List.mem_singleton.mp he
      exact hkey hne
  · refine List.pairwise_append.mpr ⟨h.unique, List.pairwise_singleton _ _, fun e he e' he' heq => ?_⟩
    obtain rfl := List.mem_singleton.mp he'
    by_contra hne
    have hmem := h.keys e he hne
    rw [heq] at hmem
    exact hnew hmem
  · intro i k hk
    rcases hnone i k hk with hk | rfl
    · obtain ⟨e, he, hek⟩ := h.covered i k hk
      exact ⟨e, List.mem_append_left _ he, hek⟩
    · exact ⟨_, List.mem_append_right _ List.mem_cons_self, rfl⟩

/-- **The steps of `translate_chained_block` keep the invariant.** -/
theorem good_preserves (c : JitCall) : c.Preserves (Good c) where
  node hops h hs := h.emitOps (dispatch_wellFormed ⟨_, _, .inl rfl⟩ ⟨_, _, .inr rfl⟩ hops) hs
  page h hs := h.emitOps (pageTail_wellFormed _) hs
  insert hhas hadd _ h := fun hnf => (h hnf).insert (setHas_false hhas) hadd

end JitCall

/-! ## Passes -/

/-- The states in which a pass of `jit_translate` can begin. -/
inductive JitReachable (bld : JitBuild) : JitState → Prop
  | init : JitReachable bld jitStateInit
  | translated {c : JitCall} {b : JitBlock} {s s' : JitState} (hc : c.bld = bld) (h : JitReachable bld s)
      (hpass : c.jitPass b s = .ok s') (hnf : s'.shouldFlush = false) (retpolineLoc : Word) :
      JitReachable bld (resolveJumps bld retpolineLoc s')
  | flushed {c : JitCall} {b : JitBlock} {s s' : JitState} (hc : c.bld = bld) (h : JitReachable bld s)
      (hpass : c.jitPass b s = .ok s') (hf : s'.shouldFlush = true) : JitReachable bld (codeCacheFlush s')

theorem JitCall.PassInv.start {c : JitCall} {s : JitState} (h : BaseInv c.bld s) :
    c.PassInv { s with jumps := [], made := [] } where
  lower := h.lower
  upper := h.upper
  entries := h.entries
  keys := h.keys
  unique := h.unique
  covered := h.covered
  jumps := rfl
  loc := fun _ hm => absurd hm List.not_mem_nil
  apart := .nil
  inner := fun _ _ hm => absurd hm List.not_mem_nil
  stub := fun _ _ _ hm => absurd hm List.not_mem_nil

theorem JitCall.jitPass_inv {c : JitCall} {b : JitBlock} {s s' : JitState} (h : BaseInv c.bld s)
    (hpass : c.jitPass b s = .ok s') (hnf : s'.shouldFlush = false) : c.PassInv s' :=
  (JitCall.good_preserves c).translateChainedBlock (fun _ => .start h) hpass hnf

theorem baseInv_empty {bld : JitBuild} {s : JitState} (ho : s.offset = orgSize) (hm : s.offsetMap = [])
    (hs : s.set = fun _ => []) : BaseInv bld s where
  lower := ho.ge
  upper := by
    rw [ho]
    decide
  entries := by simp [hm]
  keys := by simp [hm]
  unique := by simp [hm]
  covered := by simp [hs]

theorem JitReachable.inv {bld : JitBuild} {s : JitState} (h : JitReachable bld s) : BaseInv bld s := by
  induction h with
  | init => exact baseInv_empty rfl rfl rfl
  | translated hc _ hpass hnf retpolineLoc ih =>
    subst hc
    have hinv := (JitCall.jitPass_inv ih hpass hnf).toBaseInv
    exact ⟨hinv.lower, hinv.upper, hinv.entries, hinv.keys, hinv.unique, hinv.covered⟩
  | flushed => exact baseInv_empty rfl rfl rfl

/-! ## `resolve_jumps` -/

theorem dispAt_congr {buf buf' : Nat → Byte} {loc : Nat} (h : ∀ i < 4, buf (loc + i) = buf' (loc + i)) :
    dispAt buf loc = dispAt buf' loc := by
  unfold dispAt
  rw [h 1 (by omega), h 2 (by omega), h 3 (by omega), show buf loc = buf' loc from h 0 (by omega)]

section Resolve

variable {bld : JitBuild} {retpolineLoc : Word} {map : List OffsetEntry}

theorem patch_other {js : List Jump} {buf : Nat → Byte} {a : Nat}
    (h : ∀ j ∈ js, a < j.offsetLoc ∨ j.offsetLoc + 4 ≤ a) :
    js.foldl (Jump.patch bld retpolineLoc map) buf a = buf a := by
  induction js generalizing buf with
  | nil => rfl
  | cons j js ih =>
    rw [List.foldl_cons, ih fun j' hj' => h j' (List.mem_cons_of_mem _ hj')]
    rcases h j List.mem_cons_self with hlt | hge
    · exact write_before hlt
    · exact write_after hge

/-- **Every displacement ends up as computed for its record.** -/
theorem patch_dispAt {js : List Jump} (hap : js.Pairwise fun j j' => FieldsApart j.offsetLoc j'.offsetLoc)
    {buf : Nat → Byte} {j : Jump} (hj : j ∈ js) :
    dispAt (js.foldl (Jump.patch bld retpolineLoc map) buf) j.offsetLoc =
      j.targetLoc bld retpolineLoc map - .ofNat 32 (j.offsetLoc + 4) := by
  induction js generalizing buf with
  | nil => cases hj
  | cons k js ih =>
    obtain ⟨hk, hap⟩ := List.pairwise_cons.mp hap
    rcases List.mem_cons.mp hj with rfl | hj
    · have hstay : ∀ i < 4, js.foldl (Jump.patch bld retpolineLoc map)
          (Jump.patch bld retpolineLoc map buf j) (j.offsetLoc + i) =
            Jump.patch bld retpolineLoc map buf j (j.offsetLoc + i) := by
        intro i hi
        refine patch_other fun j' hj' => ?_
        rcases hk j' hj' with h | h <;> omega
      rw [List.foldl_cons, dispAt_congr hstay]
      exact dispAt_write _ _ _
    · exact ih hap hj

end Resolve

/-- A displacement between two offsets of the buffer is exact. -/
theorem landing_of_dispAt {buf : Nat → Byte} {loc t : Nat} (hloc : loc + 4 ≤ codeCacheSize)
    (ht : t ≤ codeCacheSize) (h : dispAt buf loc = .ofNat 32 t - .ofNat 32 (loc + 4)) : landing buf loc = t := by
  have hsize : codeCacheSize < 2 ^ 30 := by decide
  unfold landing
  rw [h, BitVec.toInt_sub, BitVec.toInt_eq_toNat_of_lt, BitVec.toInt_eq_toNat_of_lt]
  · simp only [BitVec.toNat_ofNat]
    rw [Nat.mod_eq_of_lt (by omega), Nat.mod_eq_of_lt (by omega)]
    rw [Int.bmod_eq_of_le (by omega) (by omega)]
    omega
  · rw [BitVec.toNat_ofNat, Nat.mod_eq_of_lt (by omega)]
    omega
  · rw [BitVec.toNat_ofNat, Nat.mod_eq_of_lt (by omega)]
    omega

/-! ## Where the jumps land -/

/-- The jump lands where it should in the buffer `buf`. A guest jump goes to the block of the offset map
for its PC; where there is none, to the code behind it, which stores the PC and exits. -/
def JumpFor.Lands (c : JitCall) (map : List OffsetEntry) (buf : Nat → Byte) : JumpFor → Prop
  | .inner loc target => landing buf loc = target
  | .exit loc => landing buf loc = exitLoc
  | .guest loc pc satp =>
    (∃ e ∈ map, e.isFor c.bld pc satp = true ∧ landing buf loc = e.offset ∧
      (e.key c.bld ≠ 0 → ∀ e' ∈ map, e'.isFor c.bld pc satp = true → e' = e)) ∨
    ((∀ e ∈ map, e.isFor c.bld pc satp = false) ∧ landing buf loc = (loc + 4 : Nat) ∧
      ∃ d, c.Stores d ∧ (∀ i, (h : i < d.length) → buf (loc + 4 + i) = d[i]) ∧
        buf (loc + 4 + d.length) = jccJmp ∧ landing buf (loc + 4 + d.length + 1) = exitLoc)

theorem OffsetEntry.key_eq_of_isFor {bld : JitBuild} {pc satp : Word} {e e' : OffsetEntry}
    (h : e.isFor bld pc satp = true) (h' : e'.isFor bld pc satp = true) : e.key bld = e'.key bld := by
  simp only [isFor, Bool.and_eq_true, Bool.or_eq_true, Bool.not_eq_true', decide_eq_true_eq] at h h'
  unfold key rvHashKey
  split_ifs with hsys
  · have hs := h.2.resolve_left (by simp [hsys])
    have hs' := h'.2.resolve_left (by simp [hsys])
    rw [h.1, h'.1, hs, hs']
  · rw [h.1, h'.1]

theorem BaseInv.entry_unique {bld : JitBuild} {s : JitState} (h : BaseInv bld s) {e e' : OffsetEntry}
    (he : e ∈ s.offsetMap) (he' : e' ∈ s.offsetMap) (hkey : e.key bld = e'.key bld) (hne : e.key bld ≠ 0) :
    e' = e := by
  by_contra hdiff
  have hsymm : Std.Symm fun e e' : OffsetEntry => e.key bld = e'.key bld → e.key bld = 0 := by
    refine ⟨fun e e' hr heq => ?_⟩
    rw [heq]
    exact hr heq.symm
  exact hne (h.unique.forall he he' (Ne.symm hdiff) hkey)

section Lands

variable {c : JitCall} {s : JitState} {retpolineLoc : Word}

/-- The displacement of a jump after `resolve_jumps`. -/
theorem JitCall.PassInv.dispAt_resolve (h : c.PassInv s) {m : JumpFor} (hm : m ∈ s.made) :
    dispAt (resolveJumps c.bld retpolineLoc s).buf m.loc =
      m.record.targetLoc c.bld retpolineLoc s.offsetMap - .ofNat 32 (m.loc + 4) := by
  have hloc : ∀ m : JumpFor, m.record.offsetLoc = m.loc := by
    intro m
    cases m <;> rfl
  have hap : s.jumps.Pairwise fun j j' => FieldsApart j.offsetLoc j'.offsetLoc := by
    rw [h.jumps, List.pairwise_map]
    simpa only [hloc] using h.apart
  have hmem : m.record ∈ s.jumps := by
    rw [h.jumps]
    exact List.mem_map_of_mem hm
  have hdisp : dispAt (resolveJumps c.bld retpolineLoc s).buf m.record.offsetLoc = _ := patch_dispAt hap hmem
  rwa [hloc] at hdisp

theorem JitCall.PassInv.landing_resolve (h : c.PassInv s) {m : JumpFor} (hm : m ∈ s.made) {t : Nat}
    (ht : t ≤ codeCacheSize) (htarget : m.record.targetLoc c.bld retpolineLoc s.offsetMap = .ofNat 32 t) :
    landing (resolveJumps c.bld retpolineLoc s).buf m.loc = t := by
  refine landing_of_dispAt ((h.loc m hm).2.trans h.upper) ht ?_
  rw [h.dispAt_resolve hm, htarget]

theorem JitCall.PassInv.exit_lands (h : c.PassInv s) {loc : Nat} (hm : .exit loc ∈ s.made) :
    landing (resolveJumps c.bld retpolineLoc s).buf loc = exitLoc :=
  h.landing_resolve hm (by decide) rfl

theorem JitCall.PassInv.inner_lands (h : c.PassInv s) {loc target : Nat} (hm : .inner loc target ∈ s.made) :
    landing (resolveJumps c.bld retpolineLoc s).buf loc = target := by
  obtain ⟨hlow, hup⟩ := h.inner loc target hm
  have hpos : target ≠ 0 := by
    have : 0 < orgSize := by decide
    omega
  exact h.landing_resolve hm (hup.trans h.upper) (if_pos hpos)

theorem StubAt.stays {P : List Byte → Prop} {fin p : Nat} {d : List Byte}
    (hd : StubAt P s.buf s.made fin p d) (h : c.PassInv s) {a : Nat} (ha : p ≤ a) (ha' : a ≤ p + d.length) :
    (resolveJumps c.bld retpolineLoc s).buf a = s.buf a := by
  refine patch_other fun j hj => ?_
  rw [h.jumps] at hj
  obtain ⟨m, hm, rfl⟩ := List.mem_map.mp hj
  have hclear := hd.clear m hm
  have hloc : m.record.offsetLoc = m.loc := by cases m <;> rfl
  rw [hloc]
  omega

theorem JitCall.PassInv.guest_lands (h : c.PassInv s) {loc : Nat} {pc satp : Word}
    (hm : .guest loc pc satp ∈ s.made) (hexit : pc ≠ targetPcExit) (hretp : pc ≠ targetPcRetpoline) :
    (JumpFor.guest loc pc satp).Lands c s.offsetMap (resolveJumps c.bld retpolineLoc s).buf := by
  cases hfind : s.offsetMap.find? (OffsetEntry.isFor c.bld pc satp) with
  | some e =>
    have htarget : (JumpFor.guest loc pc satp).record.targetLoc c.bld retpolineLoc s.offsetMap =
        .ofNat 32 e.offset := by
      simp [JumpFor.record, Jump.targetLoc, hexit, hretp, hfind]
    have he := List.mem_of_find?_eq_some hfind
    have hfor := List.find?_some hfind
    refine .inl ⟨e, he, hfor, ?_, fun hne e' he' hfor' => ?_⟩
    · exact h.landing_resolve hm ((h.entries e he).2.trans h.upper) htarget
    · exact h.entry_unique he he' (OffsetEntry.key_eq_of_isFor hfor hfor') hne
  | none =>
    have htarget : (JumpFor.guest loc pc satp).record.targetLoc c.bld retpolineLoc s.offsetMap =
        .ofNat 32 (loc + 4) := by
      simp [JumpFor.record, Jump.targetLoc, hexit, hretp, hfind]
    obtain ⟨d, hd⟩ := h.stub loc pc satp hm
    refine .inr ⟨?_, ?_, d, hd.stores, ?_, ?_, h.exit_lands hd.exit⟩
    · simpa using hfind
    · exact h.landing_resolve hm ((h.loc _ hm).2.trans h.upper) htarget
    · intro i hi
      rw [hd.stays h (by omega) (by omega)]
      exact hd.bytes i hi
    · rw [hd.stays h (by omega) (by omega)]
      exact hd.jump

theorem JitCall.PassInv.not_lands_below (h : c.PassInv s) {loc : Nat} {pc satp : Word}
    (hm : .guest loc pc satp ∈ s.made) {buf : Nat → Byte} {t : Nat} (ht : t < orgSize)
    (hland : landing buf loc = t) : ¬ (JumpFor.guest loc pc satp).Lands c s.offsetMap buf := by
  rintro (⟨e, he, -, hoff, -⟩ | ⟨-, hnext, -⟩)
  · have := (h.entries e he).1
    rw [hland] at hoff
    omega
  · have := (h.loc _ hm).1
    rw [JumpFor.loc_guest] at this
    rw [hland] at hnext
    omega

end Lands

/-- A call on blocks that store `pc` when they leave: `mov $pc, %ecx; mov %ecx, PC(%rdi)`. -/
def jalCall (pc : Word) : JitCall where
  code _ _
    | .storePc => [[0xb9], JitState.word4 pc, [0x89], [0x8f], [0x84, 0, 0, 0]]
    | _ => []

/-- `jal x0, -0x10002` at 0x10001, an address that `c.jr` can go to. -/
def oddBlock : JitBlock :=
  { pcStart := 0x10001, pcEnd := 0x10005, irs := [{ opcode := .jal, imm := 0xfffefffe, pc := 0x10001 }] }

/-- `jal x0, 0` at 0x1000. -/
def loopBlock : JitBlock :=
  { pcStart := 0x1000, pcEnd := 0x1004, irs := [{ opcode := .jal, pc := 0x1000 }], tail := { taken := some 0x1000 } }

end Rv32emu
