import Rv32emu.Insn

/-!
# The platform-level interrupt controller

`devices/plic.c` and the callers of `plic_update_interrupts` in `system.c` and `system.h`.

* `Plic`, `Plic.updateInterrupts`, `plicRead`, `plicWrite` : the controller; a shift by 32 or more is undefined;
* `PlicOp.exec` : a change of an interrupt line or an access of the driver, each followed by an update;
* `PlicRun` : the histories of a driver that completes only what it has claimed;
* `Plic.Tracked` : a source is masked exactly while it is pending or a claim of it is outstanding;
* `plicRun_gateways` : no interrupt is duplicated or lost.
-/

namespace Rv32emu

/-! ## The controller -/

/-- `plic_t`, with the word `csr_sip` of the hart. -/
structure Plic where
  masked : Word := 0
  ip : Word := 0
  ie : Word := 0
  /-- The levels of the interrupt lines. -/
  active : Word := 0
  sip : Word := 0
  deriving DecidableEq

def sipSeip : Word := 0x200

def Plic.updateInterrupts (p : Plic) : Plic :=
  let ip := p.ip ||| (p.active &&& ~~~p.masked)
  { p with
    ip
    masked := p.masked ||| p.active
    sip := if ip &&& p.ie ≠ 0 then p.sip ||| sipSeip else p.sip &&& ~~~sipSeip }

/-- `enum PLIC_REG`. -/
def plicIntrPending : Word := 0x1000
def plicIntrEnable : Word := 0x2000
def plicIntrPriorityThreshold : Word := 0x200000
def plicIntrClaimOrComplete : Word := 0x200004

/-- The value read, and the controller after a claim. -/
def plicRead (p : Plic) (addr : Word) : Word × Plic :=
  if addr = plicIntrPending then (p.ip, p)
  else if addr = plicIntrEnable then (p.ie, p)
  else if addr = plicIntrPriorityThreshold then (0, p)
  else if addr = plicIntrClaimOrComplete then
    let candidate := p.ip &&& p.ie
    if candidate ≠ 0 then (candidate.ctz, { p with ip := p.ip &&& ~~~((1 : Word) <<< candidate.ctz.toNat) })
    else (0, p)
  else (0, p)

/-- `1U << value`. -/
def sourceBit (value : Word) : Option Word := if value.toNat < 32 then some (1 <<< value.toNat) else none

def plicWrite (p : Plic) (addr value : Word) : Option Plic :=
  if addr = plicIntrEnable then some { p with ie := value &&& ~~~1 }
  else if addr = plicIntrClaimOrComplete then do
    let bit ← sourceBit value
    return if p.ie &&& bit ≠ 0 then { p with masked := p.masked &&& ~~~bit } else p
  else some p

/-! ## Histories -/

inductive PlicOp
  /-- `emu_update_uart_interrupts` and the other device updates, for one line. -/
  | line (irq : BitVec 5) (level : Bool)
  | read (addr : Word)
  | write (addr value : Word)

inductive PlicEvent
  /-- What a claim has returned. -/
  | claim (source : Word)
  /-- A completion, and whether the source was enabled. -/
  | complete (source : Word) (enabled : Bool)
  deriving DecidableEq

def hasSource (w source : Word) : Bool := w.getLsbD source.toNat

def Plic.setLine (p : Plic) (irq : BitVec 5) (level : Bool) : Plic :=
  let bit : Word := 1 <<< irq.toNat
  { p with active := if level then p.active ||| bit else p.active &&& ~~~bit }

/-- One operation of a device or of the driver; `none` is undefined. -/
def PlicOp.exec (p : Plic) : PlicOp → Option (List PlicEvent × Plic)
  | .line irq level => some ([], (p.setLine irq level).updateInterrupts)
  | .read addr =>
    let r := plicRead p addr
    some (if addr = plicIntrClaimOrComplete then [.claim r.1] else [], r.2.updateInterrupts)
  | .write addr value => do
    let p' ← plicWrite p addr value
    return (if addr = plicIntrClaimOrComplete then [.complete value (hasSource p.ie value)] else [],
      p'.updateInterrupts)

/-- The last claim of the source is not completed yet; the newest event stands first. A completion while the
source is disabled does not count. -/
def Outstanding (source : Word) : List PlicEvent → Prop
  | [] => False
  | e :: hist =>
    if e = .claim source then True
    else if e = .complete source true then False
    else Outstanding source hist

/-- A claim that returns 0 claims nothing. -/
def Claimed (hist : List PlicEvent) (source : Word) : Prop := source ≠ 0 ∧ Outstanding source hist

/-- The driver completes only sources it has claimed and not yet completed. -/
def PlicOp.Conforms (hist : List PlicEvent) : PlicOp → Prop
  | .write addr value => addr = plicIntrClaimOrComplete → Claimed hist value
  | _ => True

/-- The histories from reset, newest event first. -/
inductive PlicRun : List PlicEvent → Plic → Prop
  | init : PlicRun [] {}
  | step {hist : List PlicEvent} {p : Plic} (h : PlicRun hist p) {op : PlicOp} (hop : op.Conforms hist)
      {events : List PlicEvent} {p' : Plic} (hexec : op.exec p = some (events, p')) :
      PlicRun (events ++ hist) p'

/-! ## Bits -/

section Bits

variable {source : Word}

theorem hasSource_and (v w : Word) : hasSource (v &&& w) source = (hasSource v source && hasSource w source) :=
  BitVec.getLsbD_and

theorem hasSource_or (v w : Word) : hasSource (v ||| w) source = (hasSource v source || hasSource w source) :=
  BitVec.getLsbD_or

theorem hasSource_not (w : Word) (h : source.toNat < 32) : hasSource (~~~w) source = !hasSource w source := by
  simp [hasSource, h]

theorem lt_of_hasSource {w : Word} (h : hasSource w source = true) : source.toNat < 32 := BitVec.lt_of_getLsbD h

theorem hasSource_one_shl {n : Nat} (h : n < 32) :
    hasSource ((1 : Word) <<< n) source = decide (source.toNat = n) := by
  change (BitVec.twoPow 32 n).getLsbD source.toNat = _
  rw [BitVec.getLsbD_twoPow]
  simp [h, eq_comm]

theorem and_one_shl_ne {w : Word} (h : source.toNat < 32) :
    w &&& (1 : Word) <<< source.toNat ≠ 0 ↔ hasSource w source = true := by
  change w &&& BitVec.twoPow 32 source.toNat ≠ 0 ↔ _
  rw [BitVec.and_twoPow]
  unfold hasSource
  split_ifs with hbit
  · rw [hbit]
    refine iff_of_true (fun hzero => ?_) rfl
    have hb := congrArg (fun v : Word => v.getLsbD source.toNat) hzero
    simp [h] at hb
  · exact iff_of_false (fun hne => hne rfl) hbit

end Bits

/-! ## Claims in a history -/

section Claims

variable {hist : List PlicEvent} {source : Word}

theorem claimed_claim (v : Word) :
    Claimed (.claim v :: hist) source ↔ source ≠ 0 ∧ source = v ∨ Claimed hist source := by
  unfold Claimed
  rw [Outstanding]
  by_cases h : source = v
  · rw [h, if_pos rfl]
    tauto
  · have hne : PlicEvent.claim v ≠ .claim source := fun heq => h (PlicEvent.claim.inj heq).symm
    have hne' : PlicEvent.claim v ≠ .complete source true := fun heq => nomatch heq
    rw [if_neg hne, if_neg hne']
    tauto

theorem claimed_complete (v : Word) (enabled : Bool) :
    Claimed (.complete v enabled :: hist) source ↔ ¬ (enabled = true ∧ source = v) ∧ Claimed hist source := by
  unfold Claimed
  rw [Outstanding]
  have hne : PlicEvent.complete v enabled ≠ .claim source := fun heq => nomatch heq
  rw [if_neg hne]
  by_cases h : enabled = true ∧ source = v
  · obtain ⟨rfl, rfl⟩ := h
    rw [if_pos rfl]
    tauto
  · have hne' : PlicEvent.complete v enabled ≠ .complete source true := by
      rintro ⟨⟩
      exact h ⟨rfl, rfl⟩
    rw [if_neg hne']
    tauto

/-- A claim that is not outstanding any more has been completed. -/
theorem complete_mem_of_not_outstanding {mid pre : List PlicEvent}
    (h : ¬ Outstanding source (mid ++ .claim source :: pre)) : .complete source true ∈ mid := by
  induction mid with
  | nil =>
    rw [List.nil_append, Outstanding, if_pos rfl] at h
    exact absurd trivial h
  | cons e mid ih =>
    rw [List.cons_append, Outstanding] at h
    split_ifs at h with h1 h2
    · exact absurd trivial h
    · rw [h2]
      exact List.mem_cons_self
    · exact List.mem_cons_of_mem e (ih h)

end Claims

/-! ## The invariant -/

/-- A source is masked exactly while it is pending or claimed, and it is not both. -/
structure Plic.Tracked (hist : List PlicEvent) (p : Plic) : Prop where
  masked : ∀ source, hasSource p.masked source = true ↔ hasSource p.ip source = true ∨ Claimed hist source
  claimed : ∀ source, Claimed hist source → hasSource p.ip source = false
  zero : hasSource p.ie 0 = false

namespace Plic.Tracked

variable {hist : List PlicEvent} {p : Plic}

theorem lt_of_claimed (h : p.Tracked hist) {source : Word} (hc : Claimed hist source) : source.toNat < 32 :=
  lt_of_hasSource ((h.masked source).mpr (.inr hc))

theorem update (h : p.Tracked hist) (active : Word) : ({ p with active }.updateInterrupts).Tracked hist := by
  have hip : ∀ source, hasSource ({ p with active }.updateInterrupts).ip source =
      (hasSource p.ip source || (hasSource active source && !hasSource p.masked source)) := by
    intro source
    change hasSource (p.ip ||| (active &&& ~~~p.masked)) source = _
    rw [hasSource_or, hasSource_and]
    by_cases hlt : source.toNat < 32
    · rw [hasSource_not _ hlt]
    · have ha : hasSource active source = false := Bool.eq_false_iff.mpr fun ht => hlt (lt_of_hasSource ht)
      rw [ha, Bool.false_and, Bool.false_and]
  refine ⟨fun source => ?_, fun source hc => ?_, h.zero⟩
  · change hasSource (p.masked ||| active) source = true ↔ _
    rw [hip, hasSource_or]
    simp only [Bool.or_eq_true, Bool.and_eq_true, Bool.not_eq_true', ← Bool.not_eq_true, h.masked source]
    tauto
  · rw [hip, h.claimed source hc, (h.masked source).mpr (.inr hc)]
    simp

theorem candidate (h : p.Tracked hist) (hne : p.ip &&& p.ie ≠ 0) :
    hasSource p.ip (p.ip &&& p.ie).ctz = true ∧ hasSource p.ie (p.ip &&& p.ie).ctz = true ∧
      (p.ip &&& p.ie).ctz ≠ 0 := by
  have hbit : hasSource (p.ip &&& p.ie) (p.ip &&& p.ie).ctz = true := BitVec.getLsbD_true_ctz_of_ne_zero hne
  rw [hasSource_and, Bool.and_eq_true] at hbit
  refine ⟨hbit.1, hbit.2, fun hzero => ?_⟩
  rw [hzero, h.zero] at hbit
  exact Bool.false_ne_true hbit.2

theorem claim (h : p.Tracked hist) (hne : p.ip &&& p.ie ≠ 0) :
    ({ p with ip := p.ip &&& ~~~((1 : Word) <<< (p.ip &&& p.ie).ctz.toNat) } : Plic).Tracked
      (.claim (p.ip &&& p.ie).ctz :: hist) := by
  obtain ⟨hpending, -, hv⟩ := h.candidate hne
  generalize (p.ip &&& p.ie).ctz = v at hpending hv ⊢
  have hlt := lt_of_hasSource hpending
  have hip : ∀ source, hasSource (p.ip &&& ~~~((1 : Word) <<< v.toNat)) source =
      (hasSource p.ip source && !decide (source = v)) := by
    intro source
    rw [hasSource_and]
    by_cases hs : source.toNat < 32
    · rw [hasSource_not _ hs, hasSource_one_shl hlt]
      congr 2
      exact decide_eq_decide.mpr ⟨BitVec.eq_of_toNat_eq, congrArg _⟩
    · have hno : hasSource p.ip source = false := Bool.eq_false_iff.mpr fun ht => hs (lt_of_hasSource ht)
      rw [hno, Bool.false_and, Bool.false_and]
  refine ⟨fun source => ?_, fun source hc => ?_, h.zero⟩
  · rw [claimed_claim]
    change hasSource p.masked source = true ↔ hasSource (p.ip &&& ~~~((1 : Word) <<< v.toNat)) source = true ∨ _
    rw [hip, h.masked source]
    by_cases hs : source = v
    · rw [hs]
      exact iff_of_true (.inl hpending) (.inr (.inl ⟨hv, rfl⟩))
    · simp [hs]
  · change hasSource (p.ip &&& ~~~((1 : Word) <<< v.toNat)) source = false
    rw [hip]
    rcases (claimed_claim v).mp hc with ⟨-, hs⟩ | hc
    · simp [hs]
    · rw [h.claimed source hc, Bool.false_and]

theorem claim_zero (h : p.Tracked hist) : p.Tracked (.claim 0 :: hist) := by
  have hiff : ∀ source, Claimed (.claim 0 :: hist) source ↔ Claimed hist source := by
    intro source
    rw [claimed_claim]
    tauto
  exact ⟨fun source => by rw [h.masked, hiff], fun source hc => h.claimed source ((hiff source).mp hc), h.zero⟩

theorem enable (h : p.Tracked hist) (value : Word) : ({ p with ie := value &&& ~~~1 } : Plic).Tracked hist := by
  refine ⟨h.masked, h.claimed, ?_⟩
  change hasSource (value &&& ~~~1) 0 = false
  rw [hasSource_and, show hasSource (~~~(1 : Word)) 0 = false by decide, Bool.and_false]

/-- A completion of a claimed source that is enabled. -/
theorem complete (h : p.Tracked hist) {v : Word} (hc : Claimed hist v) :
    ({ p with masked := p.masked &&& ~~~((1 : Word) <<< v.toNat) } : Plic).Tracked (.complete v true :: hist) := by
  have hlt := h.lt_of_claimed hc
  refine ⟨fun source => ?_, fun source hcs => ?_, h.zero⟩
  · rw [claimed_complete]
    change hasSource (p.masked &&& ~~~((1 : Word) <<< v.toNat)) source = true ↔ _
    rw [hasSource_and, Bool.and_eq_true, h.masked source]
    by_cases hs : source = v
    · subst hs
      rw [hasSource_not _ hlt, hasSource_one_shl hlt, h.claimed source hc]
      simp
    · have hne : source.toNat ≠ v.toNat := fun heq => hs (BitVec.eq_of_toNat_eq heq)
      constructor
      · rintro ⟨hp | hp, -⟩
        · exact .inl hp
        · exact .inr ⟨fun hboth => hs hboth.2, hp⟩
      · intro hp
        have hm : hasSource p.ip source = true ∨ Claimed hist source := hp.imp_right And.right
        have hlts := lt_of_hasSource ((h.masked source).mpr hm)
        refine ⟨hm, ?_⟩
        rw [hasSource_not _ hlts, hasSource_one_shl hlt, decide_eq_false hne]
        rfl
  · exact h.claimed source ((claimed_complete v true).mp hcs).2

theorem complete_disabled (h : p.Tracked hist) (v : Word) : p.Tracked (.complete v false :: hist) := by
  have hiff : ∀ source, Claimed (.complete v false :: hist) source ↔ Claimed hist source := by
    intro source
    rw [claimed_complete]
    simp
  exact ⟨fun source => by rw [h.masked, hiff], fun source hc => h.claimed source ((hiff source).mp hc), h.zero⟩

end Plic.Tracked

theorem tracked_init : ({} : Plic).Tracked [] := by
  have hzero : ∀ source, hasSource 0 source = false := fun source => by simp [hasSource]
  refine ⟨fun source => ?_, fun source hc => hc.2.elim, hzero 0⟩
  rw [hzero source]
  exact iff_of_false Bool.false_ne_true fun h => h.elim Bool.false_ne_true And.right

/-! ## One operation -/

section Step

variable {hist : List PlicEvent} {p p' : Plic} {events : List PlicEvent}

theorem plicRead_claim (p : Plic) :
    plicRead p plicIntrClaimOrComplete = if p.ip &&& p.ie = 0 then (0, p)
      else ((p.ip &&& p.ie).ctz, { p with ip := p.ip &&& ~~~((1 : Word) <<< (p.ip &&& p.ie).ctz.toNat) }) := by
  change (if p.ip &&& p.ie ≠ 0 then _ else _) = _
  rw [ite_not]

theorem plicRead_other {addr : Word} (h : addr ≠ plicIntrClaimOrComplete) : (plicRead p addr).2 = p := by
  unfold plicRead
  rw [if_neg h]
  split_ifs <;> rfl

theorem plicWrite_complete {value : Word} (h : value.toNat < 32) :
    plicWrite p plicIntrClaimOrComplete value = some (if hasSource p.ie value then
      { p with masked := p.masked &&& ~~~((1 : Word) <<< value.toNat) } else p) := by
  change (sourceBit value).bind _ = _
  rw [sourceBit, if_pos h, Option.bind_some]
  exact congrArg some (if_congr (and_one_shl_ne h) rfl rfl)

theorem plicWrite_other (p : Plic) {addr : Word} (value : Word) (h : addr ≠ plicIntrClaimOrComplete) :
    plicWrite p addr value = some p ∨ plicWrite p addr value = some { p with ie := value &&& ~~~1 } := by
  unfold plicWrite
  rw [if_neg h]
  split_ifs
  · exact .inr rfl
  · exact .inl rfl

/-- **What an operation does.** Every one ends with an update; the events and the state before it are those of
a claim, a completion or an access that changes at most the enable bits. -/
theorem PlicOp.exec_tracked {op : PlicOp} (h : p.Tracked hist) (hop : op.Conforms hist)
    (hexec : op.exec p = some (events, p')) :
    ∃ q : Plic, q.Tracked (events ++ hist) ∧ p' = q.updateInterrupts ∧ (events = [] ∨
      (∃ v, events = [.claim v] ∧ (v ≠ 0 → hasSource p.ip v = true)) ∨
      ∃ v enabled, events = [.complete v enabled]) := by
  have hactive : ∀ {q : Plic} {hist' : List PlicEvent}, q.Tracked hist' → ∀ active,
      ({ q with active } : Plic).Tracked hist' := fun hq _ => ⟨hq.masked, hq.claimed, hq.zero⟩
  cases op with
  | line irq level =>
    cases hexec
    exact ⟨p.setLine irq level, hactive h _, rfl, .inl rfl⟩
  | read addr =>
    by_cases haddr : addr = plicIntrClaimOrComplete
    · subst haddr
      change some ([PlicEvent.claim (plicRead p plicIntrClaimOrComplete).1],
        (plicRead p plicIntrClaimOrComplete).2.updateInterrupts) = _ at hexec
      rw [plicRead_claim] at hexec
      split_ifs at hexec with hne
      · cases hexec
        exact ⟨p, h.claim_zero, rfl, .inr (.inl ⟨0, rfl, fun h0 => absurd rfl h0⟩)⟩
      · cases hexec
        exact ⟨_, h.claim hne, rfl, .inr (.inl ⟨_, rfl, fun _ => (h.candidate hne).1⟩)⟩
    · change some (if addr = plicIntrClaimOrComplete then _ else [], (plicRead p addr).2.updateInterrupts) = _ at hexec
      rw [if_neg haddr, plicRead_other haddr] at hexec
      cases hexec
      exact ⟨p, h, rfl, .inl rfl⟩
  | write addr value =>
    change (plicWrite p addr value).bind (fun p' => some (if addr = plicIntrClaimOrComplete then
      [PlicEvent.complete value (hasSource p.ie value)] else [], p'.updateInterrupts)) = _ at hexec
    by_cases haddr : addr = plicIntrClaimOrComplete
    · have hc : Claimed hist value := hop haddr
      rw [if_pos haddr, haddr, plicWrite_complete (h.lt_of_claimed hc)] at hexec
      cases hexec
      cases hen : hasSource p.ie value with
      | true =>
        rw [if_pos rfl]
        exact ⟨_, h.complete hc, rfl, .inr (.inr ⟨_, _, rfl⟩)⟩
      | false =>
        rw [if_neg Bool.false_ne_true]
        exact ⟨p, h.complete_disabled value, rfl, .inr (.inr ⟨_, _, rfl⟩)⟩
    · rw [if_neg haddr] at hexec
      rcases plicWrite_other p value haddr with hw | hw
      · rw [hw] at hexec
        cases hexec
        exact ⟨p, h, rfl, .inl rfl⟩
      · rw [hw] at hexec
        cases hexec
        exact ⟨_, h.enable value, rfl, .inl rfl⟩

/-- A driver that conforms reaches no undefined shift. -/
theorem PlicOp.exec_isSome {op : PlicOp} (h : p.Tracked hist) (hop : op.Conforms hist) :
    (op.exec p).isSome = true := by
  cases op with
  | line | read => rfl
  | write addr value =>
    change ((plicWrite p addr value).bind _).isSome = true
    by_cases haddr : addr = plicIntrClaimOrComplete
    · rw [haddr, plicWrite_complete (h.lt_of_claimed (hop haddr))]
      rfl
    · rcases plicWrite_other p value haddr with hw | hw
      · rw [hw]
        rfl
      · rw [hw]
        rfl

end Step

theorem PlicRun.tracked {hist : List PlicEvent} {p : Plic} (h : PlicRun hist p) : p.Tracked hist := by
  induction h with
  | init => exact tracked_init
  | step h hop hexec ih =>
    obtain ⟨q, hq, rfl, -⟩ := PlicOp.exec_tracked ih hop hexec
    exact hq.update q.active

/-- Between two claims that return the same source there is a completion of it while enabled. -/
theorem PlicRun.separated {hist : List PlicEvent} {p : Plic} (h : PlicRun hist p) {source : Word}
    (hsource : source ≠ 0) (post mid pre : List PlicEvent)
    (heq : hist = post ++ .claim source :: (mid ++ .claim source :: pre)) : .complete source true ∈ mid := by
  induction h generalizing post mid pre with
  | init => simp at heq
  | @step hist p h op hop events p' hexec ih =>
    obtain ⟨-, -, -, hevents⟩ := PlicOp.exec_tracked h.tracked hop hexec
    rcases hevents with rfl | ⟨v, rfl, hv⟩ | ⟨v, enabled, rfl⟩
    · exact ih post mid pre heq
    · cases post with
      | nil =>
        -- the newest event is the second claim: its source was pending, so the first one was completed
        rw [List.nil_append, List.singleton_append, List.cons.injEq] at heq
        obtain ⟨hclaim, hhist⟩ := heq
        obtain rfl : v = source := PlicEvent.claim.inj hclaim
        have hno : ¬ Outstanding v (mid ++ .claim v :: pre) := by
          rw [← hhist]
          intro hout
          have hclear := h.tracked.claimed v ⟨hsource, hout⟩
          rw [hv hsource] at hclear
          exact Bool.false_ne_true hclear.symm
        exact complete_mem_of_not_outstanding hno
      | cons e post =>
        rw [List.singleton_append, List.cons_append, List.cons.injEq] at heq
        exact ih post mid pre heq.2
    · cases post with
      | nil =>
        rw [List.nil_append, List.singleton_append, List.cons.injEq] at heq
        exact nomatch heq.1
      | cons e post =>
        rw [List.singleton_append, List.cons_append, List.cons.injEq] at heq
        exact ih post mid pre heq.2

/-! ## Gateways -/

def Plic.Deliverable (p : Plic) (source : Word) : Prop := hasSource p.ip source = true ∧ hasSource p.ie source = true

theorem deliverable_iff {p : Plic} : (∃ source, p.Deliverable source) ↔ p.ip &&& p.ie ≠ 0 := by
  constructor
  · rintro ⟨source, hip, hie⟩ hzero
    have hbit : hasSource (p.ip &&& p.ie) source = true := by rw [hasSource_and, hip, hie]; rfl
    rw [hzero] at hbit
    simp [hasSource] at hbit
  · intro hne
    refine ⟨(p.ip &&& p.ie).ctz, ?_⟩
    have hbit : hasSource (p.ip &&& p.ie) (p.ip &&& p.ie).ctz = true := BitVec.getLsbD_true_ctz_of_ne_zero hne
    rwa [hasSource_and, Bool.and_eq_true] at hbit

/-- What the gateways promise in a state with a history. -/
structure Plic.Gateways (hist : List PlicEvent) (p : Plic) : Prop where
  pending_masked : ∀ source, hasSource p.ip source = true → hasSource p.masked source = true
  separated : ∀ source, source ≠ 0 → ∀ post mid pre,
    hist = post ++ .claim source :: (mid ++ .claim source :: pre) → .complete source true ∈ mid
  claim_zero : (plicRead p plicIntrClaimOrComplete).1 = 0 ↔ ¬ ∃ source, p.Deliverable source
  claim_lowest : (plicRead p plicIntrClaimOrComplete).1 ≠ 0 →
    p.Deliverable (plicRead p plicIntrClaimOrComplete).1 ∧
      ∀ source, p.Deliverable source → (plicRead p plicIntrClaimOrComplete).1.toNat ≤ source.toNat
  level : ∀ active source, hasSource active source = true → ¬ Claimed hist source →
    hasSource ({ p with active }.updateInterrupts).ip source = true
  seip : ∀ active, ({ p with active }.updateInterrupts).sip &&& sipSeip ≠ 0 ↔
    ∃ source, ({ p with active }.updateInterrupts).Deliverable source
  defined : ∀ op : PlicOp, op.Conforms hist → (op.exec p).isSome = true

theorem updateInterrupts_seip (p : Plic) :
    p.updateInterrupts.sip &&& sipSeip ≠ 0 ↔ p.updateInterrupts.ip &&& p.updateInterrupts.ie ≠ 0 := by
  have hset : ∀ w : Word, (w ||| sipSeip) &&& sipSeip = sipSeip := by
    intro w
    rw [BitVec.and_comm, BitVec.and_or_distrib_left, BitVec.and_self]
    apply BitVec.eq_of_getLsbD_eq
    intro i hi
    simp only [BitVec.getLsbD_or, BitVec.getLsbD_and]
    cases sipSeip.getLsbD i <;> simp
  have hclear : ∀ w : Word, (w &&& ~~~sipSeip) &&& sipSeip = 0 := by
    intro w
    rw [BitVec.and_assoc, show ~~~sipSeip &&& sipSeip = 0#32 by decide, BitVec.and_zero]
    rfl
  change (if (p.ip ||| (p.active &&& ~~~p.masked)) &&& p.ie ≠ 0 then p.sip ||| sipSeip
    else p.sip &&& ~~~sipSeip) &&& sipSeip ≠ 0 ↔ (p.ip ||| (p.active &&& ~~~p.masked)) &&& p.ie ≠ 0
  split_ifs with h
  · rw [hset]
    exact iff_of_true (by decide) h
  · rw [hclear]
    exact iff_of_false (fun hne => hne rfl) h

/-- **PLIC gateways never duplicate or lose an interrupt**, over every history of a driver that completes only
what it has claimed. -/
theorem plicRun_gateways {hist : List PlicEvent} {p : Plic} (h : PlicRun hist p) : p.Gateways hist where
  pending_masked source hip := (h.tracked.masked source).mpr (.inl hip)
  separated source hsource post mid pre heq := h.separated hsource post mid pre heq
  claim_zero := by
    rw [plicRead_claim, deliverable_iff, not_not]
    split_ifs with hne
    · exact iff_of_true rfl hne
    · exact iff_of_false (h.tracked.candidate hne).2.2 hne
  claim_lowest := by
    rw [plicRead_claim]
    split_ifs with hne
    · exact fun h0 => absurd rfl h0
    · intro _
      refine ⟨⟨(h.tracked.candidate hne).1, (h.tracked.candidate hne).2.1⟩, fun source hd => ?_⟩
      change (p.ip &&& p.ie).ctz.toNat ≤ source.toNat
      by_contra hlt
      have hno : hasSource (p.ip &&& p.ie) source = false := BitVec.getLsbD_false_of_lt_ctz (by omega)
      rw [hasSource_and, hd.1, hd.2] at hno
      exact absurd hno (by decide)
  level active source hactive hno := by
    have hmasked : hasSource ({ p with active }.updateInterrupts).masked source = true := by
      change hasSource (p.masked ||| active) source = true
      rw [hasSource_or, hactive, Bool.or_true]
    exact ((h.tracked.update active).masked source |>.mp hmasked).resolve_right hno
  seip active := by
    rw [deliverable_iff]
    exact updateInterrupts_seip _
  defined op hop := PlicOp.exec_isSome h.tracked hop

/-- The line of source 1 stays high; it is claimed, completed and pending again. -/
theorem plicRun_gateways_uart :
    ∃ p, PlicRun [.complete 1 true, .claim 1] p ∧ p.Gateways [.complete 1 true, .claim 1] ∧ p.Deliverable 1 := by
  have e1 : PlicOp.exec {} (.line 1 true) = some ([], { masked := 2, ip := 2, active := 2 }) := by decide
  have e2 : PlicOp.exec { masked := 2, ip := 2, active := 2 } (.write plicIntrEnable 2) =
      some ([], { masked := 2, ip := 2, ie := 2, active := 2, sip := sipSeip }) := by decide
  have e3 : PlicOp.exec { masked := 2, ip := 2, ie := 2, active := 2, sip := sipSeip }
      (.read plicIntrClaimOrComplete) = some ([.claim 1], { masked := 2, ie := 2, active := 2 }) := by
    decide +kernel
  have e4 : PlicOp.exec { masked := 2, ie := 2, active := 2 } (.write plicIntrClaimOrComplete 1) =
      some ([.complete 1 true], { masked := 2, ip := 2, ie := 2, active := 2, sip := sipSeip }) := by decide
  have c2 : PlicOp.Conforms [] (.write plicIntrEnable 2) := fun h => absurd h (by decide)
  have c4 : PlicOp.Conforms [.claim 1] (.write plicIntrClaimOrComplete 1) := fun _ => ⟨by decide, trivial⟩
  have h3 := ((PlicRun.init.step (by trivial) e1).step c2 e2).step (by trivial) e3
  have h4 := h3.step c4 e4
  exact ⟨_, h4, plicRun_gateways h4, by decide, by decide⟩

end Rv32emu
