import Rv32emu.Insn

/-!
# The Goldfish RTC

`devices/rtc.c`. The time of the host is an argument of every access.

* `Rtc`, `rtcGetNowNsec`, `rtcRead`, `rtcWrite`, `rtcNew` : the device;
* `RtcAccess.exec`, `rtcRun` : accesses of the guest, each at its own time;
* `readTime_eq` : a read of both halves returns the clock at the time of the first read;
* `setTime_clockOffset` : the offset after a write of both halves;
* `rtc_set_iff` : the clock is set right iff the timestamp that the write of `TIME_HIGH` reuses has the high half
  the clock has at the write of `TIME_LOW`.
-/

namespace Rv32emu

abbrev Time := BitVec 64

/-- `rtc_t`, with the static `now_nsec` of the file. -/
structure Rtc where
  timeLow : Word := 0
  timeHigh : Word := 0
  alarmLow : Word := 0
  alarmHigh : Word := 0
  irqEnabled : Word := 0
  alarmStatus : Word := 0
  interruptStatus : Word := 0
  clockOffset : Time := 0
  nowNsec : Time := 0
  deriving DecidableEq

def mask32 : Time := 0xffffffff

def rtcTimeLow : Word := 0x00
def rtcTimeHigh : Word := 0x04
def rtcAlarmLow : Word := 0x08
def rtcAlarmHigh : Word := 0x0c
def rtcIrqEnabled : Word := 0x10
def rtcClearAlarm : Word := 0x14
def rtcAlarmStatus : Word := 0x18
def rtcClearInterrupt : Word := 0x1c

/-- `host` is the time of the host. -/
def rtcGetNowNsec (rtc : Rtc) (host : Time) : Time := host + rtc.clockOffset

def rtcRead (rtc : Rtc) (addr : Word) (host : Time) : Word × Rtc :=
  if addr = rtcTimeLow then
    let nowNsec := rtcGetNowNsec rtc host
    let timeLow := (nowNsec &&& mask32).setWidth 32
    (timeLow, { rtc with nowNsec, timeLow })
  else if addr = rtcTimeHigh then
    let timeHigh := (rtc.nowNsec >>> 32).setWidth 32
    (timeHigh, { rtc with timeHigh })
  else if addr = rtcAlarmLow then (rtc.alarmLow, rtc)
  else if addr = rtcAlarmHigh then (rtc.alarmHigh, rtc)
  else if addr = rtcAlarmStatus then (rtc.alarmStatus, rtc)
  else (0, rtc)

def rtcWrite (rtc : Rtc) (addr value : Word) (host : Time) : Rtc :=
  if addr = rtcTimeLow then
    let nowNsec := rtcGetNowNsec rtc host
    { rtc with nowNsec, clockOffset := rtc.clockOffset + (value.setWidth 64 - (nowNsec &&& mask32)) }
  else if addr = rtcTimeHigh then
    { rtc with
      clockOffset := rtc.clockOffset + ((value.setWidth 64 <<< 32) - (rtc.nowNsec &&& (mask32 <<< 32))) }
  else if addr = rtcAlarmLow then { rtc with alarmLow := value }
  else if addr = rtcAlarmHigh then { rtc with alarmHigh := value }
  else if addr = rtcIrqEnabled then { rtc with irqEnabled := value }
  else if addr = rtcClearAlarm then { rtc with alarmStatus := 0 }
  else if addr = rtcClearInterrupt then { rtc with interruptStatus := 0 }
  else rtc

def rtcNew (host : Time) : Rtc :=
  let nowNsec := rtcGetNowNsec {} host
  { nowNsec, timeLow := (nowNsec &&& mask32).setWidth 32, timeHigh := (nowNsec >>> 32).setWidth 32 }

/-! ## Accesses -/

/-- An access of the guest at the time `host`. -/
inductive RtcAccess
  | read (addr : Word) (host : Time)
  | write (addr value : Word) (host : Time)

namespace RtcAccess

def exec (rtc : Rtc) : RtcAccess → Rtc
  | .read addr host => (rtcRead rtc addr host).2
  | .write addr value host => rtcWrite rtc addr value host

def KeepsClock : RtcAccess → Prop
  | .read _ _ => True
  | .write addr _ _ => addr ≠ rtcTimeLow ∧ addr ≠ rtcTimeHigh

def KeepsNow : RtcAccess → Prop
  | .read addr _ | .write addr _ _ => addr ≠ rtcTimeLow

end RtcAccess

def rtcRun : List RtcAccess → Rtc → Rtc
  | [], rtc => rtc
  | a :: as, rtc => rtcRun as (a.exec rtc)

/-! ## Halves -/

def Time.low (x : Time) : Time := x &&& mask32

def Time.high (x : Time) : Time := x &&& (mask32 <<< 32)

section Halves

variable (x y : Time)

theorem toNat_low : x.low.toNat = x.toNat % 2 ^ 32 := by
  unfold Time.low
  rw [BitVec.toNat_and]
  exact Nat.and_two_pow_sub_one_eq_mod x.toNat 32

theorem low_add_high : x.low + x.high = x := by
  have hdisjoint : x.low &&& x.high = x &&& x &&& (mask32 &&& mask32 <<< 32) := by
    unfold Time.low Time.high
    ac_rfl
  have hzero : mask32 &&& mask32 <<< 32 = 0#64 := rfl
  have hall : mask32 ||| mask32 <<< 32 = BitVec.allOnes 64 := rfl
  rw [hzero, BitVec.and_zero] at hdisjoint
  rw [BitVec.add_eq_or_of_and_eq_zero _ _ hdisjoint]
  unfold Time.low Time.high
  rw [← BitVec.and_or_distrib_left, hall, BitVec.and_allOnes]

theorem toNat_high : x.high.toNat = x.toNat / 2 ^ 32 * 2 ^ 32 := by
  have hle : x.high.toNat ≤ (mask32 <<< 32).toNat := by
    unfold Time.high
    rw [BitVec.toNat_and]
    exact Nat.and_le_right
  have hmask : (mask32 <<< 32).toNat = 2 ^ 64 - 2 ^ 32 := rfl
  have hsum := congrArg BitVec.toNat (low_add_high x)
  rw [BitVec.toNat_add, toNat_low] at hsum
  omega

/-- Multiples of `2 ^ 32` do not reach the low half. -/
theorem low_add_high_sub (z : Time) : (x + (y.high - z.high)).low = x.low := by
  apply BitVec.eq_of_toNat_eq
  rw [toNat_low, toNat_low, BitVec.toNat_add, BitVec.toNat_sub, toNat_high, toNat_high]
  have hy := y.isLt
  have hz := z.isLt
  omega

theorem halves_append : ((x >>> 32).setWidth 32 ++ (x &&& mask32).setWidth 32 : BitVec 64) = x := by
  have hlow : (x &&& mask32).setWidth 32 = x.setWidth 32 := by
    apply BitVec.eq_of_toNat_eq
    rw [BitVec.toNat_setWidth, BitVec.toNat_setWidth]
    exact (congrArg (· % 2 ^ 32) (toNat_low x)).trans (Nat.mod_mod ..)
  rw [hlow]
  apply BitVec.eq_of_getLsbD_eq
  intro i hi
  rw [BitVec.getLsbD_append, BitVec.getLsbD_setWidth, BitVec.getLsbD_setWidth, BitVec.getLsbD_ushiftRight]
  by_cases h : i < 32
  · simp [h]
  · have hhigh : i - 32 < 32 := by omega
    rw [if_neg h, decide_eq_true hhigh, Bool.true_and, Nat.add_sub_cancel' (by omega)]

theorem setWidth_low : ((x.setWidth 32).setWidth 64 : Time) = x.low := by
  apply BitVec.eq_of_toNat_eq
  rw [toNat_low, BitVec.toNat_setWidth, BitVec.toNat_setWidth]
  omega

theorem setWidth_high : (((x >>> 32).setWidth 32).setWidth 64 <<< 32 : Time) = x.high := by
  apply BitVec.eq_of_toNat_eq
  rw [toNat_high, BitVec.toNat_shiftLeft, BitVec.toNat_setWidth, BitVec.toNat_setWidth, BitVec.toNat_ushiftRight,
    Nat.shiftLeft_eq, Nat.shiftRight_eq_div_pow]
  have hx := x.isLt
  omega

end Halves

/-! ## Setting and reading the clock -/

/-- A read of `TIME_LOW` at `t` and one of `TIME_HIGH` at `t'`, with other accesses between them. -/
def readTime (rtc : Rtc) (t : Time) (between : List RtcAccess) (t' : Time) : Time :=
  let (low, rtc) := rtcRead rtc rtcTimeLow t
  let (high, _) := rtcRead (rtcRun between rtc) rtcTimeHigh t'
  high ++ low

inductive WriteOrder
  | lowFirst | highFirst

/-- `TIME_LOW` is written at `tLow` and `TIME_HIGH` at `tHigh`, with other accesses between the two. -/
def setTime (order : WriteOrder) (v tLow tHigh : Time) (mid : List RtcAccess) : List RtcAccess :=
  let low := RtcAccess.write rtcTimeLow (v.setWidth 32) tLow
  let high := RtcAccess.write rtcTimeHigh ((v >>> 32).setWidth 32) tHigh
  match order with
  | .lowFirst => low :: mid ++ [high]
  | .highFirst => high :: mid ++ [low]

/-- The timestamp that the write of `TIME_HIGH` reuses. -/
def reusedNow (order : WriteOrder) (rtc : Rtc) (v tLow : Time) (mid : List RtcAccess) : Time :=
  match order with
  | .lowFirst => (rtcRun (.write rtcTimeLow (v.setWidth 32) tLow :: mid) rtc).nowNsec
  | .highFirst => rtc.nowNsec

section Clock

variable {rtc : Rtc}

theorem rtcRun_append (as bs : List RtcAccess) (rtc : Rtc) : rtcRun (as ++ bs) rtc = rtcRun bs (rtcRun as rtc) := by
  induction as generalizing rtc with
  | nil => rfl
  | cons a as ih => exact ih (a.exec rtc)

theorem rtcRead_clockOffset (rtc : Rtc) (addr : Word) (host : Time) :
    (rtcRead rtc addr host).2.clockOffset = rtc.clockOffset := by
  unfold rtcRead
  split_ifs <;> rfl

theorem RtcAccess.KeepsClock.exec {a : RtcAccess} (h : a.KeepsClock) (rtc : Rtc) :
    (a.exec rtc).clockOffset = rtc.clockOffset := by
  cases a with
  | read addr host => exact rtcRead_clockOffset rtc addr host
  | write addr value host =>
    obtain ⟨hlow, hhigh⟩ := h
    change (rtcWrite rtc addr value host).clockOffset = _
    unfold rtcWrite
    rw [if_neg hlow, if_neg hhigh]
    split_ifs <;> rfl

theorem RtcAccess.KeepsNow.exec {a : RtcAccess} (h : a.KeepsNow) (rtc : Rtc) :
    (a.exec rtc).nowNsec = rtc.nowNsec := by
  cases a with
  | read addr host =>
    change (rtcRead rtc addr host).2.nowNsec = _
    unfold rtcRead
    rw [if_neg h]
    split_ifs <;> rfl
  | write addr value host =>
    change (rtcWrite rtc addr value host).nowNsec = _
    unfold rtcWrite
    rw [if_neg h]
    split_ifs <;> rfl

theorem rtcRun_clockOffset {as : List RtcAccess} (h : ∀ a ∈ as, a.KeepsClock) (rtc : Rtc) :
    (rtcRun as rtc).clockOffset = rtc.clockOffset := by
  induction as generalizing rtc with
  | nil => rfl
  | cons a as ih =>
    have ha : a.KeepsClock := h a (by simp)
    exact (ih (fun b hb => h b (by simp [hb])) (a.exec rtc)).trans (ha.exec rtc)

theorem rtcRun_nowNsec {as : List RtcAccess} (h : ∀ a ∈ as, a.KeepsNow) (rtc : Rtc) :
    (rtcRun as rtc).nowNsec = rtc.nowNsec := by
  induction as generalizing rtc with
  | nil => rfl
  | cons a as ih =>
    have ha : a.KeepsNow := h a (by simp)
    exact (ih (fun b hb => h b (by simp [hb])) (a.exec rtc)).trans (ha.exec rtc)

/-- **One instant.** The two words are the halves of the clock at the first read. -/
theorem readTime_eq (rtc : Rtc) (t : Time) {between : List RtcAccess} (h : ∀ a ∈ between, a.KeepsNow) (t' : Time) :
    readTime rtc t between t' = rtcGetNowNsec rtc t := by
  have hnow : (rtcRun between (rtcRead rtc rtcTimeLow t).2).nowNsec = rtcGetNowNsec rtc t := rtcRun_nowNsec h _
  change (((rtcRun between (rtcRead rtc rtcTimeLow t).2).nowNsec >>> 32).setWidth 32 ++
    (rtcGetNowNsec rtc t &&& mask32).setWidth 32 : BitVec 64) = _
  rw [hnow]
  exact halves_append (rtcGetNowNsec rtc t)

/-- The two writes, in terms of the halves of `v`. -/
theorem rtcWrite_low (rtc : Rtc) (v host : Time) :
    (rtcWrite rtc rtcTimeLow (v.setWidth 32) host).clockOffset =
      rtc.clockOffset + (v.low - (rtcGetNowNsec rtc host).low) := by
  rw [← setWidth_low v]
  rfl

theorem rtcWrite_high (rtc : Rtc) (v host : Time) :
    (rtcWrite rtc rtcTimeHigh ((v >>> 32).setWidth 32) host).clockOffset =
      rtc.clockOffset + (v.high - rtc.nowNsec.high) := by
  rw [← setWidth_high v]
  rfl

/-- The offset after both writes, in either order. -/
theorem setTime_clockOffset (order : WriteOrder) (rtc : Rtc) (v tLow tHigh : Time) {mid : List RtcAccess}
    (hmid : ∀ a ∈ mid, a.KeepsClock) :
    (rtcRun (setTime order v tLow tHigh mid) rtc).clockOffset =
      rtc.clockOffset + (v.low - (rtcGetNowNsec rtc tLow).low) + (v.high - (reusedNow order rtc v tLow mid).high) := by
  cases order with
  | lowFirst =>
    change (rtcRun (.write rtcTimeLow (v.setWidth 32) tLow :: (mid ++ [_])) rtc).clockOffset = _
    rw [rtcRun, rtcRun_append]
    change (rtcWrite _ rtcTimeHigh _ tHigh).clockOffset = _
    rw [rtcWrite_high, rtcRun_clockOffset hmid]
    change (rtcWrite rtc rtcTimeLow _ tLow).clockOffset + _ = _
    rw [rtcWrite_low]
    rfl
  | highFirst =>
    change (rtcRun (.write rtcTimeHigh ((v >>> 32).setWidth 32) tHigh :: (mid ++ [_])) rtc).clockOffset = _
    rw [rtcRun, rtcRun_append]
    change (rtcWrite _ rtcTimeLow _ tLow).clockOffset = _
    rw [rtcWrite_low]
    unfold rtcGetNowNsec
    rw [rtcRun_clockOffset hmid]
    change (rtcWrite rtc rtcTimeHigh _ tHigh).clockOffset +
      (v.low - (tLow + (rtcWrite rtc rtcTimeHigh _ tHigh).clockOffset).low) = _
    rw [rtcWrite_high, ← BitVec.add_assoc tLow, low_add_high_sub]
    simp only [BitVec.add_assoc]
    rw [BitVec.add_comm (v.high - _)]
    rfl

/-- The halves `vl` and `vh` of the value against those of the clock, `nl` and `nh`, where `c` is reused. -/
theorem clock_eq_iff {v vl vh nl nh tLow offset c : Time} (hv : vl + vh = v) (hn : nl + nh = tLow + offset) (t : Time) :
    t + (offset + (vl - nl) + (vh - c)) = v + (t - tLow) ↔ c = nh := by
  constructor
  · intro h
    grind
  · intro h
    grind

end Clock

/-- **Setting the clock.** After both halves of `v` are written the guest reads `v` and the time elapsed since the
write of `TIME_LOW` iff the timestamp reused by the write of `TIME_HIGH` has the high half of the clock at the write
of `TIME_LOW`. -/
theorem rtc_set_iff (t0 : Time) (history : List RtcAccess) (order : WriteOrder) (v tLow tHigh : Time)
    {mid later between : List RtcAccess} (hmid : ∀ a ∈ mid, a.KeepsClock) (hlater : ∀ a ∈ later, a.KeepsClock)
    (hbetween : ∀ a ∈ between, a.KeepsNow) (t t' : Time) :
    let before := rtcRun history (rtcNew t0)
    let after := rtcRun later (rtcRun (setTime order v tLow tHigh mid) before)
    (readTime after t between t' = v + (t - tLow) ∧ readTime after t between t' = rtcGetNowNsec after t) ↔
      (reusedNow order before v tLow mid).high = (rtcGetNowNsec before tLow).high := by
  intro before after
  have hread : readTime after t between t' = rtcGetNowNsec after t := readTime_eq after t hbetween t'
  have hoffset : after.clockOffset = before.clockOffset + (v.low - (rtcGetNowNsec before tLow).low) +
      (v.high - (reusedNow order before v tLow mid).high) :=
    (rtcRun_clockOffset hlater _).trans (setTime_clockOffset order before v tLow tHigh hmid)
  have hv := low_add_high v
  have hn := low_add_high (rtcGetNowNsec before tLow)
  rw [and_iff_left hread, hread]
  change t + after.clockOffset = _ ↔ _
  change _ + _ = tLow + before.clockOffset at hn
  rw [hoffset]
  exact clock_eq_iff hv hn t

/-- With `TIME_LOW` first, and no timestamp taken before `TIME_HIGH` is written, the reused timestamp is the clock. -/
theorem reusedNow_lowFirst (rtc : Rtc) (v tLow : Time) {mid : List RtcAccess} (hmid : ∀ a ∈ mid, a.KeepsNow) :
    reusedNow .lowFirst rtc v tLow mid = rtcGetNowNsec rtc tLow :=
  rtcRun_nowNsec hmid (rtcWrite rtc rtcTimeLow (v.setWidth 32) tLow)

/-- `TIME_LOW` is written a second after the device was made, and `TIME_HIGH` a moment later. -/
theorem rtc_set_low_first :
    readTime (rtcRun (setTime .lowFirst 1600000000000000000 1700000001000000000 1700000001000000100 [])
      (rtcNew 1700000000000000000)) 1700000002000000000 [] 1700000002000000100 = 1600000001000000000 :=
  ((rtc_set_iff 1700000000000000000 [] .lowFirst 1600000000000000000 1700000001000000000 1700000001000000100
    (List.forall_mem_nil _) (List.forall_mem_nil _) (List.forall_mem_nil _) 1700000002000000000
    1700000002000000100).mpr (by decide)).1

/-- A driver that writes `TIME_HIGH` first, five seconds after the last timestamp was taken: the clock is `2 ^ 32` ns
ahead. -/
theorem rtc_set_high_first :
    let read := readTime (rtcRun (setTime .highFirst 1600000000000000000 1700000005000000100 1700000005000000000 [])
      (rtcNew 1700000000000000000)) 1700000006000000100 [] 1700000006000000200
    read ≠ 1600000000000000000 + (1700000006000000100 - 1700000005000000100) ∧
      read = 1600000000000000000 + (1700000006000000100 - 1700000005000000100) + 2 ^ 32 := by
  decide

end Rv32emu
