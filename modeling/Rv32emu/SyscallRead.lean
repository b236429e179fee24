import Rv32emu.FdTable

/-!
# The read system call

* `HostFile`, `fread` : a stream of the host, byte by byte; a stream that has come short may go on afterwards;
* `syscallRead` : as in the source, `readFile` from the stream on, with what has been asked of `fread` and what it gave;
  `none` where `fread` stores outside of `tmp`;
* `ReadSound` : what the call should do, that is, what one `fread` of `count` bytes and one `memory_write` would do;
* `PartsFit`, `readFrom_fits`, `readFrom_unfit` : the parts that are written, and what becomes of them;
* `partsFit_iff` : when the parts fit although the whole does not, and the other way round;
* `readFile_overflow` : a stream that comes short and goes on writes outside of `tmp`;
* `syscallRead_sound_iff` : when the call is sound.
-/

namespace Rv32emu

/-! ## The function -/

/-- `FILE`, as far as `fread` and `ferror` show it. -/
structure HostFile (σ : Type) where
  getc : σ → Option Byte × σ
  ferror : σ → Bool

section Model

variable {σ : Type} (host : HostFile σ)

/-- `fread` of `n` bytes, which is as many `fgetc`, up to the first that fails. -/
def fread : Nat → σ → List Byte × σ
  | 0, file => ([], file)
  | n + 1, file =>
    match host.getc file with
    | (none, file) => ([], file)
    | (some b, file) => (b :: (fread n file).1, (fread n file).2)

def preallocSize : Nat := 4096

/-- The locals of `syscall_read` and the memory. Neither counter wraps around. -/
structure Reading (σ : Type) where
  count : Nat
  totalRead : Nat := 0
  file : σ
  mem : GuestMemory
  /-- The sizes that `fread` has been called with. -/
  asked : List Nat := []
  /-- What it has stored in `tmp`. -/
  got : List Byte := []

/-- `fread` of `n` bytes into `tmp` and `memory_write` from there, with whether that succeeds, and `r`. -/
def readPart (buf : Word) (n : Nat) (s : Reading σ) : Option (Bool × Nat × Reading σ) :=
  let bs := (fread host n s.file).1
  let addr := (buf + BitVec.ofNat 32 s.totalRead).toNat
  let s := { s with file := (fread host n s.file).2, asked := s.asked ++ [n], got := s.got ++ bs }
  if preallocSize < bs.length then none
  else if GuestMemory.Fits s.mem.size addr bs.length then
    some (true, bs.length, { s with
      mem := s.mem.copy addr bs, count := s.count - bs.length, totalRead := s.totalRead + bs.length })
  else some (false, bs.length, s)

/-- The loop, with whether the call goes on behind it. -/
def readLoop (buf : Word) : Nat → Reading σ → Option (Bool × Reading σ)
  | 0, _ => none
  | n + 1, s =>
    if preallocSize < s.count then do
      let (ok, r, s) ← readPart host buf preallocSize s
      if !ok then return (false, s)
      if r ≠ preallocSize then return (true, s)
      readLoop buf n s
    else some (true, s)

/-- Behind the loop. `count` is what `a2` holds. -/
def readEnd (buf : Word) (count : Nat) (s : Reading σ) : Option (Option Nat × Reading σ) := do
  let (ok, _, s) ← readPart host buf s.count s
  if !ok then return (none, s)
  if s.totalRead ≠ count ∧ host.ferror s.file = true then return (none, s)
  return (some s.totalRead, s)

def readFrom (buf : Word) (count n : Nat) (s : Reading σ) : Option (Option Nat × Reading σ) := do
  let (ok, s) ← readLoop host buf n s
  if ok then readEnd host buf count s else return (none, s)

/-- `syscall_read` of a stream: the number of bytes read, or `none` for -1. -/
def readFile (buf count : Word) (mem : GuestMemory) (file : σ) : Option (Option Nat × Reading σ) :=
  readFrom host buf count.toNat (count.toNat + 1) { count := count.toNat, file, mem }

def syscallRead (s : FdState) (fd buf count : Word) (mem : GuestMemory) (files : Stream → σ) :
    Option (Word × GuestMemory × (Stream → σ)) :=
  match s.live fd.toInt with
  | none => some (-1, mem, files)
  | some f => do
    let (res, r) ← readFile host buf count mem (files f)
    return ((res.map (BitVec.ofNat 32)).getD (-1), r.mem, Function.update files f r.file)

/-! ## What the call should do -/

/-- What one `fread` of `count` bytes and one `memory_write` would return. -/
def readOnce (buf count : Word) (mem : GuestMemory) (file : σ) : Option Nat :=
  let once := fread host count.toNat file
  if GuestMemory.Fits mem.size buf.toNat once.1.length ∧
      (once.1.length = count.toNat ∨ host.ferror once.2 = false) then
    some once.1.length
  else none

/-- The bytes `bs` are at `addr`, and nothing else is changed. -/
structure StoredAt (mem mem' : GuestMemory) (addr : Nat) (bs : List Byte) : Prop where
  size : mem'.size = mem.size
  bytes : ∀ i (hi : i < bs.length), mem'.bytes (addr + i) = bs[i]
  frame : ∀ a, a < addr ∨ addr + bs.length ≤ a → mem'.bytes a = mem.bytes a

structure ReadSound (buf count : Word) (mem : GuestMemory) (file : σ) (res : Option Nat) (r : Reading σ) : Prop where
  /-- `fread` is never asked for more than fits in `tmp`. -/
  asked : ∀ n ∈ r.asked, n ≤ preallocSize
  /-- A result is the number of bytes that are stored. -/
  stored : ∀ n, res = some n → n ≤ count.toNat ∧ r.got.length = n ∧ StoredAt mem r.mem buf.toNat r.got
  /-- The call is one `fread`. -/
  once : res = readOnce host buf count mem file ∧ (res ≠ none → r.got = (fread host count.toNat file).1)

end Model

/-! ## `fread` -/

section Fread

variable {σ : Type} (host : HostFile σ)

theorem fread_length_le (n : Nat) (file : σ) : (fread host n file).1.length ≤ n := by
  induction n generalizing file with
  | zero => exact Nat.le_refl 0
  | succ n ih =>
    unfold fread
    split
    · exact Nat.zero_le _
    · exact Nat.succ_le_succ (ih _)

/-- A `fread` that does not come short is followed by one for the rest. -/
theorem fread_add (m n : Nat) (file : σ) :
    fread host (m + n) file = if (fread host m file).1.length = m then
      ((fread host m file).1 ++ (fread host n (fread host m file).2).1, (fread host n (fread host m file).2).2)
    else fread host m file := by
  induction m generalizing file with
  | zero =>
    rw [Nat.zero_add]
    exact (if_pos rfl).symm
  | succ m ih =>
    rw [Nat.succ_add, fread, fread]
    cases host.getc file with
    | mk c file' =>
      cases c with
      | none => exact (if_neg (Nat.succ_ne_zero m).symm).symm
      | some b =>
        simp only [ih, List.length_cons, Nat.add_right_cancel_iff]
        split_ifs
        · rfl
        · rfl

end Fread

/-! ## The parts -/

/-- The parts of `n` bytes that are written at `x`, after at most `j` full turns of the loop, all fit. -/
def PartsFit (size : Nat) : Nat → Nat → Nat → Prop
  | 0, x, n => GuestMemory.Fits size (x % 2 ^ 32) n
  | j + 1, x, n =>
    if n < preallocSize then GuestMemory.Fits size (x % 2 ^ 32) n
    else GuestMemory.Fits size (x % 2 ^ 32) preallocSize ∧ PartsFit size j (x + preallocSize) (n - preallocSize)

def storeParts : Nat → Nat → List Byte → GuestMemory → GuestMemory
  | 0, x, bs, mem => mem.copy (x % 2 ^ 32) bs
  | j + 1, x, bs, mem =>
    if bs.length < preallocSize then mem.copy (x % 2 ^ 32) bs
    else storeParts j (x + preallocSize) (bs.drop preallocSize) (mem.copy (x % 2 ^ 32) (bs.take preallocSize))

theorem storeParts_nil (j x : Nat) (mem : GuestMemory) : storeParts j x [] mem = mem := by
  cases j with
  | zero => exact mem.copy_nil _
  | succ j =>
    rw [storeParts, if_pos (by decide)]
    exact mem.copy_nil _

theorem storeParts_eq {j x : Nat} {bs : List Byte} {mem : GuestMemory} (hx : x < 2 ^ 32) (h : x + bs.length ≤ 2 ^ 32) :
    storeParts j x bs mem = mem.copy x bs := by
  induction j generalizing x bs mem with
  | zero => rw [storeParts, Nat.mod_eq_of_lt hx]
  | succ j ih =>
    rw [storeParts, Nat.mod_eq_of_lt hx]
    split_ifs with hshort
    · rfl
    · have hle : preallocSize ≤ bs.length := Nat.le_of_not_lt hshort
      have htake : (bs.take preallocSize).length = preallocSize := by rw [List.length_take, Nat.min_eq_left hle]
      have hdrop : (bs.drop preallocSize).length = bs.length - preallocSize := List.length_drop
      have hcopy := mem.copy_append x (bs.take preallocSize) (bs.drop preallocSize)
      rw [htake, List.take_append_drop] at hcopy
      by_cases hend : x + preallocSize < 2 ^ 32
      · rw [ih hend (by omega), hcopy]
      · -- Nothing is left at the end of the address space.
        have hnil : bs.drop preallocSize = [] := List.length_eq_zero_iff.mp (by omega)
        rw [hnil, GuestMemory.copy_nil] at hcopy
        rw [hnil, storeParts_nil, hcopy]

/-! ## One part -/

section Parts

variable {σ : Type} (host : HostFile σ) {buf : Word} {count n : Nat} {s : Reading σ}

/-- The state behind a `fread` of `n` bytes. -/
def Reading.asking (s : Reading σ) (n : Nat) : Reading σ :=
  { s with file := (fread host n s.file).2, asked := s.asked ++ [n], got := s.got ++ (fread host n s.file).1 }

/-- The state behind the part `bs`, which has been written at `addr`. -/
def Reading.storing (s : Reading σ) (addr : Nat) (bs : List Byte) : Reading σ :=
  { s with mem := s.mem.copy addr bs, count := s.count - bs.length, totalRead := s.totalRead + bs.length }

theorem addr_toNat (buf : Word) (total : Nat) : (buf + BitVec.ofNat 32 total).toNat = (buf.toNat + total) % 2 ^ 32 := by
  rw [BitVec.toNat_add, BitVec.toNat_ofNat, Nat.add_mod_mod]

theorem readPart_eq (hlen : (fread host n s.file).1.length ≤ preallocSize) :
    readPart host buf n s =
      if GuestMemory.Fits s.mem.size ((buf.toNat + s.totalRead) % 2 ^ 32) (fread host n s.file).1.length then
        some (true, (fread host n s.file).1.length,
          (s.asking host n).storing ((buf.toNat + s.totalRead) % 2 ^ 32) (fread host n s.file).1)
      else some (false, (fread host n s.file).1.length, s.asking host n) := by
  unfold readPart
  rw [addr_toNat]
  exact if_neg (Nat.not_lt.mpr hlen)

theorem readFrom_turn (hcount : preallocSize < s.count) :
    readFrom host buf count (n + 1) s =
      if GuestMemory.Fits s.mem.size ((buf.toNat + s.totalRead) % 2 ^ 32) (fread host preallocSize s.file).1.length then
        let s' := (s.asking host preallocSize).storing ((buf.toNat + s.totalRead) % 2 ^ 32)
          (fread host preallocSize s.file).1
        if (fread host preallocSize s.file).1.length = preallocSize then readFrom host buf count n s'
        else readEnd host buf count s'
      else some (none, s.asking host preallocSize) := by
  rw [readFrom, readLoop, if_pos hcount, readPart_eq host (fread_length_le host preallocSize s.file)]
  split_ifs with hfit hfull
  · simp only [Option.bind_eq_bind, Option.bind_some, Bool.not_true, Bool.false_eq_true, if_false, hfull, ne_eq,
      not_true]
    rfl
  · simp only [Option.bind_eq_bind, Option.bind_some, Bool.not_true, Bool.false_eq_true, if_false, hfull, ne_eq,
      not_false_eq_true, if_true, Option.pure_def]
  · rfl

/-- Behind the loop nothing more is asked for than `tmp` takes. -/
theorem readFrom_end (hcount : s.count ≤ preallocSize) :
    readFrom host buf count (n + 1) s = readEnd host buf count s := by
  rw [readFrom, readLoop, if_neg (Nat.not_lt.mpr hcount)]
  rfl

theorem readEnd_eq (hcount : s.count ≤ preallocSize) :
    readEnd host buf count s =
      if GuestMemory.Fits s.mem.size ((buf.toNat + s.totalRead) % 2 ^ 32) (fread host s.count s.file).1.length then
        let s' := (s.asking host s.count).storing ((buf.toNat + s.totalRead) % 2 ^ 32) (fread host s.count s.file).1
        some (if s'.totalRead ≠ count ∧ host.ferror s'.file = true then none else some s'.totalRead, s')
      else some (none, s.asking host s.count) := by
  rw [readEnd, readPart_eq host ((fread_length_le host s.count s.file).trans hcount)]
  split_ifs with hfit
  · simp only [Option.bind_eq_bind, Option.bind_some, Bool.not_true, Bool.false_eq_true, if_false, Option.pure_def]
    split_ifs
    · rfl
    · rfl
  · rfl

end Parts

/-! ## All parts -/

section Run

variable {σ : Type} (host : HostFile σ) {buf : Word} {count n j e : Nat} {s s' s'' : Reading σ}

/-- The state behind the parts of one `fread` of what is left to read. -/
structure AfterParts (buf : Word) (j : Nat) (s s' : Reading σ) : Prop where
  asked : ∀ n ∈ s'.asked, n ∈ s.asked ∨ n ≤ preallocSize
  file : s'.file = (fread host s.count s.file).2
  got : s'.got = s.got ++ (fread host s.count s.file).1
  count : s'.count = s.count - (fread host s.count s.file).1.length
  totalRead : s'.totalRead = s.totalRead + (fread host s.count s.file).1.length
  mem : s'.mem = storeParts j (buf.toNat + s.totalRead) (fread host s.count s.file).1 s.mem

theorem asked_asking {m : Nat} (hm : m ≤ preallocSize) :
    ∀ n ∈ (s.asking host m).asked, n ∈ s.asked ∨ n ≤ preallocSize := by
  intro n hn
  rcases List.mem_append.mp hn with hn | hn
  · exact .inl hn
  · rw [List.mem_singleton.mp hn]
    exact .inr hm

/-- A `fread` of all that is left, when the first part is full. -/
theorem fread_full (hcount : s.count = preallocSize + n)
    (hfull : (fread host preallocSize s.file).1.length = preallocSize) :
    fread host s.count s.file =
      ((fread host preallocSize s.file).1 ++ (fread host n (fread host preallocSize s.file).2).1,
        (fread host n (fread host preallocSize s.file).2).2) := by
  rw [hcount, fread_add, if_pos hfull]

theorem fread_short (hcount : s.count = preallocSize + n)
    (hshort : (fread host preallocSize s.file).1.length ≠ preallocSize) :
    fread host s.count s.file = fread host preallocSize s.file := by
  rw [hcount, fread_add, if_neg hshort]

/-- The state behind a full turn of the loop. -/
def Reading.turn (s : Reading σ) (buf : Word) : Reading σ :=
  (s.asking host preallocSize).storing ((buf.toNat + s.totalRead) % 2 ^ 32) (fread host preallocSize s.file).1

theorem turn_count (buf : Word) (hcount : s.count = preallocSize + n)
    (hfull : (fread host preallocSize s.file).1.length = preallocSize) : (s.turn host buf).count = n := by
  change s.count - (fread host preallocSize s.file).1.length = n
  rw [hfull, hcount, Nat.add_sub_cancel_left]

theorem AfterParts.turn (hcount : s.count = preallocSize + n)
    (hfull : (fread host preallocSize s.file).1.length = preallocSize)
    (h : AfterParts host buf j (s.turn host buf) s') :
    AfterParts host buf (j + 1) s s' := by
  have hfread := fread_full host hcount hfull
  have hrest := turn_count host buf hcount hfull
  refine ⟨fun m hm => ?_, ?_, ?_, ?_, ?_, ?_⟩
  · rcases h.asked m hm with hm | hm
    · exact asked_asking host (Nat.le_refl preallocSize) m hm
    · exact .inr hm
  · rw [h.file, hrest, hfread]
    rfl
  · rw [h.got, hrest, hfread]
    exact List.append_assoc ..
  · rw [h.count, hrest, hfread, List.length_append, hfull, hcount, Nat.add_sub_add_left]
    rfl
  · rw [h.totalRead, hrest, hfread, List.length_append, hfull]
    change s.totalRead + (fread host preallocSize s.file).1.length + _ = _
    rw [hfull, Nat.add_assoc]
    rfl
  · rw [h.mem, hrest, hfread, storeParts, if_neg (by rw [List.length_append, hfull]; omega), List.drop_left' hfull,
      List.take_left' hfull]
    change storeParts j (buf.toNat + (s.totalRead + (fread host preallocSize s.file).1.length)) _ _ = _
    rw [hfull, Nat.add_assoc]
    rfl

theorem fread_turn_length (buf : Word) (hcount : s.count = preallocSize + n)
    (hfull : (fread host preallocSize s.file).1.length = preallocSize) :
    (fread host s.count s.file).1.length =
      preallocSize + (fread host (s.turn host buf).count (s.turn host buf).file).1.length := by
  rw [fread_full host hcount hfull, turn_count host buf hcount hfull, List.length_append, hfull]
  rfl

theorem partsFit_turn (hcount : s.count = preallocSize + n)
    (hfull : (fread host preallocSize s.file).1.length = preallocSize) :
    PartsFit s.mem.size (j + 1) (buf.toNat + s.totalRead) (fread host s.count s.file).1.length ↔
      GuestMemory.Fits s.mem.size ((buf.toNat + s.totalRead) % 2 ^ 32) preallocSize ∧
        PartsFit (s.turn host buf).mem.size j (buf.toNat + (s.turn host buf).totalRead)
          (fread host (s.turn host buf).count (s.turn host buf).file).1.length := by
  have htotal : (s.turn host buf).totalRead = s.totalRead + preallocSize := by
    change s.totalRead + (fread host preallocSize s.file).1.length = _
    rw [hfull]
  rw [fread_turn_length host buf hcount hfull, PartsFit, if_neg (Nat.not_lt.mpr (Nat.le_add_right _ _)),
    Nat.add_sub_cancel_left, htotal, Nat.add_assoc]
  rfl

theorem readFrom_fits (buf : Word) (count : Nat) (hcount : s.count = preallocSize * j + e) (he : e ≤ preallocSize)
    (hpos : j = 0 ∨ 0 < e) (hn : j < n)
    (hfit : PartsFit s.mem.size j (buf.toNat + s.totalRead) (fread host s.count s.file).1.length) :
    ∃ s', AfterParts host buf j s s' ∧ readFrom host buf count n s =
      if (fread host s.count s.file).1.length < preallocSize * j then readEnd host buf count s'
      else some (if s'.totalRead ≠ count ∧ host.ferror s'.file = true then none else some s'.totalRead, s') := by
  induction j generalizing n s with
  | zero =>
    obtain ⟨n, rfl⟩ := Nat.exists_eq_succ_of_ne_zero (Nat.ne_of_gt hn)
    rw [Nat.mul_zero, Nat.zero_add] at hcount
    have hle : s.count ≤ preallocSize := hcount ▸ he
    refine ⟨(s.asking host s.count).storing ((buf.toNat + s.totalRead) % 2 ^ 32) (fread host s.count s.file).1,
      ⟨asked_asking host hle, rfl, rfl, rfl, rfl, rfl⟩, ?_⟩
    rw [Nat.mul_zero, if_neg (Nat.not_lt_zero _), readFrom_end host hle, readEnd_eq host hle]
    exact if_pos hfit
  | succ j ih =>
    obtain ⟨n, rfl⟩ := Nat.exists_eq_succ_of_ne_zero (Nat.ne_of_gt (Nat.zero_lt_of_lt hn))
    have hcount' : s.count = preallocSize + (preallocSize * j + e) := by
      rw [hcount, Nat.mul_succ]
      omega
    have he' : 0 < e := hpos.resolve_left (Nat.succ_ne_zero j)
    have hmore : preallocSize < s.count := by omega
    rw [readFrom_turn host hmore]
    by_cases hfull : (fread host preallocSize s.file).1.length = preallocSize
    · have hlen := fread_turn_length host buf hcount' hfull
      obtain ⟨hfit₁, hfit'⟩ := (partsFit_turn host hcount' hfull).mp hfit
      obtain ⟨s', hafter, hrun⟩ :=
        ih (turn_count host buf hcount' hfull) (.inr he') (Nat.lt_of_succ_lt_succ hn) hfit'
      refine ⟨s', hafter.turn host hcount' hfull, ?_⟩
      have hiff : (fread host (s.turn host buf).count (s.turn host buf).file).1.length < preallocSize * j ↔
          (fread host s.count s.file).1.length < preallocSize * (j + 1) := by
        rw [hlen, Nat.mul_succ]
        omega
      rw [hfull, if_pos hfit₁, if_pos rfl]
      exact hrun.trans (if_congr hiff rfl rfl)
    · have hfread := fread_short host hcount' hfull
      have hlt : (fread host preallocSize s.file).1.length < preallocSize :=
        Nat.lt_of_le_of_ne (fread_length_le host preallocSize s.file) hfull
      rw [hfread, PartsFit, if_pos hlt] at hfit
      refine ⟨s.turn host buf, ⟨asked_asking host (Nat.le_refl _), ?_, ?_, ?_, ?_, ?_⟩, ?_⟩
      · rw [hfread]
        rfl
      · rw [hfread]
        rfl
      · rw [hfread]
        rfl
      · rw [hfread]
        rfl
      · rw [hfread, storeParts, if_pos hlt]
        rfl
      · have hlt' : (fread host preallocSize s.file).1.length < preallocSize * (j + 1) := by
          rw [Nat.mul_succ]
          omega
        rw [hfread, if_pos hlt', if_pos hfit, if_neg hfull]
        rfl

theorem readFrom_unfit (buf : Word) (count : Nat) (hcount : s.count = preallocSize * j + e) (he : e ≤ preallocSize)
    (hpos : j = 0 ∨ 0 < e) (hn : j < n)
    (hfit : ¬ PartsFit s.mem.size j (buf.toNat + s.totalRead) (fread host s.count s.file).1.length) :
    ∃ s', readFrom host buf count n s = some (none, s') ∧ ∀ m ∈ s'.asked, m ∈ s.asked ∨ m ≤ preallocSize := by
  induction j generalizing n s with
  | zero =>
    obtain ⟨n, rfl⟩ := Nat.exists_eq_succ_of_ne_zero (Nat.ne_of_gt hn)
    rw [Nat.mul_zero, Nat.zero_add] at hcount
    have hle : s.count ≤ preallocSize := hcount ▸ he
    refine ⟨s.asking host s.count, ?_, asked_asking host hle⟩
    rw [readFrom_end host hle, readEnd_eq host hle]
    exact if_neg hfit
  | succ j ih =>
    obtain ⟨n, rfl⟩ := Nat.exists_eq_succ_of_ne_zero (Nat.ne_of_gt (Nat.zero_lt_of_lt hn))
    have hcount' : s.count = preallocSize + (preallocSize * j + e) := by
      rw [hcount, Nat.mul_succ]
      omega
    have he' : 0 < e := hpos.resolve_left (Nat.succ_ne_zero j)
    have hmore : preallocSize < s.count := by omega
    have hasked := asked_asking host (s := s) (Nat.le_refl preallocSize)
    rw [readFrom_turn host hmore]
    by_cases hfull : (fread host preallocSize s.file).1.length = preallocSize
    · rw [partsFit_turn host hcount' hfull] at hfit
      rw [hfull]
      by_cases hfit₁ : GuestMemory.Fits s.mem.size ((buf.toNat + s.totalRead) % 2 ^ 32) preallocSize
      · obtain ⟨s', hrun, hasked'⟩ := ih (turn_count host buf hcount' hfull) (.inr he') (Nat.lt_of_succ_lt_succ hn)
          fun hfit' => hfit ⟨hfit₁, hfit'⟩
        rw [if_pos hfit₁, if_pos rfl]
        refine ⟨s', hrun, fun m hm => ?_⟩
        rcases hasked' m hm with hm | hm
        · exact hasked m hm
        · exact .inr hm
      · exact ⟨_, if_neg hfit₁, hasked⟩
    · have hlt : (fread host preallocSize s.file).1.length < preallocSize :=
        Nat.lt_of_le_of_ne (fread_length_le host preallocSize s.file) hfull
      rw [fread_short host hcount' hfull, PartsFit, if_pos hlt] at hfit
      exact ⟨_, if_neg hfit, hasked⟩

end Run

/-! ## Which parts fit -/

/-- Nothing is left for the last part, which would start at the end of the memory. -/
def EndsAtEdge (size buf turns n : Nat) : Prop :=
  0 < n ∧ n % preallocSize = 0 ∧ n ≤ preallocSize * turns ∧ buf + n = size ∧ size < 2 ^ 32

/-- A part starts at `2 ^ 32`, which is address 0. -/
def WrapsAround (size buf n : Nat) : Prop := size = 2 ^ 32 ∧ buf % preallocSize = 0 ∧ 2 ^ 32 < buf + n

def PartsRoom (size buf turns n : Nat) : Prop :=
  GuestMemory.Fits size buf n ∧ ¬ EndsAtEdge size buf turns n ∨ WrapsAround size buf n

theorem partsFit_add_pow (size j x n : Nat) : PartsFit size j (x + 2 ^ 32) n ↔ PartsFit size j x n := by
  induction j generalizing x n with
  | zero => rw [PartsFit, PartsFit, Nat.add_mod_right]
  | succ j ih => rw [PartsFit, PartsFit, Nat.add_mod_right, Nat.add_right_comm, ih]

theorem partsFit_iff {size j x n : Nat} (hsize : size ≤ 2 ^ 32) (hx : x < 2 ^ 32)
    (hn : n ≤ preallocSize * j + preallocSize) (hlt : n < 2 ^ 32) : PartsFit size j x n ↔ PartsRoom size x j n := by
  unfold PartsRoom EndsAtEdge WrapsAround GuestMemory.Fits
  unfold preallocSize at *
  induction j generalizing x n with
  | zero =>
    rw [PartsFit, Nat.mod_eq_of_lt hx, GuestMemory.Fits]
    omega
  | succ j ih =>
    rw [PartsFit, Nat.mod_eq_of_lt hx, GuestMemory.Fits, GuestMemory.Fits, preallocSize]
    split_ifs with hshort
    · omega
    · by_cases hend : x + 4096 < 2 ^ 32
      · rw [ih hend (by omega) (by omega)]
        omega
      · by_cases hpow : x + 4096 = 0 + 2 ^ 32
        · rw [hpow, partsFit_add_pow, ih (by omega) (by omega) (by omega)]
          omega
        · omega

/-! ## When the call is sound -/

section Sound

variable {σ : Type} (host : HostFile σ) (buf count : Word) (mem : GuestMemory) (file : σ)

/-- The number of full turns that the loop would make. -/
def fullTurns (count : Word) : Nat := (count.toNat - 1) / preallocSize

/-- The `fread` behind a short one, for what is left of `count`. -/
def freadAgain : List Byte × σ :=
  fread host (count.toNat - (fread host count.toNat file).1.length) (fread host count.toNat file).2

/-- The second `fread` would end the call with success. -/
def AgainEnds : Prop :=
  let n := (fread host count.toNat file).1.length
  let again := freadAgain host count file
  GuestMemory.Fits mem.size ((buf.toNat + n) % 2 ^ 32) again.1.length ∧
    (n + again.1.length = count.toNat ∨ host.ferror again.2 = false)

instance : Decidable (AgainEnds host buf count mem file) := inferInstanceAs (Decidable (_ ∧ _))

/-- When `syscall_read` of a stream is sound. One `fread` of `count` bytes would give `n`. -/
structure ReadMeets : Prop where
  /-- An empty last part at the end of the memory is refused. -/
  edge : EndsAtEdge mem.size buf.toNat (fullTurns count) (fread host count.toNat file).1.length →
    host.ferror (fread host count.toNat file).2 = true
  /-- With 4 GiB of memory a part may start at address 0. -/
  wrap : preallocSize * fullTurns count ≤ (fread host count.toNat file).1.length →
    WrapsAround mem.size buf.toNat (fread host count.toNat file).1.length →
    (fread host count.toNat file).1.length ≠ count.toNat ∧ host.ferror (fread host count.toNat file).2 = true
  /-- Within the loop a `fread` that comes short is not the last one. -/
  short : (fread host count.toNat file).1.length < preallocSize * fullTurns count →
    PartsRoom mem.size buf.toNat (fullTurns count) (fread host count.toNat file).1.length →
    count.toNat - (fread host count.toNat file).1.length ≤ preallocSize ∧
      if GuestMemory.Fits mem.size buf.toNat (fread host count.toNat file).1.length ∧
          host.ferror (fread host count.toNat file).2 = false then
        (freadAgain host count file).1 = [] ∧ AgainEnds host buf count mem file
      else ¬ AgainEnds host buf count mem file

variable {host buf count mem file}

theorem readFile_parts (count : Word) (mem : GuestMemory) (file : σ) :
    let s : Reading σ := { count := count.toNat, file, mem }
    s.count = preallocSize * fullTurns count + (count.toNat - preallocSize * fullTurns count) ∧
      count.toNat - preallocSize * fullTurns count ≤ preallocSize ∧
      (fullTurns count = 0 ∨ 0 < count.toNat - preallocSize * fullTurns count) ∧ fullTurns count < count.toNat + 1 := by
  unfold fullTurns preallocSize
  dsimp only
  omega

theorem partsFit_once :
    PartsFit mem.size (fullTurns count) buf.toNat (fread host count.toNat file).1.length ↔
      PartsRoom mem.size buf.toNat (fullTurns count) (fread host count.toNat file).1.length := by
  have hle := fread_length_le host count.toNat file
  have hlt := count.isLt
  refine partsFit_iff mem.size_le buf.isLt ?_ (lt_of_le_of_lt hle hlt)
  obtain ⟨hcount, hrest, -⟩ := readFile_parts count mem file
  dsimp only at hcount
  omega

theorem storedAt_copy {addr : Nat} (bs : List Byte) : StoredAt mem (mem.copy addr bs) addr bs where
  size := rfl
  bytes i hi := by
    change (if addr ≤ addr + i then (bs[addr + i - addr]?).getD _ else _) = _
    rw [if_pos (Nat.le_add_right addr i), Nat.add_sub_cancel_left, List.getElem?_eq_getElem hi, Option.getD_some]
  frame a ha := by
    change (if addr ≤ a then (bs[a - addr]?).getD _ else _) = _
    by_cases hle : addr ≤ a
    · rw [if_pos hle, List.getElem?_eq_none (by omega), Option.getD_none]
    · rw [if_neg hle]

theorem readSound_none {r : Reading σ} (hasked : ∀ n ∈ r.asked, n ≤ preallocSize) :
    ReadSound host buf count mem file none r ↔ readOnce host buf count mem file = none :=
  ⟨fun h => h.once.1.symm, fun h => ⟨hasked, fun _ hn => absurd hn (Option.some_ne_none _).symm, h.symm,
    fun hne => absurd rfl hne⟩⟩

theorem readOnce_eq_none :
    readOnce host buf count mem file = none ↔
      ¬ (GuestMemory.Fits mem.size buf.toNat (fread host count.toNat file).1.length ∧
        ((fread host count.toNat file).1.length = count.toNat ∨
          host.ferror (fread host count.toNat file).2 = false)) := by
  unfold readOnce
  dsimp only
  split_ifs with hok
  · exact ⟨fun h => h.elim, fun h => absurd hok h⟩
  · exact ⟨fun _ => hok, fun _ => rfl⟩

variable (host buf count mem file) in
def ReadFileSound : Prop :=
  ∃ res r, readFile host buf count mem file = some (res, r) ∧ ReadSound host buf count mem file res r

theorem readFileSound_iff {res : Option Nat} {r : Reading σ} (hrun : readFile host buf count mem file = some (res, r)) :
    ReadFileSound host buf count mem file ↔ ReadSound host buf count mem file res r := by
  constructor
  · rintro ⟨res', r', hrun', h⟩
    rw [hrun] at hrun'
    cases hrun'
    exact h
  · exact fun h => ⟨res, r, hrun, h⟩

theorem sound_iff_of_not_room
    (hroom : ¬ PartsRoom mem.size buf.toNat (fullTurns count) (fread host count.toNat file).1.length) :
    ReadFileSound host buf count mem file ↔ ReadMeets host buf count mem file := by
  obtain ⟨hcount, hrest, hpos, hn⟩ := readFile_parts count mem file
  obtain ⟨r, hrun, hasked⟩ := readFrom_unfit host buf count.toNat hcount hrest hpos hn
    (fun hfit => hroom (partsFit_once.mp hfit))
  have hle : ∀ n ∈ r.asked, n ≤ preallocSize := fun n hn => (hasked n hn).resolve_left List.not_mem_nil
  rw [readFileSound_iff hrun, readSound_none hle, readOnce_eq_none]
  obtain ⟨hfits, hwrap⟩ := not_or.mp hroom
  constructor
  · intro h
    refine ⟨fun hedge => ?_, fun _ hw => absurd hw hwrap, fun _ hr => absurd hr hroom⟩
    by_contra hferr
    refine h ⟨?_, .inr (Bool.not_eq_true _ ▸ hferr)⟩
    obtain ⟨hpos, -, -, hend, -⟩ := hedge
    exact ⟨by omega, by omega⟩
  · rintro h ⟨hfit, hor⟩
    have hedge := not_not.mp fun hedge => hfits ⟨hfit, hedge⟩
    rcases hor with heq | hferr
    · obtain ⟨hpos', -, hle', -, -⟩ := hedge
      rw [heq] at hpos' hle'
      rcases hpos with hzero | hrest'
      · rw [hzero, Nat.mul_zero] at hle'
        omega
      · omega
    · rw [h.edge hedge] at hferr
      exact Bool.noConfusion hferr

/-- A success, whose bytes have been written without wrapping around. -/
theorem readSound_some {r : Reading σ} (hasked : ∀ n ∈ r.asked, n ≤ preallocSize)
    (hgot : r.got = (fread host count.toNat file).1) (hmem : r.mem = mem.copy buf.toNat r.got)
    (honce : readOnce host buf count mem file = some r.got.length) :
    ReadSound host buf count mem file (some r.got.length) r where
  asked := hasked
  stored n hn := by
    cases hn
    refine ⟨?_, rfl, ?_⟩
    · rw [hgot]
      exact fread_length_le host count.toNat file
    · rw [hmem]
      exact storedAt_copy r.got
  once := ⟨honce.symm, fun _ => hgot⟩

theorem readOnce_eq_some (hfit : GuestMemory.Fits mem.size buf.toNat (fread host count.toNat file).1.length)
    (hok : (fread host count.toNat file).1.length = count.toNat ∨ host.ferror (fread host count.toNat file).2 = false) :
    readOnce host buf count mem file = some (fread host count.toNat file).1.length := if_pos ⟨hfit, hok⟩

theorem storeParts_fits {size : Nat} (hsize : size ≤ 2 ^ 32) {bs : List Byte}
    (hfit : GuestMemory.Fits size buf.toNat bs.length) (j : Nat) :
    storeParts j buf.toNat bs mem = mem.copy buf.toNat bs := by
  obtain ⟨hlt, hle⟩ := hfit
  exact storeParts_eq buf.isLt (by omega)

theorem not_wraps_of_fits {size n : Nat} (hfit : GuestMemory.Fits size buf.toNat n) :
    ¬ WrapsAround size buf.toNat n := by
  rintro ⟨hsize, -, hwrap⟩
  obtain ⟨hlt, hle⟩ := hfit
  omega

theorem EndsAtEdge.fits {size buf j n : Nat} (h : EndsAtEdge size buf j n) : GuestMemory.Fits size buf n := by
  obtain ⟨hpos, -, -, hend, -⟩ := h
  exact ⟨by omega, by omega⟩

/-- What one `fread` gives fits, or wraps around. -/
theorem PartsRoom.cases {size j n : Nat} (h : PartsRoom size buf.toNat j n) :
    GuestMemory.Fits size buf.toNat n ∧ ¬ EndsAtEdge size buf.toNat j n ∧ ¬ WrapsAround size buf.toNat n ∨
      ¬ GuestMemory.Fits size buf.toNat n ∧ WrapsAround size buf.toNat n := by
  rcases h with ⟨hfit, hedge⟩ | hwrap
  · exact .inl ⟨hfit, hedge, not_wraps_of_fits hfit⟩
  · exact .inr ⟨fun hfit => not_wraps_of_fits hfit hwrap, hwrap⟩

/-- No `fread` of the loop comes short. -/
theorem sound_iff_of_full
    (hroom : PartsRoom mem.size buf.toNat (fullTurns count) (fread host count.toNat file).1.length)
    (hfull : preallocSize * fullTurns count ≤ (fread host count.toNat file).1.length) :
    ReadFileSound host buf count mem file ↔ ReadMeets host buf count mem file := by
  obtain ⟨hcount, hrest, hpos, hn⟩ := readFile_parts count mem file
  obtain ⟨r, hafter, hrun⟩ := readFrom_fits host buf count.toNat hcount hrest hpos hn (partsFit_once.mpr hroom)
  rw [if_neg (Nat.not_lt.mpr hfull)] at hrun
  have hasked : ∀ n ∈ r.asked, n ≤ preallocSize := fun n hn => (hafter.asked n hn).resolve_left List.not_mem_nil
  have htotal : r.totalRead = (fread host count.toNat file).1.length := hafter.totalRead.trans (Nat.zero_add _)
  rw [readFileSound_iff hrun, htotal, hafter.file]
  dsimp only
  rcases hroom.cases with ⟨hfit, hedge, hwrap⟩ | ⟨hfit, hwrap⟩
  · refine iff_of_true ?_ ⟨fun h => absurd h hedge, fun _ h => absurd h hwrap, fun h => absurd h (Nat.not_lt.mpr hfull)⟩
    split_ifs with herr
    · refine (readSound_none hasked).mpr (readOnce_eq_none.mpr fun honce => ?_)
      rcases honce.2 with heq | hferr
      · exact herr.1 heq
      · exact Bool.noConfusion (hferr.symm.trans herr.2)
    · have hgot : r.got = (fread host count.toNat file).1 := hafter.got
      have hok : (fread host count.toNat file).1.length = count.toNat ∨
          host.ferror (fread host count.toNat file).2 = false := by
        rw [← Bool.not_eq_true]
        exact or_iff_not_imp_left.mpr fun hne hferr => herr ⟨hne, hferr⟩
      have hmem : r.mem = mem.copy buf.toNat r.got := by
        rw [hafter.mem, hgot]
        exact storeParts_fits mem.size_le hfit _
      have honce := readOnce_eq_some hfit hok
      rw [← hgot] at honce ⊢
      exact readSound_some hasked hgot hmem honce
  · have honce : readOnce host buf count mem file = none := readOnce_eq_none.mpr fun h => hfit h.1
    split_ifs with herr
    · exact iff_of_true ((readSound_none hasked).mpr honce)
        ⟨fun h => absurd h.fits hfit, fun _ _ => herr, fun h => absurd h (Nat.not_lt.mpr hfull)⟩
    · refine iff_of_false (fun h => ?_) fun h => herr (h.wrap hfull hwrap)
      exact absurd (h.once.1.trans honce) (Option.some_ne_none _)

theorem readEnd_asked {s r : Reading σ} {n : Nat} {res : Option Nat} (hrun : readEnd host buf n s = some (res, r)) :
    s.count ∈ r.asked := by
  have hmem : s.count ∈ s.asked ++ [s.count] := List.mem_append_right _ List.mem_cons_self
  unfold readEnd readPart at hrun
  dsimp only at hrun
  split_ifs at hrun with hover hfit
  · cases hrun
  · simp only [Option.bind_eq_bind, Option.bind_some, Bool.not_true, Bool.false_eq_true, if_false,
      Option.pure_def] at hrun
    split_ifs at hrun
    · cases hrun
      exact hmem
    · cases hrun
      exact hmem
  · cases hrun
    exact hmem

theorem storeParts_size (j x : Nat) (bs : List Byte) (mem : GuestMemory) : (storeParts j x bs mem).size = mem.size := by
  induction j generalizing x bs mem with
  | zero => rfl
  | succ j ih =>
    rw [storeParts]
    split_ifs
    · rfl
    · exact ih _ _ _

/-- The second `fread`, where the rest of the request fits in `tmp`. -/
theorem readFile_again
    (hroom : PartsRoom mem.size buf.toNat (fullTurns count) (fread host count.toNat file).1.length)
    (hshort : (fread host count.toNat file).1.length < preallocSize * fullTurns count)
    (hleft : count.toNat - (fread host count.toNat file).1.length ≤ preallocSize) :
    ∃ r, readFile host buf count mem file = some (if AgainEnds host buf count mem file then
        some ((fread host count.toNat file).1.length + (freadAgain host count file).1.length) else none, r) ∧
      (∀ n ∈ r.asked, n ≤ preallocSize) ∧
      (AgainEnds host buf count mem file →
        r.got = (fread host count.toNat file).1 ++ (freadAgain host count file).1 ∧
        r.mem = (storeParts (fullTurns count) buf.toNat (fread host count.toNat file).1 mem).copy
          ((buf.toNat + (fread host count.toNat file).1.length) % 2 ^ 32) (freadAgain host count file).1) := by
  obtain ⟨hcount, hrest, hpos, hn⟩ := readFile_parts count mem file
  obtain ⟨s, hafter, hrun⟩ := readFrom_fits host buf count.toNat hcount hrest hpos hn (partsFit_once.mpr hroom)
  have htotal : s.totalRead = (fread host count.toNat file).1.length := hafter.totalRead.trans (Nat.zero_add _)
  have hgot : s.got = (fread host count.toNat file).1 := hafter.got
  have hleft' : s.count = count.toNat - (fread host count.toNat file).1.length := hafter.count
  have hagain : fread host s.count s.file = freadAgain host count file := by
    rw [hleft', hafter.file]
    rfl
  have hsize : s.mem.size = mem.size := by
    rw [hafter.mem]
    exact storeParts_size _ _ _ _
  have hmem : s.mem = storeParts (fullTurns count) buf.toNat (fread host count.toNat file).1 mem := hafter.mem
  have hasked : ∀ n ∈ (s.asking host s.count).asked, n ≤ preallocSize := by
    intro n hn
    rcases asked_asking host (hleft' ▸ hleft) n hn with hn | hn
    · exact (hafter.asked n hn).resolve_left List.not_mem_nil
    · exact hn
  rw [if_pos hshort, readEnd_eq host (hleft' ▸ hleft), hagain, htotal, hsize] at hrun
  by_cases hfit : GuestMemory.Fits mem.size ((buf.toNat + (fread host count.toNat file).1.length) % 2 ^ 32)
      (freadAgain host count file).1.length
  · rw [if_pos hfit] at hrun
    refine ⟨(s.asking host s.count).storing ((buf.toNat + (fread host count.toNat file).1.length) % 2 ^ 32)
      (freadAgain host count file).1, hrun.trans ?_, hasked, fun _ => ⟨?_, ?_⟩⟩
    · have hends : AgainEnds host buf count mem file ↔
          ¬ ((fread host count.toNat file).1.length + (freadAgain host count file).1.length ≠ count.toNat ∧
            host.ferror (freadAgain host count file).2 = true) := by
        rw [not_and_or, not_not, Bool.not_eq_true]
        exact and_iff_right hfit
      change some (if s.totalRead + _ ≠ count.toNat ∧ host.ferror (fread host s.count s.file).2 = true then none
        else some (s.totalRead + _), _) = _
      rw [hagain, htotal, ← ite_not, if_congr hends rfl rfl]
    · change s.got ++ (fread host s.count s.file).1 = _
      rw [hgot, hagain]
    · change s.mem.copy _ _ = _
      rw [hmem]
  · rw [if_neg hfit] at hrun
    have hends : ¬ AgainEnds host buf count mem file := fun h => hfit h.1
    refine ⟨_, hrun.trans ?_, hasked, fun h => absurd h hends⟩
    rw [if_neg hends]

/-- A `fread` of the loop comes short. -/
theorem sound_iff_of_short
    (hroom : PartsRoom mem.size buf.toNat (fullTurns count) (fread host count.toNat file).1.length)
    (hshort : (fread host count.toNat file).1.length < preallocSize * fullTurns count) :
    ReadFileSound host buf count mem file ↔ ReadMeets host buf count mem file := by
  by_cases hleft : count.toNat - (fread host count.toNat file).1.length ≤ preallocSize
  · obtain ⟨r, hrun, hasked, hends⟩ := readFile_again hroom hshort hleft
    have hne : (fread host count.toNat file).1.length ≠ count.toNat := by
      obtain ⟨hcount, -, hpos, -⟩ := readFile_parts count mem file
      rcases hpos with hzero | hpos
      · rw [hzero] at hshort
        omega
      · dsimp only at hcount
        omega
    have hedge : ¬ EndsAtEdge mem.size buf.toNat (fullTurns count) (fread host count.toNat file).1.length := by
      rcases hroom.cases with ⟨-, hedge, -⟩ | ⟨hfit, -⟩
      · exact hedge
      · exact fun h => hfit h.fits
    -- Only the clause for a short `fread` is left of the condition.
    have hmeets : ReadMeets host buf count mem file ↔
        if GuestMemory.Fits mem.size buf.toNat (fread host count.toNat file).1.length ∧
            host.ferror (fread host count.toNat file).2 = false then
          (freadAgain host count file).1 = [] ∧ AgainEnds host buf count mem file
        else ¬ AgainEnds host buf count mem file :=
      ⟨fun h => (h.short hshort hroom).2,
        fun h => ⟨fun he => absurd he hedge, fun hfull => absurd hshort (Nat.not_lt.mpr hfull), fun _ _ => ⟨hleft, h⟩⟩⟩
    have honce : readOnce host buf count mem file = none ↔
        ¬ (GuestMemory.Fits mem.size buf.toNat (fread host count.toNat file).1.length ∧
          host.ferror (fread host count.toNat file).2 = false) := by
      rw [readOnce_eq_none, or_iff_right hne]
    rw [readFileSound_iff hrun, hmeets]
    by_cases hagain : AgainEnds host buf count mem file
    · obtain ⟨hgot, hmem⟩ := hends hagain
      rw [if_pos hagain]
      by_cases hok : GuestMemory.Fits mem.size buf.toNat (fread host count.toNat file).1.length ∧
          host.ferror (fread host count.toNat file).2 = false
      · rw [if_pos hok]
        constructor
        · intro h
          have hsame := h.once.2 (Option.some_ne_none _)
          rw [hgot] at hsame
          exact ⟨List.append_right_eq_self.mp hsame, hagain⟩
        · rintro ⟨hnil, -⟩
          rw [hnil, List.append_nil] at hgot
          rw [hnil, GuestMemory.copy_nil, storeParts_fits mem.size_le hok.1, ← hgot] at hmem
          have hsome := readOnce_eq_some hok.1 (.inr hok.2)
          rw [hnil, List.length_nil, Nat.add_zero]
          rw [← hgot] at hsome ⊢
          exact readSound_some hasked hgot hmem hsome
      · rw [if_neg hok]
        exact iff_of_false (fun h => Option.some_ne_none _ (h.once.1.trans (honce.mpr hok))) fun h => h hagain
    · rw [if_neg hagain, readSound_none hasked, honce]
      by_cases hok : GuestMemory.Fits mem.size buf.toNat (fread host count.toNat file).1.length ∧
          host.ferror (fread host count.toNat file).2 = false
      · rw [if_pos hok]
        exact iff_of_false (fun h => h hok) fun h => hagain h.2
      · rw [if_neg hok]
        exact iff_of_true hok hagain
  · refine iff_of_false ?_ fun h => hleft (h.short hshort hroom).1
    rintro ⟨res, r, hrun', hsound⟩
    obtain ⟨hcount, hrest, hpos, hn⟩ := readFile_parts count mem file
    obtain ⟨s, hafter, hrun⟩ := readFrom_fits host buf count.toNat hcount hrest hpos hn (partsFit_once.mpr hroom)
    rw [if_pos hshort] at hrun
    have hmem := readEnd_asked (hrun.symm.trans hrun')
    rw [hafter.count] at hmem
    exact hleft (hsound.asked _ hmem)

/-- **When `read` of a stream is sound.** -/
theorem readFileSound_iff_meets : ReadFileSound host buf count mem file ↔ ReadMeets host buf count mem file := by
  by_cases hroom : PartsRoom mem.size buf.toNat (fullTurns count) (fread host count.toNat file).1.length
  · rcases Nat.lt_or_ge (fread host count.toNat file).1.length (preallocSize * fullTurns count) with hshort | hfull
    · exact sound_iff_of_short hroom hshort
    · exact sound_iff_of_full hroom hfull
  · exact sound_iff_of_not_room hroom

/-- A stream that comes short within the loop and then goes on writes outside of `tmp`. -/
theorem readFile_overflow
    (hroom : PartsRoom mem.size buf.toNat (fullTurns count) (fread host count.toNat file).1.length)
    (hshort : (fread host count.toNat file).1.length < preallocSize * fullTurns count)
    (hover : preallocSize < (freadAgain host count file).1.length) : readFile host buf count mem file = none := by
  obtain ⟨hcount, hrest, hpos, hn⟩ := readFile_parts count mem file
  obtain ⟨s, hafter, hrun⟩ := readFrom_fits host buf count.toNat hcount hrest hpos hn (partsFit_once.mpr hroom)
  have hagain : fread host s.count s.file = freadAgain host count file := by
    rw [hafter.count, hafter.file]
    rfl
  have hpart : readPart host buf s.count s = none := by
    unfold readPart
    rw [hagain]
    exact if_pos hover
  rw [if_pos hshort, readEnd, hpart] at hrun
  exact hrun

end Sound

/-! ## The system call -/

section Call

variable {σ : Type} (host : HostFile σ)

/-- A descriptor that is not in the table gives -1 and changes nothing; otherwise the call on its stream is sound. -/
def ReadCallSound (s : FdState) (fd buf count : Word) (mem : GuestMemory) (files : Stream → σ) : Prop :=
  match s.live fd.toInt with
  | none => syscallRead host s fd buf count mem files = some (-1, mem, files)
  | some f => ∃ res r, readFile host buf count mem (files f) = some (res, r) ∧
      ReadSound host buf count mem (files f) res r ∧
      syscallRead host s fd buf count mem files =
        some ((res.map (BitVec.ofNat 32)).getD (-1), r.mem, Function.update files f r.file)

theorem readCallSound_iff (s : FdState) (fd buf count : Word) (mem : GuestMemory) (files : Stream → σ) :
    ReadCallSound host s fd buf count mem files ↔
      ∀ f, s.live fd.toInt = some f → ReadFileSound host buf count mem (files f) := by
  unfold ReadCallSound syscallRead
  cases hlive : s.live fd.toInt with
  | none => exact iff_of_true rfl fun f hf => absurd hf (Option.some_ne_none f).symm
  | some f =>
    constructor
    · rintro ⟨res, r, hrun, hsound, -⟩ f' hf'
      cases hf'
      exact ⟨res, r, hrun, hsound⟩
    · intro h
      obtain ⟨res, r, hrun, hsound⟩ := h f rfl
      refine ⟨res, r, hrun, hsound, ?_⟩
      simp only [hrun, Option.bind_eq_bind, Option.bind_some, Option.pure_def]

def emptyFile : HostFile Unit := ⟨fun _ => (none, ()), fun _ => false⟩

def pageMemory : GuestMemory where
  size := 8192
  bytes _ := 0
  pos := by decide
  size_le := by decide

end Call

end Rv32emu
