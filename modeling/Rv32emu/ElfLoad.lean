import Mathlib.Algebra.Group.Nat.Defs
import Mathlib.Order.Basic
import Mathlib.Tactic.Common
import Rv32emu.Overlay

/-!
# `elf_load`

A file is what `mmap` has given: reading behind its end is undefined, which is `none`.

* `elfOpen`, `elfLoad` : as in the source, with `Ehdr` and `Phdr` for the fields that are read;
* `Loaded` : the `PT_LOAD` segments are in memory, and nothing else has changed; `Inside` : the program headers and
  segments lie in the file, and the segments in memory;
* `LoadsExactly` : the result is `true` only where the segments are `Loaded` and `Inside`;
* `elfLoad_exact_iff` : when that is so.
-/

namespace Rv32emu

open Overlay

/-! ## The file -/

def readHalf (file : List (BitVec 8)) (o : Nat) : Option (BitVec 16) := do
  let lo ← file[o]?
  let hi ← file[o + 1]?
  return hi ++ lo

def readWord (file : List (BitVec 8)) (o : Nat) : Option (BitVec 32) := do
  let lo ← readHalf file o
  let hi ← readHalf file (o + 2)
  return hi ++ lo

/-- `struct Elf32_Ehdr`. -/
structure Ehdr where
  phoff : BitVec 32
  phentsize : BitVec 16
  phnum : BitVec 16

def readEhdr (file : List (BitVec 8)) : Option Ehdr := do
  let phoff ← readWord file 28
  let phentsize ← readHalf file 42
  let phnum ← readHalf file 44
  return { phoff, phentsize, phnum }

/-- `struct Elf32_Phdr`. -/
structure Phdr where
  type : BitVec 32
  offset : BitVec 32
  vaddr : BitVec 32
  filesz : BitVec 32
  memsz : BitVec 32

def readPhdr (file : List (BitVec 8)) (o : Nat) : Option Phdr := do
  let type ← readWord file o
  let offset ← readWord file (o + 4)
  let vaddr ← readWord file (o + 8)
  let filesz ← readWord file (o + 16)
  let memsz ← readWord file (o + 20)
  return { type, offset, vaddr, filesz, memsz }

def emRiscv : BitVec 16 := 243

/-- `ELFCLASS32`. -/
def elfClass32 : BitVec 8 := 1

def ptLoad : BitVec 32 := 1

def elfValid (file : List (BitVec 8)) : Option Bool := do
  -- the four bytes of `\177ELF`
  let magic ← readWord file 0
  if magic ≠ 0x464c457f then return false
  let ident ← file[4]?
  if ident ≠ elfClass32 then return false
  let machine ← readHalf file 18
  return machine = emRiscv

/-- `elf_open`, on a file that can be opened; an empty one cannot be mapped. -/
def elfOpen (file : List (BitVec 8)) : Option Bool := if file = [] then some false else elfValid file

/-! ## Guest memory -/

/-- `memory_t`, with the sizes that `memory_new` allows. -/
structure GuestMemory where
  size : Nat
  bytes : Nat → BitVec 8
  pos : 0 < size
  size_le : size ≤ 2 ^ 32

namespace GuestMemory

def Fits (size addr n : Nat) : Prop := addr < size ∧ n ≤ size - addr

instance (size addr n : Nat) : Decidable (Fits size addr n) := inferInstanceAs (Decidable (_ ∧ _))

/-- `memcpy`. -/
def copy (mem : GuestMemory) (addr : Nat) (src : List (BitVec 8)) : GuestMemory :=
  { mem with bytes := fun a => if addr ≤ a then (src[a - addr]?).getD (mem.bytes a) else mem.bytes a }

/-- `memset`. -/
def set (mem : GuestMemory) (addr n : Nat) (val : BitVec 8) : GuestMemory :=
  { mem with bytes := fun a => if addr ≤ a ∧ a < addr + n then val else mem.bytes a }

/-- `memory_write`, from the file. -/
def write (mem : GuestMemory) (addr : BitVec 32) (file : List (BitVec 8)) (src size : BitVec 32) :
    Option (Bool × GuestMemory) :=
  if Fits mem.size addr.toNat size.toNat then
    if src.toNat + size.toNat ≤ file.length then
      some (true, mem.copy addr.toNat ((file.drop src.toNat).take size.toNat))
    else none
  else some (false, mem)

def fill (mem : GuestMemory) (addr size : BitVec 32) (val : BitVec 8) : Bool × GuestMemory :=
  if Fits mem.size addr.toNat size.toNat then (true, mem.set addr.toNat size.toNat val) else (false, mem)

end GuestMemory

/-! ## Loading -/

namespace Phdr

/-- `min(p_memsz, p_filesz)`, which `int` only reads another way. -/
def toCopy (s : Phdr) : BitVec 32 := if s.memsz < s.filesz then s.memsz else s.filesz

/-- `max(p_memsz, p_filesz) - to_copy`. -/
def toZero (s : Phdr) : BitVec 32 := (if s.filesz < s.memsz then s.memsz else s.filesz) - s.toCopy

/-- `to_copy && !memory_write(..)`, the other way. -/
def copyIn (s : Phdr) (file : List (BitVec 8)) (mem : GuestMemory) : Option (Bool × GuestMemory) :=
  if s.toCopy ≠ 0 then mem.write s.vaddr file s.offset s.toCopy else some (true, mem)

/-- `to_zero && !memory_fill(..)`, the other way. -/
def zeroOut (s : Phdr) (mem : GuestMemory) : Bool × GuestMemory :=
  if s.toZero ≠ 0 then mem.fill (s.vaddr + s.toCopy) s.toZero 0 else (true, mem)

/-- A `PT_LOAD` segment. -/
def load (s : Phdr) (file : List (BitVec 8)) (mem : GuestMemory) : Option (Bool × GuestMemory) := do
  let (ok, mem) ← s.copyIn file mem
  if ok = false then return (false, mem)
  return s.zeroOut mem

end Phdr

def loadHeader (file : List (BitVec 8)) (o : Nat) (mem : GuestMemory) : Option (Bool × GuestMemory) := do
  let type ← readWord file o
  if type ≠ ptLoad then return (true, mem)
  let s ← readPhdr file o
  s.load file mem

def loadHeaders (file : List (BitVec 8)) : List Nat → GuestMemory → Option (Bool × GuestMemory)
  | [], mem => some (true, mem)
  | o :: os, mem => do
    let (ok, mem) ← loadHeader file o mem
    if ok then loadHeaders file os mem else return (false, mem)

/-- `e_phoff + p * e_phentsize`, in 32 bits. -/
def Ehdr.offset (e : Ehdr) (p : Nat) : BitVec 32 := e.phoff + BitVec.ofNat 32 (p * e.phentsize.toNat)

def elfLoad (file : List (BitVec 8)) (mem : GuestMemory) : Option (Bool × GuestMemory) := do
  let e ← readEhdr file
  loadHeaders file ((List.range e.phnum.toNat).map fun p => (e.offset p).toNat) mem

/-! ## What is promised -/

/-- A `PT_LOAD` header. -/
def loadable (file : List (BitVec 8)) (o : Nat) : Option Phdr := (readPhdr file o).filter fun s => s.type = ptLoad

def headers (file : List (BitVec 8)) : List Nat :=
  (readEhdr file).elim [] fun e => (List.range e.phnum.toNat).map fun p => e.phoff.toNat + p * e.phentsize.toNat

/-- The `PT_LOAD` headers, in order. -/
def segments (file : List (BitVec 8)) : List Phdr := (headers file).filterMap (loadable file)

namespace Phdr

def Covers (s : Phdr) (a : Nat) : Prop := s.vaddr.toNat ≤ a ∧ a < s.vaddr.toNat + s.memsz.toNat

instance (s : Phdr) (a : Nat) : Decidable (s.Covers a) := inferInstanceAs (Decidable (_ ∧ _))

/-- The byte that belongs there: one of the file, or zero behind those. -/
def byte (s : Phdr) (file : List (BitVec 8)) (a : Nat) : BitVec 8 :=
  if a - s.vaddr.toNat < min s.memsz.toNat s.filesz.toNat then file.getD (s.offset.toNat + (a - s.vaddr.toNat)) 0 else 0

/-- The range in the file; an empty one lies everywhere. -/
def InFile (s : Phdr) (file : List (BitVec 8)) : Prop :=
  s.filesz.toNat = 0 ∨ s.offset.toNat + s.filesz.toNat ≤ file.length

def InMemory (s : Phdr) (size : Nat) : Prop := s.memsz.toNat = 0 ∨ s.vaddr.toNat + s.memsz.toNat ≤ size

end Phdr

/-- Each segment is in memory but for what later ones cover, and no other byte has changed. -/
structure Loaded (file : List (BitVec 8)) (mem mem' : GuestMemory) : Prop where
  size : mem'.size = mem.size
  segment : ∀ pre s post, segments file = pre ++ s :: post → ∀ a < mem.size, s.Covers a → (∀ t ∈ post, ¬ t.Covers a) →
    mem'.bytes a = s.byte file a
  frame : ∀ a < mem.size, (∀ s ∈ segments file, ¬ s.Covers a) → mem'.bytes a = mem.bytes a

/-- The program headers and the segments lie in the file, and the segments in memory. Offsets have 32 bits. -/
structure Inside (file : List (BitVec 8)) (size : Nat) : Prop where
  header : ∀ o ∈ headers file, o < 2 ^ 32 ∧ o + 32 ≤ file.length
  segment : ∀ s ∈ segments file, s.InFile file ∧ s.InMemory size

/-- `elf_load` loads the segments, or fails; and it fails if they are not inside. -/
def LoadsExactly (file : List (BitVec 8)) (mem : GuestMemory) : Prop :=
  ∃ ok mem', elfLoad file mem = some (ok, mem') ∧ (ok = true → Loaded file mem mem') ∧
    (¬ Inside file mem.size → ok = false)

/-! ## One segment -/

namespace GuestMemory

theorem copy_nil (mem : GuestMemory) (addr : Nat) : mem.copy addr [] = mem := by
  unfold copy
  simp

theorem copy_append (mem : GuestMemory) (addr : Nat) (a b : List (BitVec 8)) :
    (mem.copy addr a).copy (addr + a.length) b = mem.copy addr (a ++ b) := by
  refine congrArg (fun bytes => { mem with bytes }) (funext fun x => ?_)
  change (if addr + a.length ≤ x then (b[x - (addr + a.length)]?).getD (if addr ≤ x then _ else _) else _) =
    if addr ≤ x then _ else _
  by_cases hx : addr ≤ x
  · simp only [if_pos hx]
    by_cases ha : addr + a.length ≤ x
    · rw [if_pos ha, List.getElem?_append_right (by omega), List.getElem?_eq_none (l := a) (by omega), Option.getD_none,
        Nat.sub_sub]
    · rw [if_neg ha, List.getElem?_append_left (by omega)]
      exact if_pos hx
  · rw [if_neg (show ¬ addr + a.length ≤ x by omega)]
    exact (if_neg hx).trans (if_neg hx).symm

theorem set_zero (mem : GuestMemory) (addr : Nat) (val : BitVec 8) : mem.set addr 0 val = mem := by
  have hnone : ∀ a, ¬ (addr ≤ a ∧ a < addr + 0) := fun a h => absurd h.2 (Nat.not_lt.mpr h.1)
  unfold set
  simp only [if_neg (hnone _)]

end GuestMemory

namespace Phdr

variable {s : Phdr} {file : List (BitVec 8)} {mem : GuestMemory}

theorem toNat_toCopy (s : Phdr) : s.toCopy.toNat = min s.memsz.toNat s.filesz.toNat := by
  unfold toCopy
  split_ifs with hlt
  · rw [BitVec.lt_def] at hlt
    omega
  · rw [BitVec.lt_def] at hlt
    omega

theorem toNat_toZero (s : Phdr) :
    s.toZero.toNat = max s.memsz.toNat s.filesz.toNat - min s.memsz.toNat s.filesz.toNat := by
  have hcopy := s.toNat_toCopy
  unfold toZero
  split_ifs with hlt
  · rw [BitVec.lt_def] at hlt
    rw [BitVec.toNat_sub_of_le (by rw [BitVec.le_def]; omega)]
    omega
  · rw [BitVec.lt_def] at hlt
    rw [BitVec.toNat_sub_of_le (by rw [BitVec.le_def]; omega)]
    omega

/-- `memory_write` takes the segment. -/
def CopyFits (s : Phdr) (size : Nat) : Prop := s.toCopy = 0 ∨ GuestMemory.Fits size s.vaddr.toNat s.toCopy.toNat

def CopyInFile (s : Phdr) (file : List (BitVec 8)) : Prop :=
  s.toCopy = 0 ∨ s.offset.toNat + s.toCopy.toNat ≤ file.length

/-- `memory_fill` takes the rest. -/
def ZeroFits (s : Phdr) (size : Nat) : Prop :=
  s.toZero = 0 ∨ GuestMemory.Fits size (s.vaddr + s.toCopy).toNat s.toZero.toNat

def copied (s : Phdr) (file : List (BitVec 8)) (mem : GuestMemory) : GuestMemory :=
  mem.copy s.vaddr.toNat ((file.drop s.offset.toNat).take s.toCopy.toNat)

def loaded (s : Phdr) (file : List (BitVec 8)) (mem : GuestMemory) : GuestMemory :=
  (s.copied file mem).set (s.vaddr + s.toCopy).toNat s.toZero.toNat 0

theorem copyIn_true (hfits : s.CopyFits mem.size) (hfile : s.CopyInFile file) :
    s.copyIn file mem = some (true, s.copied file mem) := by
  unfold copyIn
  by_cases hzero : s.toCopy = 0
  · rw [if_neg (not_not.mpr hzero), copied, hzero]
    change _ = some (true, mem.copy _ (List.take 0 _))
    rw [List.take_zero, GuestMemory.copy_nil]
  · rw [if_pos hzero, GuestMemory.write, if_pos (hfits.resolve_left hzero), if_pos (hfile.resolve_left hzero)]
    rfl

theorem load_true (hfits : s.CopyFits mem.size) (hfile : s.CopyInFile file) (hzero : s.ZeroFits mem.size) :
    s.load file mem = some (true, s.loaded file mem) := by
  unfold load
  rw [copyIn_true hfits hfile]
  change some (s.zeroOut (s.copied file mem)) = _
  unfold zeroOut
  by_cases hz : s.toZero = 0
  · rw [if_neg (not_not.mpr hz), loaded, hz]
    change _ = some (true, (s.copied file mem).set _ 0 0)
    rw [GuestMemory.set_zero]
  · rw [if_pos hz, GuestMemory.fill]
    exact congrArg some (if_pos (hzero.resolve_left hz))

theorem load_write_false (hfits : ¬ s.CopyFits mem.size) : s.load file mem = some (false, mem) := by
  obtain ⟨hne, hfits⟩ := not_or.mp hfits
  have hcopy : s.copyIn file mem = some (false, mem) := by
    rw [copyIn, if_pos hne, GuestMemory.write, if_neg hfits]
  unfold load
  rw [hcopy]
  rfl

theorem load_fill_false (hfits : s.CopyFits mem.size) (hfile : s.CopyInFile file) (hzero : ¬ s.ZeroFits mem.size) :
    s.load file mem = some (false, s.copied file mem) := by
  obtain ⟨hne, hzero⟩ := not_or.mp hzero
  unfold load
  rw [copyIn_true hfits hfile]
  change some (s.zeroOut (s.copied file mem)) = _
  rw [zeroOut, if_pos hne, GuestMemory.fill]
  exact congrArg some (if_neg hzero)

theorem load_none (hfits : s.CopyFits mem.size) (hfile : ¬ s.CopyInFile file) : s.load file mem = none := by
  obtain ⟨hne, hfile⟩ := not_or.mp hfile
  have hcopy : s.copyIn file mem = none := by
    rw [copyIn, if_pos hne, GuestMemory.write, if_pos (hfits.resolve_left hne), if_neg hfile]
  unfold load
  rw [hcopy]
  rfl

end Phdr

/-! ## One header -/

/-- What is read of the header, and of the file for its segment, lies in the file. -/
def HeaderReadable (file : List (BitVec 8)) (o : Nat) : Prop :=
  ∃ type, readWord file o = some type ∧ (type = ptLoad → ∃ s, loadable file o = some s ∧ s.CopyInFile file)

/-- `memory_write` or `memory_fill` refuses the segment. -/
def HeaderRefused (file : List (BitVec 8)) (size o : Nat) : Prop :=
  ∃ s, loadable file o = some s ∧ (¬ s.CopyFits size ∨ s.CopyInFile file ∧ ¬ s.ZeroFits size)

section Header

variable {file : List (BitVec 8)} {o : Nat} {s : Phdr} {mem : GuestMemory}

def headerLoaded (file : List (BitVec 8)) (mem : GuestMemory) (o : Nat) : GuestMemory :=
  (loadable file o).elim mem fun s => s.loaded file mem

theorem type_of_readPhdr (h : readPhdr file o = some s) : readWord file o = some s.type := by
  unfold readPhdr at h
  simp only [Option.bind_eq_bind, Option.bind_eq_some_iff] at h
  obtain ⟨type, htype, offset, -, vaddr, -, filesz, -, memsz, -, hs⟩ := h
  rw [htype, ← Option.some.inj hs]

theorem loadable_iff : loadable file o = some s ↔ readPhdr file o = some s ∧ s.type = ptLoad := by
  unfold loadable
  rw [Option.filter_eq_some_iff]
  simp

theorem loadHeader_of_type {type : BitVec 32} (h : readWord file o = some type) : loadHeader file o mem =
    if type ≠ ptLoad then some (true, mem) else (readPhdr file o).bind fun s => s.load file mem := by
  unfold loadHeader
  rw [h]
  rfl

theorem loadHeader_loadable (h : loadable file o = some s) : loadHeader file o mem = s.load file mem := by
  obtain ⟨hread, htype⟩ := loadable_iff.mp h
  rw [loadHeader_of_type (type_of_readPhdr hread), if_neg (not_not.mpr htype), hread]
  rfl

theorem loadHeader_refused (h : HeaderRefused file mem.size o) :
    ∃ mem', loadHeader file o mem = some (false, mem') := by
  obtain ⟨s, hs, hrefused⟩ := h
  rw [loadHeader_loadable hs]
  by_cases hfits : s.CopyFits mem.size
  · obtain ⟨hfile, hzero⟩ := hrefused.resolve_left (not_not.mpr hfits)
    exact ⟨_, Phdr.load_fill_false hfits hfile hzero⟩
  · exact ⟨_, Phdr.load_write_false hfits⟩

theorem loadHeader_true (hread : HeaderReadable file o) (hrefused : ¬ HeaderRefused file mem.size o) :
    loadHeader file o mem = some (true, headerLoaded file mem o) := by
  obtain ⟨type, htype, hload⟩ := hread
  by_cases hpt : type = ptLoad
  · obtain ⟨s, hs, hfile⟩ := hload hpt
    have hfits : s.CopyFits mem.size := by_contra fun hfits => hrefused ⟨s, hs, .inl hfits⟩
    have hzero : s.ZeroFits mem.size := by_contra fun hzero => hrefused ⟨s, hs, .inr ⟨hfile, hzero⟩⟩
    rw [loadHeader_loadable hs, headerLoaded, hs]
    exact Phdr.load_true hfits hfile hzero
  · have hnone : loadable file o = none := by
      by_contra hne
      obtain ⟨s, hs⟩ := Option.ne_none_iff_exists'.mp hne
      obtain ⟨hphdr, hptype⟩ := loadable_iff.mp hs
      rw [type_of_readPhdr hphdr] at htype
      exact hpt ((Option.some.inj htype).symm.trans hptype)
    rw [headerLoaded, hnone, loadHeader_of_type htype, if_pos hpt]
    rfl

theorem loadHeader_none (hread : ¬ HeaderReadable file o) (hrefused : ¬ HeaderRefused file mem.size o) :
    loadHeader file o mem = none := by
  cases htype : readWord file o with
  | none =>
    unfold loadHeader
    rw [htype]
    rfl
  | some type =>
    have hpt : type = ptLoad := by_contra fun hne => hread ⟨type, htype, fun h => absurd h hne⟩
    cases hphdr : readPhdr file o with
    | none =>
      rw [loadHeader_of_type htype, if_neg (not_not.mpr hpt), hphdr]
      rfl
    | some s =>
      have hs : loadable file o = some s := by
        refine loadable_iff.mpr ⟨hphdr, ?_⟩
        rw [type_of_readPhdr hphdr] at htype
        exact (Option.some.inj htype).trans hpt
      have hfits : s.CopyFits mem.size := by_contra fun hfits => hrefused ⟨s, hs, .inl hfits⟩
      rw [loadHeader_loadable hs]
      exact Phdr.load_none hfits fun hfile => hread ⟨type, htype, fun _ => ⟨s, hs, hfile⟩⟩

theorem headerLoaded_size : (headerLoaded file mem o).size = mem.size := by
  unfold headerLoaded
  cases loadable file o <;> rfl

end Header

/-! ## The loop -/

/-- A segment is refused, and up to there the headers can be read. -/
def HeadersRefused (file : List (BitVec 8)) (size : Nat) (os : List Nat) : Prop :=
  ∃ pre o post, os = pre ++ o :: post ∧ (∀ q ∈ pre, HeaderReadable file q) ∧ HeaderRefused file size o

section Loop

variable {file : List (BitVec 8)} {o : Nat} {os : List Nat} {mem mem' : GuestMemory}

theorem loadHeaders_cons {ok : Bool} (h : loadHeader file o mem = some (ok, mem')) :
    loadHeaders file (o :: os) mem = if ok then loadHeaders file os mem' else some (false, mem') := by
  change (loadHeader file o mem).bind _ = _
  rw [h]
  cases ok <;> rfl

theorem loadHeaders_cons_none (h : loadHeader file o mem = none) : loadHeaders file (o :: os) mem = none := by
  unfold loadHeaders
  rw [h]
  rfl

theorem headersRefused_cons {size : Nat} : HeadersRefused file size (o :: os) ↔
    HeaderRefused file size o ∨ HeaderReadable file o ∧ HeadersRefused file size os := by
  constructor
  · rintro ⟨pre, q, post, hos, hpre, hq⟩
    cases pre with
    | nil =>
      obtain ⟨rfl, -⟩ := List.cons.inj hos
      exact .inl hq
    | cons r pre =>
      obtain ⟨rfl, rfl⟩ := List.cons.inj hos
      exact .inr ⟨hpre _ List.mem_cons_self, pre, q, post, rfl, fun r hr => hpre r (List.mem_cons_of_mem _ hr), hq⟩
  · rintro (ho | ⟨ho, pre, q, post, rfl, hpre, hq⟩)
    · exact ⟨[], o, os, rfl, fun r hr => (nomatch hr), ho⟩
    · refine ⟨o :: pre, q, post, rfl, fun r hr => ?_, hq⟩
      rcases List.mem_cons.mp hr with rfl | hr
      · exact ho
      · exact hpre r hr

/-- **When the loop fails.** -/
theorem loadHeaders_false_iff (os : List Nat) (mem : GuestMemory) :
    (∃ mem', loadHeaders file os mem = some (false, mem')) ↔ HeadersRefused file mem.size os := by
  induction os generalizing mem with
  | nil =>
    refine iff_of_false ?_ ?_
    · rintro ⟨mem', h⟩
      cases h
    · rintro ⟨pre, o, post, h, -⟩
      exact absurd h (by simp)
  | cons o os ih =>
    rw [headersRefused_cons]
    by_cases hrefused : HeaderRefused file mem.size o
    · obtain ⟨mem', h⟩ := loadHeader_refused hrefused
      exact iff_of_true ⟨mem', loadHeaders_cons h⟩ (.inl hrefused)
    · by_cases hread : HeaderReadable file o
      · have hrest := ih (headerLoaded file mem o)
        rw [headerLoaded_size] at hrest
        rw [loadHeaders_cons (loadHeader_true hread hrefused), if_pos rfl, hrest]
        exact ⟨fun h => .inr ⟨hread, h⟩, fun h => (h.resolve_left hrefused).2⟩
      · rw [loadHeaders_cons_none (loadHeader_none hread hrefused)]
        refine iff_of_false ?_ fun h => hread (h.resolve_left hrefused).1
        rintro ⟨mem', h⟩
        cases h

/-- **When it succeeds.** -/
theorem loadHeaders_true_iff (os : List Nat) (mem mem' : GuestMemory) :
    loadHeaders file os mem = some (true, mem') ↔
      (∀ o ∈ os, HeaderReadable file o ∧ ¬ HeaderRefused file mem.size o) ∧
        mem' = os.foldl (headerLoaded file) mem := by
  induction os generalizing mem with
  | nil =>
    constructor
    · rintro ⟨⟩
      exact ⟨fun o ho => (nomatch ho), rfl⟩
    · rintro ⟨-, rfl⟩
      rfl
  | cons o os ih =>
    rw [List.forall_mem_cons, List.foldl_cons]
    by_cases hrefused : HeaderRefused file mem.size o
    · obtain ⟨mem₁, h⟩ := loadHeader_refused hrefused
      rw [loadHeaders_cons h]
      exact iff_of_false (by simp) fun h => h.1.1.2 hrefused
    · by_cases hread : HeaderReadable file o
      · rw [loadHeaders_cons (loadHeader_true hread hrefused), if_pos rfl, ih, headerLoaded_size]
        exact ⟨fun h => ⟨⟨⟨hread, hrefused⟩, h.1⟩, h.2⟩, fun h => ⟨h.1.2, h.2⟩⟩
      · rw [loadHeaders_cons_none (loadHeader_none hread hrefused)]
        exact iff_of_false (by simp) fun h => hread h.1.1.1

end Loop

/-! ## The bytes -/

namespace Phdr

variable {s : Phdr} {file : List (BitVec 8)} {mem : GuestMemory}

def patch (file : List (BitVec 8)) (s : Phdr) (a : Nat) : Option (BitVec 8) :=
  if s.Covers a then some (s.byte file a) else none

theorem patch_covers {a : Nat} (h : s.Covers a) : s.patch file a = some (s.byte file a) := if_pos h

theorem patch_eq_none {a : Nat} : s.patch file a = none ↔ ¬ s.Covers a := by
  unfold patch
  split_ifs with h
  · simp [h]
  · simp [h]

/-- The zero fill behind a segment whose part of the file is longer than it; the address wraps around. -/
def Surplus (s : Phdr) (a : Nat) : Prop :=
  s.memsz.toNat < s.filesz.toNat ∧ (s.vaddr + s.memsz).toNat ≤ a ∧
    a < (s.vaddr + s.memsz).toNat + (s.filesz.toNat - s.memsz.toNat)

instance (s : Phdr) (a : Nat) : Decidable (s.Surplus a) := inferInstanceAs (Decidable (_ ∧ _))

theorem copied_bytes (hfile : s.CopyInFile file) (a : Nat) : (s.copied file mem).bytes a =
    if s.vaddr.toNat ≤ a ∧ a < s.vaddr.toNat + s.toCopy.toNat then file.getD (s.offset.toNat + (a - s.vaddr.toNat)) 0
    else mem.bytes a := by
  change (if s.vaddr.toNat ≤ a then (((file.drop s.offset.toNat).take s.toCopy.toNat)[a - s.vaddr.toNat]?).getD
    (mem.bytes a) else mem.bytes a) = _
  by_cases hle : s.vaddr.toNat ≤ a
  · rw [if_pos hle]
    by_cases hlt : a < s.vaddr.toNat + s.toCopy.toNat
    · have hne : s.toCopy ≠ 0 := by
        intro hzero
        rw [hzero] at hlt
        exact absurd hlt (Nat.not_lt.mpr hle)
      have hin := hfile.resolve_left hne
      rw [if_pos ⟨hle, hlt⟩, List.getElem?_take_of_lt (by omega), List.getElem?_drop, List.getD_eq_getElem?_getD,
        List.getElem?_eq_getElem (by omega)]
      rfl
    · rw [if_neg fun h => hlt h.2, List.getElem?_eq_none]
      · rfl
      · rw [List.length_take]
        omega
  · rw [if_neg hle, if_neg fun h => hle h.1]

/-- A segment is written, and its surplus behind it. -/
theorem loaded_bytes (hfile : s.CopyInFile file) (hmem : s.InMemory mem.size) (a : Nat) :
    (s.loaded file mem).bytes a = if s.Surplus a then 0 else overlay (s.patch file) mem.bytes a := by
  have hcopy := s.toNat_toCopy
  have hzero := s.toNat_toZero
  have hsize := mem.size_le
  change (if (s.vaddr + s.toCopy).toNat ≤ a ∧ a < (s.vaddr + s.toCopy).toNat + s.toZero.toNat then 0
    else (s.copied file mem).bytes a) = _
  rw [copied_bytes hfile, hcopy, hzero]
  by_cases hlt : s.memsz.toNat < s.filesz.toNat
  · have heq : s.toCopy = s.memsz := BitVec.eq_of_toNat_eq (by omega)
    have hsurplus : (s.vaddr + s.memsz).toNat ≤ a ∧ a < (s.vaddr + s.memsz).toNat +
        (max s.memsz.toNat s.filesz.toNat - min s.memsz.toNat s.filesz.toNat) ↔ s.Surplus a := by
      rw [Nat.max_eq_right (Nat.le_of_lt hlt), Nat.min_eq_left (Nat.le_of_lt hlt)]
      exact (and_iff_right hlt).symm
    rw [heq]
    simp only [hsurplus]
    split_ifs with hs hc
    · rfl
    · rw [Nat.min_eq_left (Nat.le_of_lt hlt)] at hc
      have hbyte : s.byte file a = file.getD (s.offset.toNat + (a - s.vaddr.toNat)) 0 := if_pos (by omega)
      exact ((overlay_of_some (patch_covers hc)).trans hbyte).symm
    · rw [Nat.min_eq_left (Nat.le_of_lt hlt)] at hc
      exact (overlay_of_none (patch_eq_none.mpr hc)).symm
  · rw [if_neg fun h : s.Surplus a => hlt h.1]
    by_cases hcovers : s.Covers a
    · have hbyte : overlay (s.patch file) mem.bytes a = s.byte file a := overlay_of_some (patch_covers hcovers)
      obtain ⟨hle, hend⟩ := hcovers
      have hin := hmem.resolve_left (by omega)
      rw [hbyte, byte]
      by_cases hread : a - s.vaddr.toNat < min s.memsz.toNat s.filesz.toNat
      · rw [if_pos hread, if_neg, if_pos (by omega)]
        rintro ⟨hbegin, hzeros⟩
        have hlonger : s.filesz.toNat < s.memsz.toNat := by omega
        rw [BitVec.toNat_add, hcopy, Nat.mod_eq_of_lt (by omega)] at hbegin
        omega
      · rw [if_neg hread, if_pos]
        rw [BitVec.toNat_add, hcopy, Nat.mod_eq_of_lt (by omega)]
        omega
    · have hbyte : overlay (s.patch file) mem.bytes a = mem.bytes a := overlay_of_none (patch_eq_none.mpr hcovers)
      rw [hbyte, if_neg, if_neg]
      · rintro ⟨hle, hend⟩
        exact hcovers ⟨hle, by omega⟩
      · rintro ⟨hle, hend⟩
        have hin := hmem.resolve_left (by omega)
        rw [BitVec.toNat_add, hcopy, Nat.mod_eq_of_lt (by omega)] at hle hend
        exact hcovers ⟨by omega, by omega⟩

end Phdr

section Bytes

variable {file : List (BitVec 8)} {mem mem' : GuestMemory}

theorem foldl_size (os : List Nat) (mem : GuestMemory) : (os.foldl (headerLoaded file) mem).size = mem.size := by
  induction os generalizing mem with
  | nil => rfl
  | cons o os ih => exact (ih _).trans headerLoaded_size

/-- The loop writes the segments, with their surplus. -/
theorem foldl_bytes (os : List Nat) (mem : GuestMemory)
    (h : ∀ s ∈ os.filterMap (loadable file), s.CopyInFile file ∧ s.InMemory mem.size) :
    (os.foldl (headerLoaded file) mem).bytes =
      spilled (Phdr.patch file) Phdr.Surplus 0 (os.filterMap (loadable file)) mem.bytes := by
  induction os generalizing mem with
  | nil => rfl
  | cons o os ih =>
    have hrest := ih (headerLoaded file mem o)
    rw [headerLoaded_size] at hrest
    rw [List.foldl_cons]
    cases hs : loadable file o with
    | none =>
      have hsame : headerLoaded file mem o = mem := by rw [headerLoaded, hs, Option.elim_none]
      rw [List.filterMap_cons_none hs] at h ⊢
      rw [hsame] at hrest ⊢
      exact hrest h
    | some s =>
      have hload : headerLoaded file mem o = s.loaded file mem := by rw [headerLoaded, hs, Option.elim_some]
      rw [List.filterMap_cons_some hs] at h ⊢
      obtain ⟨hfile, hmem⟩ := h s List.mem_cons_self
      rw [hload] at hrest ⊢
      rw [hrest fun t ht => h t (List.mem_cons_of_mem s ht)]
      have hbytes : (s.loaded file mem).bytes =
          fun a => if s.Surplus a then 0 else overlay (s.patch file) mem.bytes a :=
        funext (Phdr.loaded_bytes hfile hmem)
      rw [hbytes]
      rfl

def elfBytes (file : List (BitVec 8)) (bytes : Nat → BitVec 8) : Nat → BitVec 8 :=
  layers (Phdr.patch file) (segments file) bytes

/-- The segments are loaded if memory holds that. -/
theorem loaded_iff : Loaded file mem mem' ↔
    mem'.size = mem.size ∧ ∀ a < mem.size, mem'.bytes a = elfBytes file mem.bytes a := by
  constructor
  · rintro ⟨hsize, hsegment, hframe⟩
    refine ⟨hsize, fun a ha => ?_⟩
    by_cases h : ∃ s ∈ segments file, s.patch file a ≠ none
    · obtain ⟨pre, s, post, hsplit, hs, hpost⟩ := exists_last h
      have hcovers : s.Covers a := not_not.mp (mt Phdr.patch_eq_none.mpr hs)
      rw [elfBytes, hsplit, layers_last (Phdr.patch_covers hcovers) hpost]
      exact hsegment pre s post hsplit a ha hcovers fun t ht => Phdr.patch_eq_none.mp (hpost t ht)
    · have hnone : ∀ s ∈ segments file, s.patch file a = none := fun s hs => by_contra fun hne => h ⟨s, hs, hne⟩
      rw [elfBytes, layers_of_none hnone]
      exact hframe a ha fun s hs => Phdr.patch_eq_none.mp (hnone s hs)
  · rintro ⟨hsize, hbytes⟩
    refine ⟨hsize, fun pre s post hsplit a ha hcovers hpost => ?_, fun a ha hnone => ?_⟩
    · rw [hbytes a ha, elfBytes, hsplit,
        layers_last (Phdr.patch_covers hcovers) fun t ht => Phdr.patch_eq_none.mpr (hpost t ht)]
    · rw [hbytes a ha, elfBytes, layers_of_none fun s hs => Phdr.patch_eq_none.mpr (hnone s hs)]

end Bytes

/-! ## Reading inside the file -/

section Reading

variable {file : List (BitVec 8)} {o : Nat}

theorem readHalf_isSome (h : o + 2 ≤ file.length) : ∃ w, readHalf file o = some w := by
  unfold readHalf
  rw [List.getElem?_eq_getElem (by omega : o < file.length), List.getElem?_eq_getElem (by omega : o + 1 < file.length)]
  exact ⟨_, rfl⟩

theorem readWord_isSome (h : o + 4 ≤ file.length) : ∃ w, readWord file o = some w := by
  obtain ⟨lo, hlo⟩ := readHalf_isSome (by omega : o + 2 ≤ file.length)
  obtain ⟨hi, hhi⟩ := readHalf_isSome (by omega : o + 2 + 2 ≤ file.length)
  unfold readWord
  rw [hlo, hhi]
  exact ⟨_, rfl⟩

theorem readPhdr_isSome (h : o + 32 ≤ file.length) : ∃ s, readPhdr file o = some s := by
  obtain ⟨type, htype⟩ := readWord_isSome (by omega : o + 4 ≤ file.length)
  obtain ⟨offset, hoffset⟩ := readWord_isSome (by omega : o + 4 + 4 ≤ file.length)
  obtain ⟨vaddr, hvaddr⟩ := readWord_isSome (by omega : o + 8 + 4 ≤ file.length)
  obtain ⟨filesz, hfilesz⟩ := readWord_isSome (by omega : o + 16 + 4 ≤ file.length)
  obtain ⟨memsz, hmemsz⟩ := readWord_isSome (by omega : o + 20 + 4 ≤ file.length)
  unfold readPhdr
  rw [htype, hoffset, hvaddr, hfilesz, hmemsz]
  exact ⟨_, rfl⟩

/-- What is copied belongs to the part in the file. -/
theorem Phdr.InFile.copyInFile {s : Phdr} (h : s.InFile file) : s.CopyInFile file := by
  have hcopy := s.toNat_toCopy
  by_cases hzero : s.toCopy = 0
  · exact .inl hzero
  · have hne : s.toCopy.toNat ≠ 0 := fun h => hzero (BitVec.eq_of_toNat_eq h)
    have hin := h.resolve_left (by omega)
    exact .inr (by omega)

namespace Inside

variable {size : Nat}

theorem readable (h : Inside file size) (ho : o ∈ headers file) : HeaderReadable file o := by
  obtain ⟨s, hs⟩ := readPhdr_isSome (h.header o ho).2
  refine ⟨s.type, type_of_readPhdr hs, fun htype => ?_⟩
  have hload : loadable file o = some s := loadable_iff.mpr ⟨hs, htype⟩
  exact ⟨s, hload, (h.segment s (List.mem_filterMap.mpr ⟨o, ho, hload⟩)).1.copyInFile⟩

theorem offsets_eq (h : Inside file size) {e : Ehdr} (he : readEhdr file = some e) :
    (List.range e.phnum.toNat).map (fun p => (e.offset p).toNat) = headers file := by
  have hheaders : headers file = (List.range e.phnum.toNat).map fun p => e.phoff.toNat + p * e.phentsize.toNat := by
    rw [headers, he, Option.elim_some]
  rw [hheaders]
  refine List.map_congr_left fun p hp => ?_
  have hlt := (h.header (e.phoff.toNat + p * e.phentsize.toNat) (hheaders ▸ List.mem_map_of_mem hp)).1
  rw [Ehdr.offset, BitVec.toNat_add, BitVec.toNat_ofNat, Nat.add_mod_mod, Nat.mod_eq_of_lt hlt]

end Inside

end Reading

/-! ## When it does what is promised -/

/-- Either a segment is refused, and up to there everything can be read, or all is inside, and each surplus byte that no
later segment covers is to be zero. -/
def LoadCondition (file : List (BitVec 8)) (mem : GuestMemory) : Prop :=
  ∃ e, readEhdr file = some e ∧
    (HeadersRefused file mem.size ((List.range e.phnum.toNat).map fun p => (e.offset p).toNat) ∨
      Inside file mem.size ∧
        ∀ a < mem.size, Spills (Phdr.patch file) Phdr.Surplus (segments file) a → elfBytes file mem.bytes a = 0)

section

variable {file : List (BitVec 8)} {mem : GuestMemory}

theorem elfLoad_eq {e : Ehdr} (he : readEhdr file = some e) :
    elfLoad file mem = loadHeaders file ((List.range e.phnum.toNat).map fun p => (e.offset p).toNat) mem := by
  unfold elfLoad
  rw [he]
  rfl

/-- Where everything is inside, the loop loads the segments exactly if no surplus does harm. -/
theorem Inside.loaded_iff (h : Inside file mem.size) :
    Loaded file mem ((headers file).foldl (headerLoaded file) mem) ↔
      ∀ a < mem.size, Spills (Phdr.patch file) Phdr.Surplus (segments file) a → elfBytes file mem.bytes a = 0 := by
  have hbytes := foldl_bytes (headers file) mem fun s hs => (h.segment s hs).imp_left Phdr.InFile.copyInFile
  rw [Rv32emu.loaded_iff, hbytes]
  refine (and_iff_right (foldl_size _ _)).trans (forall₂_congr fun a ha => ?_)
  exact spilled_eq_iff

/-- **`elf_load` loads the segments or fails** exactly under the condition. -/
theorem elfLoad_exact_iff (file : List (BitVec 8)) (mem : GuestMemory) :
    LoadsExactly file mem ↔ LoadCondition file mem := by
  constructor
  · rintro ⟨ok, mem', hload, hloaded, hinside⟩
    cases he : readEhdr file with
    | none =>
      unfold elfLoad at hload
      rw [he] at hload
      cases hload
    | some e =>
      rw [elfLoad_eq he] at hload
      refine ⟨e, he, ?_⟩
      cases ok with
      | false => exact .inl ((loadHeaders_false_iff _ _).mp ⟨mem', hload⟩)
      | true =>
        have hin : Inside file mem.size := by_contra fun hout => Bool.noConfusion (hinside hout)
        obtain ⟨-, rfl⟩ := (loadHeaders_true_iff _ _ _).mp hload
        rw [hin.offsets_eq he] at hloaded
        exact .inr ⟨hin, hin.loaded_iff.mp (hloaded rfl)⟩
  · rintro ⟨e, he, hcondition⟩
    by_cases hrefused : HeadersRefused file mem.size ((List.range e.phnum.toNat).map fun p => (e.offset p).toNat)
    · obtain ⟨mem', hload⟩ := (loadHeaders_false_iff _ _).mpr hrefused
      exact ⟨false, mem', (elfLoad_eq he).trans hload, fun h => Bool.noConfusion h, fun _ => rfl⟩
    · obtain ⟨hin, hspills⟩ := hcondition.resolve_left hrefused
      rw [hin.offsets_eq he] at hrefused
      have hload : loadHeaders file (headers file) mem = some (true, (headers file).foldl (headerLoaded file) mem) := by
        refine (loadHeaders_true_iff _ _ _).mpr ⟨fun o ho => ⟨hin.readable ho, fun ho' => ?_⟩, rfl⟩
        obtain ⟨pre, post, hsplit⟩ := List.append_of_mem ho
        refine hrefused ⟨pre, o, post, hsplit, fun q hq => hin.readable ?_, ho'⟩
        rw [hsplit]
        exact List.mem_append_left _ hq
      refine ⟨true, _, ?_, fun _ => hin.loaded_iff.mpr hspills, fun hout => absurd hin hout⟩
      rw [elfLoad_eq he, hin.offsets_eq he]
      exact hload

end

/-- Two segments: two bytes at 2, and two of four bytes at 0. -/
def surplusImage : List (BitVec 8) :=
  [0x7f, 0x45, 0x4c, 0x46, 1, 1, 1, 0, 0, 0, 0, 0, 0, 0, 0, 0,
    2, 0, 0xf3, 0, 1, 0, 0, 0, 0, 0, 0, 0, 52, 0, 0, 0, 0, 0, 0, 0, 0, 0, 0, 0, 52, 0, 32, 0, 2, 0, 0, 0, 0, 0, 0, 0,
    1, 0, 0, 0, 0, 0, 0, 0, 2, 0, 0, 0, 2, 0, 0, 0, 2, 0, 0, 0, 2, 0, 0, 0, 4, 0, 0, 0, 1, 0, 0, 0,
    1, 0, 0, 0, 0, 0, 0, 0, 0, 0, 0, 0, 0, 0, 0, 0, 4, 0, 0, 0, 2, 0, 0, 0, 4, 0, 0, 0, 1, 0, 0, 0]

def freshMemory : GuestMemory := { size := 0x10000, bytes := fun _ => 0, pos := by decide, size_le := by decide }

/-- The second segment takes the first one away. -/
theorem elfLoad_surplus : elfOpen surplusImage = some true ∧ ¬ LoadsExactly surplusImage freshMemory := by
  refine ⟨by decide, ?_⟩
  rintro ⟨ok, mem', hload, hloaded, -⟩
  have hrun : (elfLoad surplusImage freshMemory).map (fun r => (r.1, r.2.bytes 2)) = some (true, 0) := by decide +kernel
  rw [hload] at hrun
  obtain ⟨hok, hbyte⟩ := Prod.mk.inj (Option.some.inj hrun)
  have hexpected := (loaded_iff.mp (hloaded hok)).2 2 (by decide)
  rw [hbyte] at hexpected
  exact absurd hexpected (by decide)

end Rv32emu
