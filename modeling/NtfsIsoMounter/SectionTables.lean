import NtfsIsoMounter.ByteMaps
import NtfsIsoMounter.SegmentConcat

/-!
# Section tables and the storage device under them

The plugin serves a disc image from a table of device extents. Starts and
sizes count 512-byte device sectors; the start 0xFFFFFFFF marks a hole. The
virtual image is the concatenation of the extents, with zeros in the holes and
past the last section. The kernel call `sys_storage_read` is an environment:
what it answers to its k-th call is arbitrary, and only an answer that reports
a full transfer leaves the device's own bytes in the buffer.
-/

namespace SectionTables

open SegmentConcat

abbrev u32 (n : Nat) : Nat := n % 2 ^ 32
abbrev u64 (n : Nat) : Nat := n % 2 ^ 64

theorem u32_exact {n : Nat} (h : n < 2 ^ 32) : u32 n = n := Nat.mod_eq_of_lt h

/-- One entry of the parallel arrays `sections` and `sections_size`. -/
structure Section where
  start : UInt32
  size : UInt32
  deriving DecidableEq

def holeMark : UInt32 := 0xFFFFFFFF

def Section.IsHole (s : Section) : Prop := s.start = holeMark

instance (s : Section) : Decidable s.IsHole := inferInstanceAs (Decidable (_ = _))

/-- Bytes of a section as 64-bit code computes them; no wrap is possible. -/
def Section.bytes (s : Section) : Nat := s.size.toNat * 512

theorem Section.bytes_lt (s : Section) : s.bytes < 2 ^ 41 := by
  have := s.size.toNat_lt
  simp only [Section.bytes]
  omega

/-- The extent ends at or below the last sector a 32-bit number can name. -/
def Section.Fits (s : Section) : Prop := s.start.toNat + s.size.toNat ≤ 2 ^ 32

instance (s : Section) : Decidable s.Fits := inferInstanceAs (Decidable (_ ≤ _))

/-- Return value and `*nread` of one call. A call that fails, or transfers
fewer sectors than asked, leaves `leaves` in its buffer. -/
structure StorageReply where
  ret : Int
  nread : Nat
  leaves : Nat → UInt8

structure Storage where
  /-- sector, then byte in the sector -/
  data : Nat → Nat → UInt8
  /-- number of the call, start sector, sector count -/
  reply : Nat → Nat → Nat → StorageReply

/-- The test every caller makes: `ret != 0 || r != n` is an error. -/
def StorageReply.full (r : StorageReply) (n : Nat) : Bool := r.ret == 0 && r.nread == n

/-- Bytes of the device from a start sector on. -/
def Storage.from (d : Storage) (sector k : Nat) : UInt8 := d.data (sector + k / 512) (k % 512)

/-- Byte `k` of the extent a section stands for. -/
def extentByte (d : Storage) (s : Section) (k : Nat) : UInt8 :=
  if s.IsHole then 0 else d.from s.start.toNat k

def extents (d : Storage) (tab : List Section) : List (Segment UInt8) :=
  tab.map (fun s => ⟨s.bytes, extentByte d s⟩)

/-- The disc image a section table describes. -/
def image (d : Storage) (tab : List Section) : Nat → UInt8 := concat 0 (extents d tab)

def imageSize (tab : List Section) : Nat := (tab.map Section.bytes).sum

/-- No section that holds one of the first `n` bytes of the image passes byte
2^64: the whole image is smaller, or `n` is a largest section below it. -/
def NoWrap (tab : List Section) (n : Nat) : Prop := imageSize tab < 2 ^ 64 ∨ n + 2 ^ 41 ≤ 2 ^ 64

instance (tab : List Section) (n : Nat) : Decidable (NoWrap tab n) :=
  inferInstanceAs (Decidable (_ ∨ _))

theorem NoWrap.mono {tab : List Section} {n k : Nat} (h : NoWrap tab n) (le : k ≤ n) :
    NoWrap tab k :=
  h.imp_right (fun _ => by omega)

/-- Result of `get_next_read`: `found` is the index with the section it selects,
`none` for the index -1. -/
structure NextRead where
  found : Option (Nat × Section)
  offset : Nat
  readsize : Nat

/-- The scan of `get_next_read` from section `i`, whose first byte is `base`. -/
def nextReadFrom (discoffset bufsize : Nat) : Nat → Nat → List Section → NextRead
  | _, _, [] => ⟨none, 0, bufsize⟩
  | i, base, s :: rest =>
    let last := u64 (base + s.bytes)
    if base ≤ discoffset ∧ discoffset < last then
      let maxfileread := last - discoffset
      ⟨some (i, s), discoffset - base, if bufsize > maxfileread then maxfileread else bufsize⟩
    else nextReadFrom discoffset bufsize (i + 1) last rest

def getNextRead (tab : List Section) (discoffset bufsize : Nat) : NextRead :=
  nextReadFrom discoffset bufsize 0 0 tab

@[simp] theorem imageSize_nil : imageSize [] = 0 := rfl

@[simp] theorem imageSize_cons (s : Section) (rest : List Section) :
    imageSize (s :: rest) = s.bytes + imageSize rest := rfl

@[simp] theorem imageSize_append (xs ys : List Section) :
    imageSize (xs ++ ys) = imageSize xs + imageSize ys := by
  simp [imageSize]

@[simp] theorem imageSize_replicate (n : Nat) (s : Section) :
    imageSize (List.replicate n s) = n * s.bytes := by
  simp [imageSize]

@[simp] theorem total_extents (d : Storage) (tab : List Section) :
    total (extents d tab) = imageSize tab := by
  induction tab with
  | nil => rfl
  | cons s rest ih =>
    rw [imageSize_cons, ← ih]
    rfl

theorem image_past_end (d : Storage) {tab : List Section} {k : Nat} (h : imageSize tab ≤ k) :
    image d tab k = 0 :=
  concat_past_end 0 (by rwa [total_extents])

/-- Inside section `s` the image is the section's extent. -/
theorem image_in_section (d : Storage) (before rest : List Section) (s : Section) {k : Nat}
    (h : k < s.bytes) :
    image d (before ++ s :: rest) (imageSize before + k) = extentByte d s k := by
  have split : extents d (before ++ s :: rest) = extents d before ++ extents d (s :: rest) := by
    simp [extents]
  unfold image
  rw [split, ← total_extents d before, concat_append_right]
  exact concat_head 0 h _

/-- Either some section holds the offset or the table ends before it. -/
theorem section_at (tab : List Section) (base off : Nat) (low : base ≤ off) :
    (∃ pre s rest, tab = pre ++ s :: rest ∧ base + imageSize pre ≤ off ∧
      off < base + imageSize pre + s.bytes) ∨ base + imageSize tab ≤ off := by
  induction tab generalizing base with
  | nil => exact Or.inr low
  | cons s rest ih =>
    by_cases inside : off < base + s.bytes
    · exact Or.inl ⟨[], s, rest, rfl, low, inside⟩
    · rcases ih (base + s.bytes) (by omega) with ⟨pre, t, post, htab, h1, h2⟩ | past
      · refine Or.inl ⟨s :: pre, t, post, by rw [htab]; rfl, ?_, ?_⟩ <;>
          rw [imageSize_cons] <;> omega
      · refine Or.inr ?_
        rw [imageSize_cons]
        omega

/-- The scan passes over sections that end at or below the offset. -/
theorem nextReadFrom_skip (discoffset bufsize : Nat) (pre rest : List Section) (i base : Nat)
    (passed : base + imageSize pre ≤ discoffset) (small : discoffset < 2 ^ 64) :
    nextReadFrom discoffset bufsize i base (pre ++ rest) =
      nextReadFrom discoffset bufsize (i + pre.length) (base + imageSize pre) rest := by
  induction pre generalizing i base with
  | nil => rfl
  | cons s pre ih =>
    rw [imageSize_cons] at passed ⊢
    have hlast : u64 (base + s.bytes) = base + s.bytes := Nat.mod_eq_of_lt (by omega)
    have after : ¬ (base ≤ discoffset ∧ discoffset < base + s.bytes) := by omega
    rw [List.cons_append, nextReadFrom]
    simp only [hlast, if_neg after]
    rw [ih (i + 1) (base + s.bytes) (by omega), List.length_cons]
    congr 1 <;> omega

/-- `get_next_read` where nothing wraps: the bytes up to `readsize` are
consecutive bytes of the section it names. -/
theorem getNextRead_spec (d : Storage) {tab : List Section} {discoffset : Nat} (bufsize : Nat)
    (small : NoWrap tab (discoffset + 1)) (wide : discoffset < 2 ^ 64) :
    (∃ i s pos readsize, getNextRead tab discoffset bufsize = ⟨some (i, s), pos, readsize⟩ ∧
      tab[i]? = some s ∧ readsize ≤ bufsize ∧ (0 < bufsize → 0 < readsize) ∧
      pos + readsize ≤ s.bytes ∧
      ∀ k, k < readsize → image d tab (discoffset + k) = extentByte d s (pos + k)) ∨
    (getNextRead tab discoffset bufsize = ⟨none, 0, bufsize⟩ ∧
      ∀ k, image d tab (discoffset + k) = 0) := by
  unfold getNextRead
  rcases section_at tab 0 discoffset (Nat.zero_le _) with ⟨pre, s, rest, htab, low, high⟩ | past
  · rw [Nat.zero_add] at low high
    have hsize : imageSize tab = imageSize pre + (s.bytes + imageSize rest) := by
      rw [htab, imageSize_append, imageSize_cons]
    have hlast : u64 (imageSize pre + s.bytes) = imageSize pre + s.bytes := by
      have := s.bytes_lt
      exact Nat.mod_eq_of_lt (by rcases small with small | small <;> omega)
    refine Or.inl ⟨pre.length, s, discoffset - imageSize pre,
      min bufsize (imageSize pre + s.bytes - discoffset), ?_, by simp [htab], by omega,
      by omega, by omega, ?_⟩
    · rw [htab, nextReadFrom_skip _ _ pre _ 0 0 (by omega) (by omega), Nat.zero_add,
        Nat.zero_add, nextReadFrom]
      simp only [hlast, low, high, and_self, if_true, NextRead.mk.injEq, true_and]
      split <;> omega
    · intro k hk
      have split : discoffset + k = imageSize pre + (discoffset - imageSize pre + k) := by omega
      rw [htab, split]
      exact image_in_section d pre rest s (by omega)
  · rw [Nat.zero_add] at past
    refine Or.inr ⟨?_, fun k => image_past_end d (by omega)⟩
    have all := nextReadFrom_skip discoffset bufsize tab [] 0 0 (by omega) wide
    rw [List.append_nil] at all
    rw [all, nextReadFrom]

end SectionTables
