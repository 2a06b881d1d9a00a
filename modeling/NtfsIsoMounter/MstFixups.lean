import NtfsIsoMounter.GekkoIo

/-!
# Records that are protected against torn writes

A record goes to the disc with the same number in the last word of each of its blocks; the words
that were there wait in an array in the record. `mst.c` puts the number in, takes it out, and finds
out from it whether the blocks of a record were written together. A record is a memory of words from
its start on.
-/

namespace MstFixups

open CellBlocks GekkoIo

/-- Two bytes of a record. -/
abbrev Word := Fin 2 → UInt8

/-- `le16_to_cpu` -/
def le16 (w : Word) : Nat := (w 0).toNat + 256 * (w 1).toNat

/-- `cpu_to_le16` -/
def cpuToLe16 (n : Nat) : Word
  | 0 => UInt8.ofNat n
  | 1 => UInt8.ofNat (n / 256)

/-- The first two words of a record. -/
structure Magic where
  low : Word
  high : Word

def magicHole : Magic := ⟨cpuToLe16 0x4f48, cpuToLe16 0x454c⟩

def magicBaad : Magic := ⟨cpuToLe16 0x4142, cpuToLe16 0x4441⟩

def hasMagic (b : Nat → Word) (x : Magic) : Bool := decide (b 0 = x.low) && decide (b 1 = x.high)

def setMagic (b : Nat → Word) (x : Magic) : Nat → Word :=
  Function.update (Function.update b 0 x.low) 1 x.high

/-- `usa_ofs` -/
def usaOfs (b : Nat → Word) : Nat := le16 (b 2)

/-- `usa_count`, less the update sequence number itself. -/
def usaCount (b : Nat → Word) : Nat := (le16 (b 3) + (2 ^ 16 - 1)) % 2 ^ 16

/-- Where the update sequence number is. -/
def usaPos (b : Nat → Word) : Nat := usaOfs b / 2

/-- The last word of a block of 512 bytes. -/
def dataPos (j : Nat) : Nat := 256 * j + 255

/-- The size and alignment checks. -/
def checked (b : Nat → Word) (size : Nat) : Bool :=
  decide (size % 512 = 0) && decide (usaOfs b % 2 = 0) &&
    decide (usaOfs b + usaCount b * 2 ≤ size) && decide (size / 512 = usaCount b)

/-- The last words of some blocks are all the number. -/
def intact (b : Nat → Word) (usn : Word) : Nat → Nat → Bool
  | 0, _ => true
  | n + 1, j => decide (b (dataPos j) = usn) && intact b usn n (j + 1)

/-- Takes the last words of some blocks back from the array. -/
def restore (pos : Nat) : Nat → Nat → (Nat → Word) → Nat → Word
  | 0, _, b => b
  | n + 1, j, b => restore pos n (j + 1) (Function.update b (dataPos j) (b (pos + 1 + j)))

/-- Puts the last words of some blocks into the array and the number in their places. -/
def protect (pos : Nat) (usn : Word) : Nat → Nat → (Nat → Word) → Nat → Word
  | 0, _, b => b
  | n + 1, j, b =>
    let saved := Function.update b (pos + 1 + j) (b (dataPos j))
    protect pos usn n (j + 1) (Function.update saved (dataPos j) usn)

/-- `ntfs_mst_post_read_fixup_warn` -/
def postReadFixup (b : Nat → Word) (size : Nat) : Except Errno Unit × (Nat → Word) :=
  if checked b size = false then (.error .einval, b)
  else if intact b (b (usaPos b)) (usaCount b) 0 then
    (.ok (), restore (usaPos b) (usaCount b) 0 b)
  else (.error .eio, setMagic b magicBaad)

/-- The next update sequence number. -/
def nextUsn (usn : Word) : Word :=
  let n := (le16 usn + 1) % 2 ^ 16
  cpuToLe16 (if n = 0xffff ∨ n = 0 then 1 else n)

/-- `ntfs_mst_pre_write_fixup` -/
def preWriteFixup (b : Nat → Word) (size : Nat) : Except Errno Unit × (Nat → Word) :=
  if hasMagic b magicBaad || hasMagic b magicHole then (.error .einval, b)
  else if checked b size = false then (.error .einval, b)
  else
    let usn := nextUsn (b (usaPos b))
    (.ok (), protect (usaPos b) usn (usaCount b) 0 (Function.update b (usaPos b) usn))

/-- `ntfs_mst_post_write_fixup` -/
def postWriteFixup (b : Nat → Word) : Nat → Word := restore (usaPos b) (usaCount b) 0 b

/-! ## Transfers of several records -/

/-- The record at an address. -/
def recordAt (b : Nat → UInt8) (base : Nat) : Nat → Word := blocks fun a => b (base + a)

/-- A record that has been changed in its place. -/
def putRecord (b : Nat → UInt8) (base : Nat) (w : Nat → Word) : Nat → UInt8 := fun a =>
  if a < base then b a else cells w (a - base)

/-- A loop over the records of a buffer. -/
def overRecords (f : (Nat → Word) → Nat → Word) (bksize : Nat) :
    Nat → Nat → (Nat → UInt8) → Nat → UInt8
  | 0, _, b => b
  | n + 1, i, b =>
    overRecords f bksize n (i + 1) (putRecord b (i * bksize) (f (recordAt b (i * bksize))))

/-- The loop that prepares the records; it ends at one that may not be written. -/
def prepare (bksize : Nat) : Nat → Nat → (Nat → UInt8) → Nat × (Nat → UInt8)
  | 0, i, b => (i, b)
  | n + 1, i, b =>
    match preWriteFixup (recordAt b (i * bksize)) bksize with
    | (.ok (), w) => prepare bksize n (i + 1) (putRecord b (i * bksize) w)
    | (.error _, _) => (i, b)

variable {m pages : Nat} [NeZero m] [NeZero pages]

/-- `ntfs_mst_pread`; a block has bytes. -/
def ntfsMstPread (io : SectorCache.DiscInterface (Sector m)) (memory : Nat → UInt8)
    (dev : NtfsDevice m pages) (pos count : Int) (bksize : Nat) (b : Nat → UInt8) :
    Option (Except Errno Nat × (Nat → UInt8) × NtfsDevice m pages) :=
  if bksize &&& (bksize - 1) ≠ 0 ∨ bksize % 512 ≠ 0 then some (.error .einval, b, dev)
  else
    (ntfsPread io memory dev pos (count * bksize) b).map fun r =>
      match r.1 with
      | .error e => (.error e, r.2)
      | .ok br =>
        let count := br / bksize
        (.ok count,
          overRecords (fun w => (postReadFixup w bksize).2) bksize count 0 r.2.1, r.2.2)

/-- `ntfs_mst_pwrite` -/
def ntfsMstPwrite (io : SectorCache.DiscInterface (Sector m)) (memory : Nat → UInt8)
    (dev : NtfsDevice m pages) (pos count : Int) (bksize : Nat) (b : Nat → UInt8) :
    Option ((Int × Option Errno) × (Nat → UInt8) × NtfsDevice m pages) :=
  if count < 0 ∨ bksize % 512 ≠ 0 then some ((-1, some .einval), b, dev)
  else if count = 0 then some ((0, none), b, dev)
  else
    let r := prepare bksize count.toNat 0 b
    if r.1 = 0 then some ((-1, some .einval), b, dev)
    else
      (ntfsPwrite io memory dev pos (r.1 * bksize : Nat) r.2).map fun w =>
        let b := overRecords postWriteFixup bksize r.1 0 r.2
        if w.1.1 ≤ 0 then (w.1, b, w.2) else ((w.1.1 / bksize, w.1.2), b, w.2)

end MstFixups
