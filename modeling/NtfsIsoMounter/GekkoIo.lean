import NtfsIsoMounter.SectorCache
import NtfsIsoMounter.CellBlocks

/-!
# The device under an NTFS volume

`gekko_io.c` reads and writes bytes of a partition by whole sectors, through the cache or without
one. `device.c` goes on until all bytes are read or written and keeps the marks of the device.
Offsets are divided by the sector size in floating point; a sector size is a power of two, so that
the quotients are the exact ones. Memory that is allocated is there and holds what it held.
-/

namespace GekkoIo

open ByteMaps CellBlocks SectionTables SectorCache

inductive Errno where
  | einval
  | eio
  | erofs
  | enospc
  | erange
  | enoent
  | eexist
  deriving DecidableEq, Repr

abbrev Sector (m : Nat) := Fin m → UInt8

/-- The cache of a device, or its disc where `_NTFS_cache_constructor` gave none. -/
inductive Store (m pages : Nat) where
  | cached (cache : Cache (Sector m) pages)
  | direct (disc : Disc (Sector m))

/-- An `ntfs_device` with its `gekko_fd`; the sectors have `m` bytes. -/
structure NtfsDevice (m pages : Nat) where
  readOnly : Bool
  dirty : Bool
  sync : Bool
  startSector : Nat
  store : Store m pages

variable {m pages : Nat} [NeZero pages]

/-- The device after `ntfs_device_gekko_io_open` of a partition that may be written. -/
def openDevice (cachePageCount cachePageSize startSector sectorCount : Nat)
    (buffers : Nat → Nat → Sector m) (accessCounter : Nat) (disc : Disc (Sector m)) :
    NtfsDevice m (max cachePageCount 4) where
  readOnly := false
  dirty := false
  sync := false
  startSector := startSector
  store :=
    match constructor cachePageCount cachePageSize startSector (u32 (startSector + sectorCount))
        buffers accessCounter disc with
    | some cache => .cached cache
    | none => .direct disc

/-- `ntfs_device_gekko_io_readsectors` -/
def readsectors (io : DiscInterface (Sector m)) (dev : NtfsDevice m pages)
    (sector numSectors : Nat) (buffer : Nat → Sector m) :
    Option (Bool × (Nat → Sector m) × NtfsDevice m pages) :=
  match dev.store with
  | .cached cache =>
    (SectorCache.readSectors io cache sector numSectors buffer).map fun r =>
      (r.1, r.2.1, { dev with store := .cached r.2.2 })
  | .direct disc =>
    let r := disc.read io sector numSectors buffer
    some (r.1, r.2.1, { dev with store := .direct r.2.2 })

/-- `ntfs_device_gekko_io_writesectors` -/
def writesectors (io : DiscInterface (Sector m)) (dev : NtfsDevice m pages)
    (sector numSectors : Nat) (buffer : Nat → Sector m) : Option (Bool × NtfsDevice m pages) :=
  match dev.store with
  | .cached cache =>
    (SectorCache.writeSectors io cache sector numSectors buffer).map fun r =>
      (r.1, { dev with store := .cached r.2 })
  | .direct disc =>
    let r := disc.write io sector numSectors buffer
    some (r.1, { dev with store := .direct r.2 })

/-- `sec_start` -/
def secStart (dev : NtfsDevice m pages) (offset : Nat) : Nat :=
  u32 (dev.startSector + u32 (offset / m))

/-- `sec_count` of some bytes from an offset in a sector on. -/
def secCount (m bufferOffset count : Nat) : Nat :=
  if bufferOffset + count > m then u32 ((bufferOffset + count + (m - 1)) / m) else 1

section Bytes
variable [NeZero m]

/-- `ntfs_device_gekko_io_readbytes`; `memory` is what the allocated buffer holds. -/
def readbytes (io : DiscInterface (Sector m)) (memory : Nat → UInt8) (dev : NtfsDevice m pages)
    (offset : Int) (count : Nat) (buf : Nat → UInt8) :
    Option (Except Errno Nat × (Nat → UInt8) × NtfsDevice m pages) :=
  if offset < 0 then some (.error .erofs, buf, dev)
  else if count = 0 then some (.ok 0, buf, dev)
  else
    let offset := offset.toNat
    let bufferOffset := offset % m
    let secs := secCount m bufferOffset count
    if bufferOffset = 0 ∧ count % m = 0 then
      (readsectors io dev (secStart dev offset) secs (blocks buf)).map fun r =>
        (if r.1 then .ok count else .error .eio, cells r.2.1, r.2.2)
    else
      (readsectors io dev (secStart dev offset) secs (blocks memory)).map fun r =>
        if r.1 then
          (.ok count, fill buf 0 count (fun i => cells r.2.1 (bufferOffset + i)), r.2.2)
        else (.error .eio, buf, r.2.2)

/-- Reads a sector that is written in part into its place in the buffer. -/
def readEdge (io : DiscInterface (Sector m)) (dev : NtfsDevice m pages) (sector place : Nat)
    (buffer : Nat → UInt8) : Option (Bool × (Nat → UInt8) × NtfsDevice m pages) :=
  (readsectors io dev sector 1 (blocks fun i => buffer (place * m + i))).map fun r =>
    (r.1, fill buffer (place * m) m (cells r.2.1), r.2.2)

/-- `ntfs_device_gekko_io_writebytes` from where the buffer is laid out. -/
def writeBuffered (io : DiscInterface (Sector m)) (memory : Nat → UInt8)
    (dev : NtfsDevice m pages) (start bufferOffset secs count : Nat) (buf : Nat → UInt8) :
    Option (Bool × NtfsDevice m pages) :=
  (if bufferOffset ≠ 0 then readEdge io dev start 0 memory else some (true, memory, dev)).bind
    fun first =>
      if first.1 = false then some (false, first.2.2)
      else
        (if (bufferOffset + count) % m ≠ 0 then
          readEdge io first.2.2 (u32 (start + (secs - 1))) (secs - 1) first.2.1
        else some (true, first.2.1, first.2.2)).bind fun last =>
          if last.1 = false then some (false, last.2.2)
          else writesectors io last.2.2 start secs
            (blocks (fill last.2.1 bufferOffset count buf))

/-- `ntfs_device_gekko_io_writebytes` -/
def writebytes (io : DiscInterface (Sector m)) (memory : Nat → UInt8) (dev : NtfsDevice m pages)
    (offset count : Int) (buf : Nat → UInt8) :
    Option (Except Errno Nat × NtfsDevice m pages) :=
  if dev.readOnly then some (.error .erofs, dev)
  else if count < 0 ∨ offset < 0 then some (.error .erofs, dev)
  else if count = 0 then some (.ok 0, dev)
  else
    let offset := offset.toNat
    let count := count.toNat
    let bufferOffset := offset % m
    let secs := secCount m bufferOffset count
    (if bufferOffset = 0 ∧ count % m = 0 then
      writesectors io dev (secStart dev offset) secs (blocks buf)
    else writeBuffered io memory dev (secStart dev offset) bufferOffset secs count buf).map fun r =>
      if r.1 then (.ok count, { r.2 with dirty := true }) else (.error .eio, r.2)

end Bytes

/-- `ntfs_device_gekko_io_sync` -/
def sync (io : DiscInterface (Sector m)) (dev : NtfsDevice m pages) :
    Except Errno Unit × NtfsDevice m pages :=
  if dev.readOnly then (.error .erofs, dev)
  else
    let dev := { dev with dirty := false, sync := false }
    match dev.store with
    | .cached cache =>
      let r := flush io cache
      (if r.1 then .ok () else .error .eio, { dev with store := .cached r.2 })
    | .direct _ => (.ok (), dev)

/-- `ntfs_device_sync` -/
def ntfsDeviceSync (io : DiscInterface (Sector m)) (dev : NtfsDevice m pages) :
    Except Errno Unit × NtfsDevice m pages :=
  if dev.dirty then sync io dev else (.ok (), dev)

/-- `ntfs_device_gekko_io_close`: the disc that is left; `_NTFS_cache_destructor` flushes once
more. -/
def close (io : DiscInterface (Sector m)) (dev : NtfsDevice m pages) : Disc (Sector m) :=
  match dev.store with
  | .cached cache => (flush io (flush io cache).2).2.disc
  | .direct disc => disc

/-! ## `device.c` -/

/-- The loop of `ntfs_pread`. -/
def preadLoop [NeZero m] (io : DiscInterface (Sector m)) (memory : Nat → UInt8) (pos : Nat) :
    Nat → NtfsDevice m pages → Nat → Nat → (Nat → UInt8) →
      Option (Except Errno Nat × (Nat → UInt8) × NtfsDevice m pages)
  | 0, _, _, _, _ => none
  | turns + 1, dev, total, count, b =>
    if count = 0 then some (.ok total, b, dev)
    else
      (readbytes io memory dev (pos + total : Nat) count fun i => b (total + i)).bind fun r =>
        let b := fill b total count r.2.1
        match r.1 with
        | .ok br =>
          if br > 0 then preadLoop io memory pos turns r.2.2 (total + br) (count - br) b
          else some (.ok total, b, r.2.2)
        | .error e => some (if total ≠ 0 then .ok total else .error e, b, r.2.2)

/-- `ntfs_pread` -/
def ntfsPread [NeZero m] (io : DiscInterface (Sector m)) (memory : Nat → UInt8)
    (dev : NtfsDevice m pages) (pos count : Int) (b : Nat → UInt8) :
    Option (Except Errno Nat × (Nat → UInt8) × NtfsDevice m pages) :=
  if count < 0 ∨ pos < 0 then some (.error .einval, b, dev)
  else preadLoop io memory pos.toNat (count.toNat + 1) dev 0 count.toNat b

/-- The loop of `ntfs_pwrite`; the total and, where it is negative, the error. -/
def pwriteLoop [NeZero m] (io : DiscInterface (Sector m)) (memory : Nat → UInt8) (pos : Nat)
    (b : Nat → UInt8) : Nat → NtfsDevice m pages → Nat → Nat →
      Option (Except Errno Nat × NtfsDevice m pages)
  | 0, _, _, _ => none
  | turns + 1, dev, total, count =>
    if count = 0 then some (.ok total, dev)
    else
      (writebytes io memory dev (pos + total : Nat) count fun i => b (total + i)).bind fun r =>
        match r.1 with
        | .ok written =>
          if written > 0 then
            pwriteLoop io memory pos b turns r.2 (total + written) (count - written)
          else some (.ok total, r.2)
        | .error e => some (if total ≠ 0 then .ok total else .error e, r.2)

/-- What is returned, and the error where it is negative. -/
def returned : Except Errno Nat → Int × Option Errno
  | .ok total => (total, none)
  | .error e => (-1, some e)

/-- `ntfs_pwrite` -/
def ntfsPwrite [NeZero m] (io : DiscInterface (Sector m)) (memory : Nat → UInt8)
    (dev : NtfsDevice m pages) (pos count : Int) (b : Nat → UInt8) :
    Option ((Int × Option Errno) × NtfsDevice m pages) :=
  if count < 0 ∨ pos < 0 then some ((-1, some .einval), dev)
  else if count = 0 then some ((0, none), dev)
  else if dev.readOnly then some ((-1, some .erofs), dev)
  else
    (pwriteLoop io memory pos.toNat b (count.toNat + 1) { dev with dirty := true } 0
      count.toNat).map fun r =>
        let (total, errno) := returned r.1
        if r.2.sync ∧ total ≠ 0 then
          match sync io r.2 with
          | (.ok (), dev) => ((total, errno), dev)
          | (.error e, dev) => ((total - 1, some e), dev)
        else ((total, errno), r.2)

end GekkoIo
