import NtfsIsoMounter.SectionTables
import NtfsIsoMounter.PageOverlays

/-!
# The sector cache of the NTFS library

`cache2.c` keeps pages of consecutive sectors between the library and a disc. A read brings in the
pages it needs. A write changes the pages that are there and goes to the disc for the other sectors.
A changed page is written back when it is replaced or when the cache is flushed. A sector is any
value here: the cache copies sectors as wholes. Sector numbers are 32 bits wide.
-/

namespace SectorCache

open ByteMaps SectionTables

universe u

/-- The difference of two 32-bit numbers. -/
def sub32 (a b : Nat) : Nat := u32 (a + (2 ^ 32 - b))

theorem sub32_exact {a b : Nat} (le : b ≤ a) (small : a < 2 ^ 32) : sub32 a b = a - b := by
  have whole : a + (2 ^ 32 - b) = a - b + 2 ^ 32 := by omega
  rw [sub32, u32, whole, Nat.add_mod_right]
  exact Nat.mod_eq_of_lt (by omega)

/-! ## The disc -/

/-- What a call of the disc comes to; one that fails may have moved sectors before it does. -/
inductive Outcome (σ : Type u) where
  | done
  | failed (moved : Option (Nat → σ))

/-- `DISC_INTERFACE`: what each call comes to, by its number. -/
structure DiscInterface (σ : Type u) where
  readSectors : Nat → Outcome σ
  writeSectors : Nat → Outcome σ

structure Disc (σ : Type u) where
  sectors : Nat → σ
  calls : Nat

variable {σ : Type u}

/-- The answer, the buffer and the disc after a call of `readSectors`. -/
def Disc.read (io : DiscInterface σ) (d : Disc σ) (sector numSectors : Nat) (buffer : Nat → σ) :
    Bool × (Nat → σ) × Disc σ :=
  let d' := { d with calls := d.calls + 1 }
  match io.readSectors d.calls with
  | .done => (true, fill buffer 0 numSectors (fun k => d.sectors (sector + k)), d')
  | .failed none => (false, buffer, d')
  | .failed (some moved) => (false, fill buffer 0 numSectors moved, d')

def Disc.write (io : DiscInterface σ) (d : Disc σ) (sector numSectors : Nat) (buffer : Nat → σ) :
    Bool × Disc σ :=
  let d' := { d with calls := d.calls + 1 }
  match io.writeSectors d.calls with
  | .done => (true, { d' with sectors := fill d.sectors sector numSectors buffer })
  | .failed none => (false, d')
  | .failed (some moved) => (false, { d' with sectors := fill d.sectors sector numSectors moved })

/-! ## The cache -/

/-- `NTFS_CACHE_ENTRY` -/
structure Entry (σ : Type u) where
  sector : Nat
  count : Nat
  lastAccess : Nat
  dirty : Bool
  cache : Nat → σ

/-- `CACHE_FREE` -/
def cacheFree : Nat := 0xFFFFFFFF

def Entry.holds (e : Entry σ) (sector : Nat) : Bool :=
  decide (e.sector ≤ sector) && decide (sector < u32 (e.sector + e.count))

/-- The sector that a page holds under a number. -/
def Entry.cell (e : Entry σ) (sector : Nat) : σ := e.cache (sector - e.sector)

/-- `NTFS_CACHE`, the counter of `accessTime` and the disc. -/
structure Cache (σ : Type u) (n : Nat) where
  startOfPartition : Nat
  endOfPartition : Nat
  sectorsPerPage : Nat
  entries : Fin n → Entry σ
  accessCounter : Nat
  disc : Disc σ

variable {n : Nat}

def Cache.put (c : Cache σ n) (k : Fin n) (e : Entry σ) : Cache σ n :=
  { c with entries := Function.update c.entries k e }

/-- `entry->last_access = accessTime()` -/
def Cache.access (c : Cache σ n) (k : Fin n) : Cache σ n :=
  { c.put k { c.entries k with lastAccess := u32 (c.accessCounter + 1) } with
    accessCounter := u32 (c.accessCounter + 1) }

/-- `_NTFS_cache_constructor`; a page's buffer is as it was allocated. -/
def constructor (numberOfPages sectorsPerPage startOfPartition endOfPartition : Nat)
    (buffers : Nat → Nat → σ) (accessCounter : Nat) (disc : Disc σ) :
    Option (Cache σ (max numberOfPages 4)) :=
  if numberOfPages = 0 ∨ sectorsPerPage = 0 then none
  else some {
    startOfPartition := startOfPartition
    endOfPartition := endOfPartition
    sectorsPerPage := max sectorsPerPage 32
    entries := fun k => ⟨cacheFree, 0, 0, false, buffers k⟩
    accessCounter := accessCounter
    disc := disc }

/-- The loop of `_NTFS_cache_getPage`: the page that has the sector, or the one to replace and
whether that is a free one. -/
def scan (entries : Fin n → Entry σ) (sector : Nat) :
    List (Fin n) → Bool → Fin n → Nat → Fin n ⊕ (Bool × Fin n)
  | [], foundFree, oldUsed, _ => .inr (foundFree, oldUsed)
  | k :: ks, foundFree, oldUsed, oldAccess =>
    if (entries k).holds sector then .inl k
    else if foundFree = false ∧
        ((entries k).sector = cacheFree ∨ (entries k).lastAccess < oldAccess) then
      scan entries sector ks (decide ((entries k).sector = cacheFree)) k (entries k).lastAccess
    else scan entries sector ks foundFree oldUsed oldAccess

/-- Sends a page to the disc. -/
def Cache.writeBack (io : DiscInterface σ) (c : Cache σ n) (k : Fin n) : Bool × Cache σ n :=
  let e := c.entries k
  let salign := if e.sector < c.startOfPartition then c.startOfPartition - e.sector else 0
  let r := c.disc.write io (e.sector + salign) (e.count - salign) (fun i => e.cache (salign + i))
  if r.1 then (true, { c.put k { e with dirty := false } with disc := r.2 })
  else (false, { c with disc := r.2 })

/-- The first sector of the page that a sector belongs to. -/
def Cache.base (c : Cache σ n) (sector : Nat) : Nat :=
  c.startOfPartition + (sector - c.startOfPartition) / c.sectorsPerPage * c.sectorsPerPage

/-- `next_page - sector` -/
def Cache.pageCount (c : Cache σ n) (base : Nat) : Nat :=
  let nextPage := u32 (base + c.sectorsPerPage)
  sub32 (if nextPage > c.endOfPartition then c.endOfPartition else nextPage) base

/-- Reads the page of a sector into an entry. -/
def Cache.load (io : DiscInterface σ) (c : Cache σ n) (k : Fin n) (sector : Nat) :
    Option (Fin n) × Cache σ n :=
  let e := c.entries k
  let base := c.base sector
  let r := c.disc.read io base (c.pageCount base) e.cache
  if r.1 then
    let page := ⟨base, c.pageCount base, e.lastAccess, false, r.2.1⟩
    (some k, { c.put k page with disc := r.2.2 }.access k)
  else (none, { c.put k { e with cache := r.2.1 } with disc := r.2.2 })

/-- `_NTFS_cache_getPage` -/
def getPage [NeZero n] (io : DiscInterface σ) (c : Cache σ n) (sector : Nat) :
    Option (Fin n) × Cache σ n :=
  if sector < c.startOfPartition then (none, c)
  else
    match scan c.entries sector (List.finRange n) false 0 0xFFFFFFFF with
    | .inl k => (some k, c.access k)
    | .inr (foundFree, k) =>
      if foundFree = false ∧ (c.entries k).dirty then
        let r := c.writeBack io k
        if r.1 then r.2.load io k sector else (none, r.2)
      else c.load io k sector

/-- `_NTFS_cache_findPage` -/
def findPage (c : Cache σ n) (sector : Nat) : Option (Fin n) :=
  (List.finRange n).find? fun k =>
    decide ((c.entries k).sector ≠ cacheFree) && (c.entries k).holds sector

/-! ## Requests -/

/-- The loop of `_NTFS_cache_readSectors`, as long as it has turns left; `pos` is how far `dest` has
moved. -/
def readLoop [NeZero n] (io : DiscInterface σ) :
    Nat → Cache σ n → Nat → Nat → Nat → (Nat → σ) → Option (Bool × (Nat → σ) × Cache σ n)
  | 0, _, _, _, _, _ => none
  | turns + 1, c, sector, numSectors, pos, dest =>
    if numSectors = 0 then some (true, dest, c)
    else
      match getPage io c sector with
      | (none, c) => some (false, dest, c)
      | (some k, c) =>
        let e := c.entries k
        let sec := sector - e.sector
        let secsToRead := min (sub32 e.count sec) numSectors
        readLoop io turns c (u32 (sector + secsToRead)) (numSectors - secsToRead) (pos + secsToRead)
          (fill dest pos secsToRead fun i => e.cache (sec + i))

/-- `_NTFS_cache_readSectors` -/
def readSectors [NeZero n] (io : DiscInterface σ) (c : Cache σ n) (sector numSectors : Nat)
    (buffer : Nat → σ) : Option (Bool × (Nat → σ) × Cache σ n) :=
  if sector < c.startOfPartition then some (false, buffer, c)
  else readLoop io (numSectors + 1) c sector numSectors 0 buffer

/-- The loop that looks for the next page there is behind a sector, from page to page. -/
def reach (c : Cache σ n) (sector numSectors : Nat) : Nat → Nat → Nat → Option Nat
  | 0, _, _ => none
  | turns + 1, secsToWrite, sec =>
    if (findPage c (u32 (sector + secsToWrite))).isSome then some (secsToWrite - sec)
    else if secsToWrite > numSectors then some secsToWrite
    else reach c sector numSectors turns (secsToWrite + c.sectorsPerPage) c.sectorsPerPage

/-- How many sectors from one that is in no page go to the disc at once. -/
def directCount (c : Cache σ n) (sector numSectors : Nat) : Option Nat :=
  let first := c.sectorsPerPage - (sector - c.startOfPartition) % c.sectorsPerPage
  (if first < numSectors then reach c sector numSectors (numSectors + 1) first 0
    else some first).map fun secsToWrite =>
      let secsToWrite := min secsToWrite numSectors
      if u32 (sector + secsToWrite) > c.endOfPartition then
        sub32 secsToWrite (u32 (sector + secsToWrite) - c.endOfPartition)
      else secsToWrite

/-- The loop of `_NTFS_cache_writeSectors`; `src` is moved on by what is written. -/
def writeLoop (io : DiscInterface σ) :
    Nat → Cache σ n → Nat → Nat → (Nat → σ) → Option (Bool × Cache σ n)
  | 0, _, _, _, _ => none
  | turns + 1, c, sector, numSectors, src =>
    if numSectors = 0 then some (true, c)
    else
      match findPage c sector with
      | some k =>
        let c := c.access k
        let e := c.entries k
        let sec := sector - e.sector
        let secsToWrite := min (sub32 e.count sec) numSectors
        let e := { e with cache := fill e.cache sec secsToWrite src, dirty := true }
        writeLoop io turns (c.put k e) (u32 (sector + secsToWrite)) (numSectors - secsToWrite)
          fun i => src (secsToWrite + i)
      | none =>
        (directCount c sector numSectors).bind fun secsToWrite =>
          let r := c.disc.write io sector secsToWrite src
          let c := { c with disc := r.2 }
          if r.1 then
            writeLoop io turns c (u32 (sector + secsToWrite)) (numSectors - secsToWrite)
              fun i => src (secsToWrite + i)
          else some (false, c)

/-- `_NTFS_cache_writeSectors` -/
def writeSectors (io : DiscInterface σ) (c : Cache σ n) (sector numSectors : Nat)
    (buffer : Nat → σ) : Option (Bool × Cache σ n) :=
  if sector < c.startOfPartition then some (false, c)
  else writeLoop io (numSectors + 1) c sector numSectors buffer

def flushPages (io : DiscInterface σ) : List (Fin n) → Cache σ n → Bool × Cache σ n
  | [], c => (true, c)
  | k :: ks, c =>
    if (c.entries k).dirty then
      let r := c.writeBack io k
      if r.1 then flushPages io ks r.2 else (false, r.2)
    else flushPages io ks c

/-- `_NTFS_cache_flush` -/
def flush (io : DiscInterface σ) (c : Cache σ n) : Bool × Cache σ n :=
  flushPages io (List.finRange n) c

/-- `_NTFS_cache_invalidate` -/
def invalidate (io : DiscInterface σ) (c : Cache σ n) : Cache σ n :=
  let c := (flush io c).2
  { c with entries := fun k => ⟨cacheFree, 0, 0, false, (c.entries k).cache⟩ }

end SectorCache
