import NtfsIsoMounter.IsoReads

/-!
# The 64-sector cache of process_read_cd_2352_cmd

Requests of at most 64 raw sectors go through `cd_cache`, which holds the 64
sectors from `cached_cd_sector` on. A request may find its head, its tail or
all of itself there; whatever is missing is taken from a refill, and the tag
moves only after the refill is complete. The tag starts at 0x80000000 with no
cache memory behind it.
-/

namespace CdSectorCache

open ByteMaps SectionTables IsoReads

def cdCacheSize : Nat := 64

/-- Conversion to a 32-bit `int`. -/
def int32 (x : Int) : Int := (x + 2 ^ 31) % 2 ^ 32 - 2 ^ 31

/-- The macro ABS on an `int`, with the two's complement value at -2^31. -/
def absInt (a : Int) : Int := if a < 0 then int32 (-a) else a

structure CdState where
  /-- `cd_cache`, `none` for NULL -/
  cache : Option (Nat → UInt8)
  /-- `cached_cd_sector` -/
  tag : Nat

def noSector : Nat := 0x80000000

def CdState.start : CdState := ⟨none, noSector⟩

/-- What one `sys_memory_allocate` answers, and the memory it hands out. -/
structure Allocation where
  ret : Int
  mem : Nat → UInt8

/-- `dif`: how far the cached window starts behind the request. -/
def windowDif (tag sector : Nat) : Int := int32 (tag - sector)

/-- The first `copy_ptr` (relative to `cd_cache`), `copy_offset`, `copy_size`. -/
structure CacheCopy where
  ptr : Nat
  off : Nat
  size : Nat
  deriving DecidableEq

/-- The window test of the source; `none` leaves `copy_ptr` NULL. -/
def cacheCopy (tag sector remaining : Nat) : Option CacheCopy :=
  let dif := windowDif tag sector
  if absInt dif < cdCacheSize then
    if dif > 0 then
      if dif < remaining then some ⟨0, dif.toNat, remaining - dif.toNat⟩ else none
    else some ⟨(int32 (int32 (-dif) * 2352)).toNat, 0,
      (min (remaining : Int) (int32 (cdCacheSize + dif)) % 2 ^ 32).toNat⟩
  else none

/-- Where a request stands after the cache has been consulted. -/
inductive Plan where
  /-- everything was in the cache -/
  | served (io : Io)
  /-- these sectors are still missing -/
  | missing (io : Io) (buf sector remaining : Nat)
  /-- the copy would start at an offset from the null pointer -/
  | wild

def planCached (st : CdState) (io : Io) (buf sector remaining : Nat) : Plan :=
  match cacheCopy st.tag sector remaining, st.cache with
  | none, _ => .missing io buf sector remaining
  | some copy, none => if copy.ptr = 0 then .missing io buf sector remaining else .wild
  | some copy, some cache =>
    let io := io.store (buf + u32 (copy.off * 2352)) (u32 (copy.size * 2352))
      (fun k => cache (copy.ptr + k))
    if remaining = copy.size then .served io
    else
      let left := u32 (remaining + 2 ^ 32 - copy.size)
      if windowDif st.tag sector ≤ 0 then
        let newsector := u32 (st.tag + cdCacheSize)
        .missing io (buf + u32 (u32 (newsector + 2 ^ 32 - sector) * 2352)) newsector left
      else .missing io buf sector left

/-- After the 64 sectors were read into the cache memory of `fill`: serve the
rest of the request from them and move the tag, or leave the tag. -/
def settleFill (tag : Nat) (io : Io) (buf sector remaining : Nat) (fill : Int × Io) :
    Int × Io × CdState :=
  let io := { io with calls := fill.2.calls }
  if fill.1 ≠ 0 then (-1, io, ⟨some fill.2.mem, tag⟩)
  else (0, io.store buf (u32 (remaining * 2352)) fill.2.mem, ⟨some fill.2.mem, sector⟩)

def fillCache (d : Storage) (tab : List Section) (tag : Nat) (cache : Nat → UInt8) (io : Io)
    (buf sector remaining : Nat) : Option (Int × Io × CdState) :=
  (processReadIsoCmd d tab ⟨cache, [], io.calls⟩ 0 (u32 (sector * 2352)) (cdCacheSize * 2352)).map
    (settleFill tag io buf sector remaining)

def refill (d : Storage) (tab : List Section) (alloc : Allocation) (st : CdState) (io : Io)
    (buf sector remaining : Nat) : Option (Int × Io × CdState) :=
  match st.cache with
  | some cache => fillCache d tab st.tag cache io buf sector remaining
  | none =>
    if alloc.ret ≠ 0 then some (alloc.ret, io, st)
    else fillCache d tab st.tag alloc.mem io buf sector remaining

/-- Return value, memory and logs, cache afterwards; `none` for the wild copy. -/
def processReadCd2352Cmd (d : Storage) (tab : List Section) (alloc : Allocation) (st : CdState)
    (io : Io) (buf sector remaining : Nat) : Option (Int × Io × CdState) :=
  if remaining ≤ cdCacheSize then
    match planCached st io buf sector remaining with
    | .served io => some (0, io, st)
    | .missing io buf sector remaining => refill d tab alloc st io buf sector remaining
    | .wild => none
  else
    (processReadIsoCmd d tab io buf (u32 (sector * 2352)) (u32 (remaining * 2352))).map
      (fun r => (r.1, r.2, st))

/-! ## The window arithmetic -/

theorem int32_exact {x : Int} (low : -2 ^ 31 ≤ x) (high : x < 2 ^ 31) : int32 x = x := by
  simp only [int32]
  omega

/-- Below 2^31 no difference of sector numbers wraps. -/
theorem windowDif_exact {tag sector : Nat} (ht : tag < 2 ^ 31) (hs : sector < 2 ^ 31) :
    windowDif tag sector = (tag : Int) - sector :=
  int32_exact (by omega) (by omega)

/-- The initial tag is outside every window except that of sector 0, where the
copy starts at the pointer itself. -/
theorem cacheCopy_noSector {sector remaining : Nat} (hs : sector < 2 ^ 21) {copy : CacheCopy}
    (hit : cacheCopy noSector sector remaining = some copy) : copy.ptr = 0 := by
  by_cases zero : sector = 0
  · subst sector
    have hdif : windowDif noSector 0 = -2 ^ 31 := by decide
    have near : absInt (-2 ^ 31) < (cdCacheSize : Int) := by decide
    simp only [cacheCopy, hdif] at hit
    rw [if_pos near, if_neg (by decide)] at hit
    cases hit
    change (int32 (int32 (- -2 ^ 31) * 2352)).toNat = 0
    decide
  · have hdif : windowDif noSector sector = 2 ^ 31 - (sector : Int) :=
      int32_exact (by simp only [noSector]; omega) (by simp only [noSector]; omega)
    have far : ¬ absInt (2 ^ 31 - (sector : Int)) < (cdCacheSize : Int) := by
      simp only [absInt, cdCacheSize]
      split <;> omega
    simp only [cacheCopy, hdif, if_neg far] at hit
    cases hit

/-- A hit in a window that starts behind the request serves the request's tail. -/
theorem cacheCopy_tail {tag sector remaining : Nat} (ht : tag < 2 ^ 31) (hs : sector < 2 ^ 31)
    (later : sector < tag) {copy : CacheCopy}
    (hit : cacheCopy tag sector remaining = some copy) :
    copy = ⟨0, tag - sector, remaining - (tag - sector)⟩ ∧ tag - sector < remaining := by
  simp only [cacheCopy, windowDif_exact ht hs] at hit
  split at hit
  · rw [if_pos (by omega)] at hit
    split at hit
    · rename_i inside
      have same : ((tag : Int) - sector).toNat = tag - sector := by omega
      rw [same] at hit
      cases hit
      exact ⟨rfl, by omega⟩
    · cases hit
  · cases hit

/-- A hit in a window that starts at or before the request serves its head. -/
theorem cacheCopy_head {tag sector remaining : Nat} (ht : tag < 2 ^ 31) (hs : sector < 2 ^ 31)
    (earlier : tag ≤ sector) {copy : CacheCopy}
    (hit : cacheCopy tag sector remaining = some copy) :
    copy = ⟨(sector - tag) * 2352, 0, min remaining (tag + 64 - sector)⟩ ∧ sector < tag + 64 := by
  have hneg : int32 (-((tag : Int) - sector)) = (sector : Int) - tag := by
    rw [int32_exact] <;> omega
  simp only [cacheCopy, windowDif_exact ht hs, cdCacheSize, hneg] at hit
  split at hit
  · rename_i near
    have inside : sector < tag + 64 := by
      simp only [absInt, hneg] at near
      split at near <;> omega
    rw [if_neg (by omega), int32_exact (x := ((sector : Int) - tag) * 2352) (by omega) (by omega),
      int32_exact (x := (64 : Nat) + ((tag : Int) - sector)) (by omega) (by omega)] at hit
    have hptr : (((sector : Int) - tag) * 2352).toNat = (sector - tag) * 2352 := by omega
    have hsize : (min (remaining : Int) ((64 : Nat) + ((tag : Int) - sector)) % 2 ^ 32).toNat =
        min remaining (tag + 64 - sector) := by omega
    rw [hptr, hsize] at hit
    cases hit
    exact ⟨rfl, inside⟩
  · cases hit

end CdSectorCache
