import NtfsIsoMounter.CdSectorCache

/-!
# Coherence of the CD sector cache over whole runs

A driver serves one request after the other. The invariant says that the cache
memory, once there, holds the 64 raw sectors its tag names. A refill that fails
midway breaks it: the memory is already overwritten and the tag still names
the old sectors. Runs in which no request is served from such a spoiled cache
answer every request correctly; a run of three requests shows the other case.
-/

namespace CacheCoherence

-- two products with the literal 2352 are compared by unfolding them
set_option maxRecDepth 20000

open ByteMaps SectionTables IsoReads CdSectorCache

/-- A raw sector whose byte offset is a 32-bit number. -/
def Raw (sector : Nat) : Prop := sector ≤ 1826091

/-- The cache, once allocated, holds the raw sectors from its tag on. -/
def Held (d : Storage) (tab : List Section) (st : CdState) : Prop :=
  match st.cache with
  | none => st.tag = noSector
  | some cache => Raw st.tag ∧
      ∀ k, k < cdCacheSize * 2352 → cache k = image d tab (st.tag * 2352 + k)

/-- One request with the memory its buffer lies in. -/
structure CdRequest where
  mem : Nat → UInt8
  buf : Nat
  sector : Nat
  count : Nat
  alloc : Allocation

/-- The module between two requests. `spoiled` is not a variable of the source:
it records that the last refill attempted so far failed. -/
structure Driver where
  cd : CdState
  calls : List ReadCall
  spoiled : Bool

def Driver.start : Driver := ⟨CdState.start, [], false⟩

/-- The request finds something missing and has cache memory to read it into. -/
def attemptsRefill (st : CdState) (io : Io) (r : CdRequest) : Bool :=
  if r.count ≤ cdCacheSize then
    match planCached st io r.buf r.sector r.count with
    | .missing .. => st.cache.isSome || r.alloc.ret == 0
    | _ => false
  else false

def serve (d : Storage) (tab : List Section) (s : Driver) (r : CdRequest) :
    Option (Int × Io × Driver) :=
  let io : Io := ⟨r.mem, [], s.calls⟩
  match processReadCd2352Cmd d tab r.alloc s.cd io r.buf r.sector r.count with
  | none => none
  | some (ret, io', cd) =>
    some (ret, io', ⟨cd, io'.calls, if attemptsRefill s.cd io r then ret != 0 else s.spoiled⟩)

def CdRequest.InRange (r : CdRequest) : Prop := (r.sector + max r.count 64) * 2352 < 2 ^ 32

instance (r : CdRequest) : Decidable r.InRange := inferInstanceAs (Decidable (_ < _))

/-- The window test of the request finds something to copy. -/
def CdRequest.Hits (r : CdRequest) (tag : Nat) : Prop :=
  r.count ≤ cdCacheSize ∧ (cacheCopy tag r.sector r.count).isSome = true

/-- The request is not served from a cache whose last refill failed. -/
def Unspoiled (s : Driver) (r : CdRequest) : Prop := s.spoiled = true → ¬ r.Hits s.cd.tag

/-- Every state of the module after any requests that `allowed` lets through. -/
inductive Reaches (d : Storage) (tab : List Section) (allowed : Driver → CdRequest → Prop) :
    Driver → Prop where
  | start : Reaches d tab allowed Driver.start
  | serve {s s' : Driver} {r : CdRequest} {ret : Int} {io : Io} :
      Reaches d tab allowed s → allowed s r → serve d tab s r = some (ret, io, s') →
      Reaches d tab allowed s'

/-- The request ends; when it returns 0 its buffer holds the raw sectors; in
any case nothing outside the `count` sectors of its buffer is stored to. -/
def Answers (d : Storage) (tab : List Section) (s : Driver) (r : CdRequest) : Prop :=
  ∃ ret io s', serve d tab s r = some (ret, io, s') ∧
    StoresIn ⟨r.mem, [], s.calls⟩ io r.buf (r.count * 2352) ∧
    (ret = 0 → io.mem =
      fill r.mem r.buf (r.count * 2352) (fun k => image d tab (r.sector * 2352 + k)))

/-! ## Refills -/

section Refill
variable (d : Storage) {tab : List Section} (fit : ∀ s ∈ tab, s.IsHole ∨ s.Fits)
include fit

theorem fillCache_spec (tag : Nat) (cache : Nat → UInt8) (io : Io) (buf : Nat)
    {sector remaining : Nat} (hs : Raw sector) (hr : remaining ≤ cdCacheSize) :
    ∃ ret io' st', fillCache d tab tag cache io buf sector remaining = some (ret, io', st') ∧
      StoresIn io io' buf (remaining * 2352) ∧
      (ret = 0 → Held d tab st' ∧
        io'.mem = fill io.mem buf (remaining * 2352)
          (fun k => image d tab (sector * 2352 + k))) := by
  have small := hs
  simp only [Raw] at small
  simp only [cdCacheSize] at hr
  have unwrapped : NoWrap tab (sector * 2352 + cdCacheSize * 2352) :=
    Or.inr (by simp only [cdCacheSize]; omega)
  obtain ⟨ret, cio, run, result⟩ := processReadIsoCmd_spec d fit ⟨cache, [], io.calls⟩ 0
    _ _ unwrapped (by decide) (by simp only [cdCacheSize]; omega)
  have hoff : u32 (sector * 2352) = sector * 2352 := u32_exact (by omega)
  have hlen : u32 (remaining * 2352) = remaining * 2352 := u32_exact (by omega)
  have filled : fillCache d tab tag cache io buf sector remaining =
      some (settleFill tag io buf sector remaining (ret, cio)) := by
    rw [fillCache, hoff, run]
    rfl
  rw [filled]
  rcases result with ⟨rfl, adv⟩ | ⟨rfl, -⟩
  · have held : ∀ k, k < cdCacheSize * 2352 → cio.mem k = image d tab (sector * 2352 + k) := by
      intro k hk
      have same := fill_inside cache (a := 0) (fun i => image d tab (sector * 2352 + i)) hk
      rw [← adv.mem, Nat.zero_add] at same
      exact same
    simp only [settleFill, hlen, ne_eq, not_true_eq_false, if_false]
    refine ⟨0, _, _, rfl, (storesIn_store io buf _ cio.mem), fun _ => ⟨⟨hs, held⟩, ?_⟩⟩
    exact fill_congr _ _ (fun k hk => held k (by simp only [cdCacheSize]; omega))
  · exact ⟨-1, _, _, rfl, StoresIn.refl io buf _, by simp⟩

/-- A refill without memory to read into leaves the cache alone; any other
refill that returns 0 leaves it holding the new sectors. -/
theorem refill_spec (alloc : Allocation) (st : CdState) (io : Io) (buf : Nat)
    {sector remaining : Nat} (hs : Raw sector) (hr : remaining ≤ cdCacheSize) :
    ∃ ret io' st', refill d tab alloc st io buf sector remaining = some (ret, io', st') ∧
      StoresIn io io' buf (remaining * 2352) ∧
      ((st.cache.isSome || alloc.ret == 0) = false → st' = st) ∧
      (ret = 0 → Held d tab st' ∧
        io'.mem = fill io.mem buf (remaining * 2352)
          (fun k => image d tab (sector * 2352 + k))) := by
  cases hc : st.cache with
  | some cache =>
    obtain ⟨ret, io', st', run, stores, good⟩ :=
      fillCache_spec d fit st.tag cache io buf hs hr
    exact ⟨ret, io', st', by simp only [refill, hc, run], stores, by simp, good⟩
  | none =>
    by_cases failed : alloc.ret = 0
    · obtain ⟨ret, io', st', run, stores, good⟩ :=
        fillCache_spec d fit st.tag alloc.mem io buf hs hr
      exact ⟨ret, io', st', by simp [refill, hc, failed, run], stores, by simp [failed], good⟩
    · exact ⟨alloc.ret, io, st, by simp [refill, hc, failed], StoresIn.refl io buf _,
        fun _ => rfl, fun h => absurd h failed⟩

end Refill

/-! ## What the cache already provides -/

/-- The plan for a request leaves a smaller request that completes it. -/
def Completes (d : Storage) (tab : List Section) (io : Io) (buf sector count : Nat) :
    Plan → Prop
  | .served io' => StoresIn io io' buf (count * 2352) ∧
      io'.mem = fill io.mem buf (count * 2352) (fun k => image d tab (sector * 2352 + k))
  | .missing io' buf' sector' left => StoresIn io io' buf (count * 2352) ∧
      Raw sector' ∧ left ≤ cdCacheSize ∧
      buf ≤ buf' ∧ buf' + left * 2352 ≤ buf + count * 2352 ∧
      fill io'.mem buf' (left * 2352) (fun k => image d tab (sector' * 2352 + k)) =
        fill io.mem buf (count * 2352) (fun k => image d tab (sector * 2352 + k))
  | .wild => False

section Hits
variable (d : Storage) (tab : List Section)

theorem missing_completes (io : Io) (buf : Nat) {sector count : Nat}
    (hs : Raw sector) (hc : count ≤ cdCacheSize) :
    Completes d tab io buf sector count (.missing io buf sector count) :=
  ⟨StoresIn.refl io buf _, hs, hc, le_rfl, le_rfl, rfl⟩

/-- The tail of the request is in a window that starts inside it. -/
theorem planCached_tail {st : CdState} {cache : Nat → UInt8} (hcache : st.cache = some cache)
    (held : ∀ k, k < cdCacheSize * 2352 → cache k = image d tab (st.tag * 2352 + k))
    (ht : st.tag < 2 ^ 31) (io : Io) (buf : Nat) {sector count : Nat}
    (hs : Raw sector) (hc : count ≤ cdCacheSize) (later : sector < st.tag)
    {copy : CacheCopy} (hit : cacheCopy st.tag sector count = some copy) :
    Completes d tab io buf sector count (planCached st io buf sector count) := by
  have small := hs
  simp only [Raw] at small
  simp only [cdCacheSize] at hc held
  obtain ⟨rfl, inside⟩ := cacheCopy_tail ht (by omega) later hit
  have hleft : u32 (count + 2 ^ 32 - (count - (st.tag - sector))) = st.tag - sector := by
    simp only [u32]
    omega
  have hdif : ¬ windowDif st.tag sector ≤ 0 := by
    rw [windowDif_exact ht (by omega)]
    omega
  have hne : ¬ count = count - (st.tag - sector) := by omega
  simp only [planCached, hit, hcache, hleft, if_neg hdif, if_neg hne]
  rw [u32_exact (n := (st.tag - sector) * 2352) (by omega),
    u32_exact (n := (count - (st.tag - sector)) * 2352) (by omega)]
  refine ⟨(storesIn_store io _ _ _).within (by omega) (by omega), hs, ?_, le_rfl, by omega, ?_⟩
  · simp only [cdCacheSize]
    omega
  · have split : count * 2352 =
        (st.tag - sector) * 2352 + (count - (st.tag - sector)) * 2352 := by omega
    have copied : fill io.mem (buf + (st.tag - sector) * 2352)
          ((count - (st.tag - sector)) * 2352) (fun k => cache (0 + k)) =
        fill io.mem (buf + (st.tag - sector) * 2352) ((count - (st.tag - sector)) * 2352)
          (fun k => image d tab (sector * 2352 + ((st.tag - sector) * 2352 + k))) := by
      refine fill_congr _ _ (fun k hk => ?_)
      rw [Nat.zero_add, held k (by omega)]
      exact congrArg (image d tab) (by omega)
    rw [split, ← fill_prepend, ← copied]
    rfl

/-- The head of the request is in a window that starts at or before it. -/
theorem planCached_head {st : CdState} {cache : Nat → UInt8} (hcache : st.cache = some cache)
    (held : ∀ k, k < cdCacheSize * 2352 → cache k = image d tab (st.tag * 2352 + k))
    (ht : st.tag < 2 ^ 31) (io : Io) (buf : Nat) {sector count : Nat}
    (hs : Raw (sector + count)) (hc : count ≤ cdCacheSize) (earlier : st.tag ≤ sector)
    {copy : CacheCopy} (hit : cacheCopy st.tag sector count = some copy) :
    Completes d tab io buf sector count (planCached st io buf sector count) := by
  simp only [Raw] at hs
  simp only [cdCacheSize] at hc held
  obtain ⟨rfl, inside⟩ := cacheCopy_head ht (by omega) earlier hit
  generalize hsize : min count (st.tag + 64 - sector) = size at hit
  have copied : fill io.mem buf (size * 2352) (fun k => cache ((sector - st.tag) * 2352 + k)) =
      fill io.mem buf (size * 2352) (fun k => image d tab (sector * 2352 + k)) := by
    refine fill_congr _ _ (fun k hk => ?_)
    rw [held _ (by omega)]
    exact congrArg (image d tab) (by omega)
  have hdif : windowDif st.tag sector ≤ 0 := by
    rw [windowDif_exact ht (by omega)]
    omega
  have stores : StoresIn io (io.store (buf + u32 (0 * 2352)) (size * 2352)
      (fun k => cache ((sector - st.tag) * 2352 + k))) buf (count * 2352) :=
    (storesIn_store io _ _ _).within (by omega) (by simp only [u32]; omega)
  simp only [planCached, hit, hcache, if_pos hdif]
  rw [u32_exact (n := size * 2352) (by omega)]
  by_cases whole : count = size
  · rw [if_pos whole]
    exact ⟨stores, by rw [whole]; exact copied⟩
  · rw [if_neg whole]
    have hnew : u32 (st.tag + cdCacheSize) = sector + size := by
      simp only [u32, cdCacheSize]
      omega
    have hbuf : u32 (sector + size + 2 ^ 32 - sector) = size := by
      simp only [u32]
      omega
    have hleft : u32 (count + 2 ^ 32 - size) = count - size := by
      simp only [u32]
      omega
    rw [hnew, hbuf, hleft, u32_exact (n := size * 2352) (by omega)]
    refine ⟨stores, by simp only [Raw]; omega, by simp only [cdCacheSize]; omega, by omega,
      by omega, ?_⟩
    have split : count * 2352 = size * 2352 + (count - size) * 2352 := by omega
    rw [split, ← fill_append]
    refine Eq.trans ?_ (congrArg (fun m => fill m _ _ _) copied)
    exact fill_congr _ _ (fun k _ => congrArg (image d tab) (by omega))

end Hits

/-- With the invariant, or without a hit, what the plan leaves completes the
request. -/
theorem planCached_completes (d : Storage) (tab : List Section) {st : CdState} (io : Io)
    (buf : Nat) {sector count : Nat} (hs : Raw (sector + 64))
    (hc : count ≤ cdCacheSize)
    (good : Held d tab st ∨ cacheCopy st.tag sector count = none) :
    Completes d tab io buf sector count (planCached st io buf sector count) := by
  simp only [Raw] at hs
  have small : Raw sector := by simp only [Raw]; omega
  have whole := missing_completes d tab io buf small hc
  cases hit : cacheCopy st.tag sector count with
  | none => simpa only [planCached, hit] using whole
  | some copy =>
    rcases good with held | miss
    · simp only [Held] at held
      cases hcache : st.cache with
      | none =>
        rw [hcache] at held
        rw [held] at hit
        have zero := cacheCopy_noSector (by omega) hit
        rw [← held] at hit
        simpa only [planCached, hit, hcache, zero, if_true] using whole
      | some cache =>
        rw [hcache] at held
        obtain ⟨ht, held⟩ := held
        simp only [Raw] at ht
        by_cases later : sector < st.tag
        · exact planCached_tail d tab hcache held (by omega) io buf small hc later hit
        · simp only [cdCacheSize] at hc
          exact planCached_head d tab hcache held (by omega) io buf (by simp only [Raw]; omega) hc
            (by omega) hit
    · rw [miss] at hit
      cases hit

/-! ## Whole runs -/

section Runs
variable (d : Storage) {tab : List Section} (fit : ∀ s ∈ tab, s.IsHole ∨ s.Fits)
include fit

/-- Requests of more than 64 sectors go past the cache. -/
theorem direct_spec (alloc : Allocation) (st : CdState) (io : Io) (buf : Nat)
    {sector count : Nat} (range : (sector + count) * 2352 < 2 ^ 32) (large : cdCacheSize < count) :
    ∃ ret io', processReadCd2352Cmd d tab alloc st io buf sector count = some (ret, io', st) ∧
      StoresIn io io' buf (count * 2352) ∧
      (ret = 0 → io'.mem =
        fill io.mem buf (count * 2352) (fun k => image d tab (sector * 2352 + k))) := by
  have hoff : u32 (sector * 2352) = sector * 2352 := u32_exact (by omega)
  have hlen : u32 (count * 2352) = count * 2352 := u32_exact (by omega)
  have unwrapped : NoWrap tab (sector * 2352 + count * 2352) := Or.inr (by omega)
  obtain ⟨ret, io', run, result⟩ :=
    processReadIsoCmd_spec d fit io buf _ _ unwrapped (by omega) (by omega)
  have past : processReadCd2352Cmd d tab alloc st io buf sector count = some (ret, io', st) := by
    rw [processReadCd2352Cmd, if_neg (by omega), hoff, hlen, run]
    rfl
  rcases result with ⟨rfl, adv⟩ | ⟨rfl, abort⟩
  · exact ⟨0, io', past, adv.stores, fun _ => adv.mem⟩
  · exact ⟨-1, io', past, abort.stores, by simp⟩

/-- One request: it is answered, and the invariant holds again. -/
theorem serve_spec {s : Driver} {r : CdRequest} (inv : s.spoiled = false → Held d tab s.cd)
    (range : r.InRange) (fresh : Unspoiled s r) :
    ∃ ret io s', serve d tab s r = some (ret, io, s') ∧
      StoresIn ⟨r.mem, [], s.calls⟩ io r.buf (r.count * 2352) ∧
      (ret = 0 → io.mem =
        fill r.mem r.buf (r.count * 2352) (fun k => image d tab (r.sector * 2352 + k))) ∧
      (s'.spoiled = false → Held d tab s'.cd) := by
  simp only [CdRequest.InRange] at range
  by_cases small : r.count ≤ cdCacheSize
  · have good : Held d tab s.cd ∨ cacheCopy s.cd.tag r.sector r.count = none := by
      cases hs : s.spoiled with
      | false => exact Or.inl (inv hs)
      | true =>
        have miss : ¬ r.Hits s.cd.tag := fresh hs
        simp only [CdRequest.Hits, small, true_and, Bool.not_eq_true,
          Option.isSome_eq_false_iff, Option.isNone_iff_eq_none] at miss
        exact Or.inr miss
    have raw : Raw (r.sector + 64) := by
      simp only [Raw]
      omega
    have plan := planCached_completes d tab ⟨r.mem, [], s.calls⟩ r.buf raw small good
    cases hp : planCached s.cd ⟨r.mem, [], s.calls⟩ r.buf r.sector r.count with
    | served io =>
      rw [hp] at plan
      refine ⟨0, io, ⟨s.cd, io.calls, s.spoiled⟩, ?_, plan.1, fun _ => plan.2, inv⟩
      simp [serve, processReadCd2352Cmd, small, hp, attemptsRefill]
    | missing io buf sector left =>
      rw [hp] at plan
      obtain ⟨stores, hs, hl, low, high, completes⟩ := plan
      obtain ⟨ret, io', st', run, stores', idle, done⟩ :=
        refill_spec d fit r.alloc s.cd io buf hs hl
      refine ⟨ret, io', ⟨st', io'.calls, if s.cd.cache.isSome || r.alloc.ret == 0 then ret != 0
        else s.spoiled⟩, ?_, stores.append (stores'.within low high), ?_, ?_⟩
      · simp only [serve, processReadCd2352Cmd, small, if_true, hp, run, attemptsRefill]
      · intro zero
        rw [(done zero).2, completes]
      · intro clean
        cases attempted : s.cd.cache.isSome || r.alloc.ret == 0 with
        | true =>
          simp only [attempted, if_true, bne_eq_false_iff_eq] at clean
          exact (done clean).1
        | false =>
          simp only [attempted, Bool.false_eq_true, if_false] at clean
          rw [idle attempted]
          exact inv clean
    | wild =>
      rw [hp] at plan
      exact plan.elim
  · have large : cdCacheSize < r.count := by omega
    have inside : (r.sector + r.count) * 2352 < 2 ^ 32 := by omega
    obtain ⟨ret, io, run, stores, good⟩ :=
      direct_spec d fit r.alloc s.cd ⟨r.mem, [], s.calls⟩ r.buf inside large
    refine ⟨ret, io, ⟨s.cd, io.calls, s.spoiled⟩, ?_, stores, good, inv⟩
    simp [serve, run, attemptsRefill, small]

/-- The invariant of every run without a hit on a spoiled cache. -/
theorem reaches_held {s : Driver}
    (reach : Reaches d tab (fun s r => r.InRange ∧ Unspoiled s r) s) :
    s.spoiled = false → Held d tab s.cd := by
  induction reach with
  | start => exact fun _ => rfl
  | serve _ allowed step ih =>
    obtain ⟨ret, io, s', run, -, -, inv⟩ := serve_spec d fit ih allowed.1 allowed.2
    rw [run] at step
    cases step
    exact inv

/-- In a run in which no request is served from a cache whose last refill
failed, every request is answered with the image's raw sectors. -/
theorem reaches_answers {s : Driver} {r : CdRequest}
    (reach : Reaches d tab (fun s r => r.InRange ∧ Unspoiled s r) s) (range : r.InRange)
    (fresh : Unspoiled s r) :
    Answers d tab s r ∧ (s.spoiled = false → Held d tab s.cd) := by
  have inv := reaches_held d fit reach
  obtain ⟨ret, io, s', run, stores, good, -⟩ := serve_spec d fit inv range fresh
  exact ⟨⟨ret, io, s', run, stores, good⟩, inv⟩

end Runs

/-! ## A run through a failed refill -/

/-- Sectors below 100 hold zeros, the others ones; call number 2 fails. -/
def flakyDisk : Storage where
  data := fun sector _ => if sector < 100 then 0 else 1
  reply := fun k _ n => if k = 2 then ⟨-1, 0, fun _ => 0⟩ else ⟨0, n, fun _ => 0⟩

def wholeDisk : List Section := [⟨0, 0xFFFFFFF0⟩]

def oneSector (sector : Nat) : CdRequest := ⟨fun _ => 0, 0, sector, 1, ⟨0, fun _ => 0⟩⟩

/-- Sector 0 fills the cache and sector 3 is a hit; the refill for sector 1000 fails; sector 500
is then a miss, which is answered. -/
theorem reaches_answers_miss : ∃ s, s.spoiled = true ∧
    Reaches flakyDisk wholeDisk (fun s r => r.InRange ∧ Unspoiled s r) s ∧
    Answers flakyDisk wholeDisk s (oneSector 500) := by
  have run : (do
      let a ← serve flakyDisk wholeDisk Driver.start (oneSector 0)
      let b ← serve flakyDisk wholeDisk a.2.2 (oneSector 3)
      let c ← serve flakyDisk wholeDisk b.2.2 (oneSector 1000)
      some ((a.2.2.spoiled, a.2.2.cd.tag),
        (b.1, b.2.2.calls.length == a.2.2.calls.length, b.2.2.spoiled),
        (c.1, c.2.2.spoiled, c.2.2.cd.tag))) =
      some ((false, 0), (0, true, false), (-1, true, 0)) := by
    decide +kernel
  simp only [Option.bind_eq_bind, Option.bind_eq_some_iff] at run
  obtain ⟨⟨r1, io1, s1⟩, first, ⟨r2, io2, s2⟩, second, ⟨r3, io3, s3⟩, third, last⟩ := run
  simp only [Option.some.injEq, Prod.mk.injEq] at last
  obtain ⟨⟨fresh1, -⟩, ⟨-, -, fresh2⟩, -, spoiled, tag⟩ := last
  have reach : Reaches flakyDisk wholeDisk (fun s r => r.InRange ∧ Unspoiled s r) s3 :=
    ((Reaches.start.serve ⟨by decide, fun wrong => Bool.noConfusion wrong⟩ first).serve
      ⟨by decide, fun wrong => Bool.noConfusion (fresh1.symm.trans wrong)⟩ second).serve
      ⟨by decide, fun wrong => Bool.noConfusion (fresh2.symm.trans wrong)⟩ third
  have missed : Unspoiled s3 (oneSector 500) := by
    rintro - ⟨-, hit⟩
    rw [tag] at hit
    revert hit
    decide
  exact ⟨s3, spoiled, reach, (reaches_answers flakyDisk (by decide) reach (by decide) missed).1⟩

/-- Sector 0 fills the cache; the refill for sector 1000 stores its unaligned
head and then fails; sector 0 is still a hit and gets the first bytes of sector
1000, with return value 0. -/
theorem spoiled_cache_serves_old_tag :
    ∃ s, Reaches flakyDisk wholeDisk (fun _ r => r.InRange) s ∧ (oneSector 0).InRange ∧
      ¬ Answers flakyDisk wholeDisk s (oneSector 0) := by
  have run : (do
      let a ← serve flakyDisk wholeDisk Driver.start (oneSector 0)
      let b ← serve flakyDisk wholeDisk a.2.2 (oneSector 1000)
      let c ← serve flakyDisk wholeDisk b.2.2 (oneSector 0)
      some (c.1, c.2.1.mem 0)) = some (0, 1) := by decide +kernel
  simp only [Option.bind_eq_bind, Option.bind_eq_some_iff] at run
  obtain ⟨⟨r1, io1, s1⟩, first, ⟨r2, io2, s2⟩, second, ⟨r3, io3, s3⟩, third, last⟩ := run
  have reach : Reaches flakyDisk wholeDisk (fun _ r => r.InRange) s2 :=
    (Reaches.start.serve (by decide) first).serve (by decide) second
  refine ⟨s2, reach, by decide, ?_⟩
  rintro ⟨ret, io, s, again, -, whole⟩
  rw [third] at again
  cases again
  simp only [Option.some.injEq, Prod.mk.injEq] at last
  have first' : io3.mem (0 + 0) = image flakyDisk wholeDisk (0 * 2352 + 0) := by
    rw [whole last.1]
    exact fill_inside _ _ (by decide)
  have zero : image flakyDisk wholeDisk 0 = 0 := by decide
  rw [last.2, zero] at first'
  exact absurd first' (by decide)

end CacheCoherence
