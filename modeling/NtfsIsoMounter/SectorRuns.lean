import NtfsIsoMounter.SectorRequests

/-!
# Runs of requests to the sector cache

Whatever requests come and whichever calls of the disc fail, the cache serves one volume. Where no
call fails it cannot be told from a plain array, and a flush brings the disc up to that array. The
cache is spoilt by a read of the disc that fails on its way: the page that was to be replaced keeps
its number and answers with the sectors of another one.
-/

namespace SectorRuns

open ByteMaps SectionTables PageOverlays SectorCache SectorCoherence SectorRequests TurnRuns

universe u
variable {σ : Type u} {n : Nat} {io : DiscInterface σ}

inductive Request (σ : Type u) where
  | read (sector numSectors : Nat) (buffer : Nat → σ)
  | write (sector numSectors : Nat) (buffer : Nat → σ)
  | flush
  | invalidate

inductive Answer (σ : Type u) where
  | sectors (ok : Bool) (dest : Nat → σ)
  | result (ok : Bool)

/-- One request to the cache. -/
def serve [NeZero n] (io : DiscInterface σ) (c : Cache σ n) :
    Request σ → Option (Cache σ n × List (Answer σ))
  | .read sector numSectors buffer =>
    (readSectors io c sector numSectors buffer).map fun r => (r.2.2, [.sectors r.1 r.2.1])
  | .write sector numSectors buffer =>
    (writeSectors io c sector numSectors buffer).map fun r => (r.2, [.result r.1])
  | .flush => some ((flush io c).2, [.result (flush io c).1])
  | .invalidate => some (invalidate io c, [])

/-- The same request to a plain array of sectors. -/
def plain (v : Nat → σ) : Request σ → (Nat → σ) × List (Answer σ)
  | .read sector numSectors buffer =>
    (v, [.sectors true (fill buffer 0 numSectors fun i => v (sector + i))])
  | .write sector numSectors buffer => (fill v sector numSectors buffer, [.result true])
  | .flush => (v, [.result true])
  | .invalidate => (v, [])

/-- The sectors of a request are those of the partition. -/
def Request.Within (start stop : Nat) : Request σ → Prop
  | .read sector numSectors _ => start ≤ sector ∧ sector + numSectors ≤ stop
  | .write sector numSectors _ => start ≤ sector ∧ sector + numSectors ≤ stop
  | .flush => True
  | .invalidate => True

/-- What a request may come to when calls of the disc fail. -/
def Serves (io : DiscInterface σ) (t : Turn (Cache σ n) (Request σ) (Answer σ)) : Prop :=
  match t.input, t.outputs with
  | .read sector numSectors buffer, [.sectors ok dest] =>
    volume t.after = volume t.before ∧ ∃ m ≤ numSectors,
      dest = fill buffer 0 m (fun i => volume t.before (sector + i)) ∧
      (ok = true → m = numSectors)
  | .write sector numSectors buffer, [.result ok] =>
    ∃ m l moved, m + l ≤ numSectors ∧
      volume t.after = fill (fill (volume t.before) sector m buffer) (sector + m) l moved ∧
      (ok = true → m = numSectors)
  | .flush, [.result ok] =>
    volume t.after = volume t.before ∧ (ok = true → t.after.disc.sectors = volume t.before)
  | .invalidate, [] =>
    t.after.disc.sectors = volume t.after ∧
      ((flush io t.before).1 = true → volume t.after = volume t.before)
  | _, _ => False

/-- A coherent cache of a partition, outside of which the disc is as it was. -/
structure Mounted (start stop : Nat) (d : Nat → σ) (c : Cache σ n) : Prop where
  coherent : Coherent c
  starts : c.startOfPartition = start
  stops : c.endOfPartition = stop
  outside : ∀ i, i < start ∨ stop ≤ i → c.disc.sectors i = d i

section Requests
variable {start stop : Nat} {d : Nat → σ} {c : Cache σ n} (mounted : Mounted start stop d c)
include mounted

theorem Mounted.keeps {c' : Cache σ n} (keeps : Keeps c c') : Mounted start stop d c' where
  coherent := keeps.coherent
  starts := keeps.start.trans mounted.starts
  stops := keeps.stop.trans mounted.stops
  outside i away := by
    have own : i < c.startOfPartition ∨ c.endOfPartition ≤ i := by
      rwa [mounted.starts, mounted.stops]
    rw [← keeps.coherent.volume_outside (by rwa [keeps.start, keeps.stop]), keeps.volume,
      mounted.coherent.volume_outside own]
    exact mounted.outside i away

variable (io) in
theorem invalidate_spec : Mounted start stop d (invalidate io c) ∧
    (invalidate io c).disc.sectors = volume (invalidate io c) ∧
    ((flush io c).1 = true → volume (invalidate io c) = volume c) := by
  obtain ⟨kept, -, -⟩ := flush_spec io mounted.coherent
  obtain ⟨coherent', seen⟩ := vacant (c := invalidate io c) kept.coherent.positive
    kept.coherent.room fun k => ⟨rfl, rfl, rfl⟩
  have later := mounted.keeps kept
  exact ⟨⟨coherent', later.starts, later.stops, later.outside⟩, seen.symm,
    fun ok => seen.trans (flush_disc mounted.coherent ok)⟩

theorem readSectors_spec [NeZero n] (keeps : KeepsBuffers io) {sector numSectors : Nat}
    (low : start ≤ sector) (high : sector + numSectors ≤ stop) (buffer : Nat → σ) :
    ∃ r, readSectors io c sector numSectors buffer = some r ∧
      Reads io c sector numSectors 0 buffer r := by
  rw [← mounted.starts] at low
  rw [← mounted.stops] at high
  rw [SectorCache.readSectors, if_neg (not_lt.mpr low)]
  exact readLoop_spec keeps mounted.coherent (Nat.lt_succ_self numSectors) low high 0 buffer

variable (io) in
theorem writeSectors_spec {sector numSectors : Nat} (low : start ≤ sector)
    (high : sector + numSectors ≤ stop) (buffer : Nat → σ) :
    ∃ r, writeSectors io c sector numSectors buffer = some r ∧
      Writes io c sector numSectors buffer r ∧ Mounted start stop d r.2 := by
  obtain ⟨r, ran, writes⟩ := writeLoop_spec io mounted.coherent
    (Nat.lt_succ_self numSectors) (mounted.starts ▸ low) (mounted.stops ▸ high) buffer
  rw [SectorCache.writeSectors, if_neg (not_lt.mpr (mounted.starts ▸ low))]
  refine ⟨r, ran, writes, writes.coherent, writes.start.trans mounted.starts,
    writes.stop.trans mounted.stops, fun i away => ?_⟩
  obtain ⟨m, l, moved, inside, behind, -⟩ := writes.sectors
  have seen := congrFun behind i
  have own : i < c.startOfPartition ∨ c.endOfPartition ≤ i := by
    rwa [mounted.starts, mounted.stops]
  rw [writes.coherent.volume_outside (by rwa [writes.start, writes.stop]),
    fill_outside _ _ (by omega), fill_outside _ _ (by omega),
    mounted.coherent.volume_outside own] at seen
  exact seen.trans (mounted.outside i away)

/-- One request is served and leaves a cache of the partition. -/
theorem serve_spec [NeZero n] (keeps : KeepsBuffers io) {request : Request σ}
    (within : request.Within start stop) :
    ∃ r, serve io c request = some r ∧ Mounted start stop d r.1 ∧
      Serves io ⟨c, request, r.2, r.1⟩ ∧
      (Works io → plain (volume c) request = (volume r.1, r.2)) := by
  cases request with
  | read sector numSectors buffer =>
    obtain ⟨r, ran, read⟩ := readSectors_spec mounted keeps within.1 within.2 buffer
    obtain ⟨m, le, dest, whole⟩ := read.sectors
    refine ⟨(r.2.2, [.sectors r.1 r.2.1]), ?_, mounted.keeps read.keeps,
      ⟨read.keeps.volume, m, le, dest, whole⟩, fun works => ?_⟩
    · rw [serve, ran, Option.map_some]
    · have ok := read.works works
      rw [plain, read.keeps.volume, dest, whole ok, ok]
  | write sector numSectors buffer =>
    obtain ⟨r, ran, writes, later⟩ := writeSectors_spec io mounted within.1 within.2 buffer
    obtain ⟨m, l, moved, inside, behind, whole⟩ := writes.sectors
    refine ⟨(r.2, [.result r.1]), ?_, later, ⟨m, l, moved, inside, behind, whole⟩,
      fun works => ?_⟩
    · rw [serve, ran, Option.map_some]
    · have ok := writes.works works
      have all := whole ok
      have none' : l = 0 := by omega
      rw [plain, behind, ok, all, none', fill_zero]
  | flush =>
    obtain ⟨kept, -, works⟩ := flush_spec io mounted.coherent
    refine ⟨_, rfl, mounted.keeps kept, ⟨kept.volume, flush_disc mounted.coherent⟩, fun all => ?_⟩
    rw [plain, kept.volume, works all]
  | invalidate =>
    obtain ⟨kept, seen, same⟩ := invalidate_spec io mounted
    refine ⟨_, rfl, kept, ⟨seen, same⟩, fun all => ?_⟩
    obtain ⟨-, -, works⟩ := flush_spec io mounted.coherent
    rw [plain, same (works all)]

end Requests

instance instNeZeroFour (k : Nat) : NeZero (max k 4) := ⟨by omega⟩

/-- A new cache shows the disc. -/
theorem constructor_mounted {pages perPage start stop accessCounter : Nat}
    {buffers : Nat → Nat → σ} {disc : Disc σ} {c : Cache σ (max pages 4)}
    (made : constructor pages perPage start stop buffers accessCounter disc = some c)
    (room : stop + max perPage 32 < 2 ^ 32) :
    Mounted start stop disc.sectors c ∧ volume c = disc.sectors := by
  rw [constructor] at made
  split at made
  · exact absurd made.symm (Option.some_ne_none c)
  · obtain rfl := Option.some.inj made
    obtain ⟨coherent, seen⟩ := vacant (c := ⟨start, stop, max perPage 32,
      fun k : Fin (max pages 4) => ⟨cacheFree, 0, 0, false, buffers k⟩, accessCounter, disc⟩)
      (by change 0 < max perPage 32; omega) room fun k => ⟨rfl, rfl, rfl⟩
    exact ⟨⟨coherent, rfl, rfl, fun _ _ => rfl⟩, seen⟩

/-- Two writes around a read of the disc that fails. -/
def threeRequests : List (Request Bool) :=
  [.write 10 30 fun _ => true, .read 0 64 fun _ => false, .write 30 40 fun _ => true]

theorem threeRequests_within : ∀ r ∈ threeRequests, r.Within 0 100 := by
  intro r mem
  rcases List.mem_cons.mp mem with rfl | mem
  · exact ⟨by decide, by decide⟩
  · rcases List.mem_cons.mp mem with rfl | mem
    · exact ⟨by decide, by decide⟩
    · rw [List.mem_singleton.mp mem]
      exact ⟨by decide, by decide⟩

def blank : Disc Bool := ⟨fun _ => false, 0⟩

/-- A disc that can be written only. -/
def unreadable : DiscInterface Bool := ⟨fun _ => .failed none, fun _ => .done⟩

/-- Over a disc that works the cache answers as a plain array does, and a flush at the end leaves
the disc as that array. -/
theorem requests_plain {pages perPage start stop accessCounter : Nat}
    {buffers : Nat → Nat → σ} {disc : Disc σ} {c : Cache σ (max pages 4)}
    (made : constructor pages perPage start stop buffers accessCounter disc = some c)
    (room : stop + max perPage 32 < 2 ^ 32) (works : Works io) (requests : List (Request σ))
    (within : ∀ r ∈ requests, r.Within start stop) :
    ∃ ts, turns (fun _ => true) (serve io) c requests = some ts ∧
      turns (fun _ => true) (fun v r => some (plain v r)) disc.sectors requests =
        some (ts.map (Turn.map volume)) ∧
      (flush io (ending c ts)).1 = true ∧
      (flush io (ending c ts)).2.disc.sectors = ending disc.sectors (ts.map (Turn.map volume)) := by
  obtain ⟨mounted, seen⟩ := constructor_mounted made room
  obtain ⟨ts, run, last, alike⟩ := turns_simulation volume plain
    (Mounted start stop disc.sectors) mounted fun c request mem mounted => by
      obtain ⟨r, ran, later, -, same⟩ := serve_spec mounted works.keepsBuffers (within request mem)
      exact ⟨r, ran, later, same works⟩
  obtain ⟨-, -, ok⟩ := flush_spec io last.coherent
  refine ⟨ts, run, seen ▸ alike, ok works, ?_⟩
  rw [flush_disc last.coherent (ok works), ← seen, ending_map]

theorem threeRequests_plain :
    ∃ c, constructor 4 32 0 100 (fun _ _ => false) 0 blank = some c ∧
    ∃ ts, turns (fun _ => true) (serve ⟨fun _ => .done, fun _ => .done⟩) c threeRequests = some ts ∧
      turns (fun _ => true) (fun v r => some (plain v r)) blank.sectors threeRequests =
        some (ts.map (Turn.map volume)) ∧
      (flush ⟨fun _ => .done, fun _ => .done⟩ (ending c ts)).1 = true ∧
      (flush ⟨fun _ => .done, fun _ => .done⟩ (ending c ts)).2.disc.sectors =
        ending blank.sectors (ts.map (Turn.map volume)) := by
  have room : 100 + max 32 32 < 2 ^ 32 := by decide
  have made : constructor 4 32 0 100 (fun _ _ => false) 0 blank = some _ := rfl
  exact ⟨_, made, requests_plain made room (fun _ => ⟨rfl, rfl⟩) threeRequests
    threeRequests_within⟩

/-! ## Reads that fail on their way -/

theorem scan_held {entries : Fin n → Entry σ} (exclusive : Exclusive Entry.holds entries)
    {k : Fin n} {s : Nat} (held : (entries k).holds s = true) (oldUsed : Fin n) (oldAccess : Nat) :
    scan entries s (List.finRange n) false oldUsed oldAccess = .inl k := by
  have scanned := scan_spec entries s (List.finRange n) false oldUsed oldAccess
    fun wrong => absurd wrong Bool.false_ne_true
  generalize scan entries s (List.finRange n) false oldUsed oldAccess = result at scanned
  cases result with
  | inl j => rw [exclusive j k s scanned held]
  | inr victim =>
    have nobody := scanned.1 k (List.mem_finRange k)
    rw [held] at nobody
    exact absurd nobody.symm Bool.false_ne_true

/-- A sector of a page is read from the page without a look at the disc. -/
theorem readSectors_held [NeZero n] {c : Cache σ n} (exclusive : Exclusive Entry.holds c.entries)
    {k : Fin n} {s : Nat} (held : (c.entries k).holds s = true) (low : c.startOfPartition ≤ s)
    (more : 0 < sub32 (c.entries k).count (s - (c.entries k).sector)) (b : Nat → σ) :
    readSectors io c s 1 b =
      some (true, fill b 0 1 (fun _ => (c.entries k).cell s), c.access k) := by
  have block : fill b 0 1 (fun i => (c.entries k).cache (s - (c.entries k).sector + i)) =
      fill b 0 1 (fun _ => (c.entries k).cell s) := by
    refine fill_congr _ _ fun i first => ?_
    obtain rfl : i = 0 := by omega
    rfl
  rw [SectorCache.readSectors, if_neg (not_lt.mpr low), readLoop, if_neg Nat.one_ne_zero, getPage,
    if_neg (not_lt.mpr low), scan_held exclusive held]
  dsimp only
  rw [access_self]
  dsimp only
  rw [Nat.min_eq_right more, block, Nat.sub_self, readLoop, if_pos rfl]

/-- After a read that failed on its way the page that was to be replaced is still there, and a read
of its sectors succeeds with those of the other page. -/
theorem failed_read_spoils [NeZero n] {c : Cache σ n} (coherent : Coherent c) {s m : Nat}
    (low : c.startOfPartition ≤ s) (more : 0 < m) {foundFree : Bool} {k : Fin n}
    (victim : scan c.entries s (List.finRange n) false 0 0xFFFFFFFF = .inr (foundFree, k))
    (clean : (c.entries k).dirty = false) {moved : Nat → σ}
    (failed : io.readSectors c.disc.calls = .failed (some moved)) (buffer : Nat → σ) :
    ∃ c', readSectors io c s m buffer = some (false, buffer, c') ∧
      c'.disc.sectors = c.disc.sectors ∧
      ∀ i, (c.entries k).sector ≤ i →
        i < (c.entries k).sector + min (c.entries k).count (c.pageCount (c.base s)) → ∀ b,
        ∃ c'', readSectors io c' i 1 b =
          some (true, fill b 0 1 (fun _ => moved (i - (c.entries k).sector)), c'') := by
  set e := { c.entries k with
    cache := fill (c.entries k).cache 0 (c.pageCount (c.base s)) moved } with spoilt
  set c' := { c.put k e with disc := { c.disc with calls := c.disc.calls + 1 } } with left
  have alike (j : Fin n) (i : Nat) : (c'.entries j).holds i = (c.entries j).holds i := by
    change ((c.put k e).entries j).holds i = _
    by_cases same : j = k
    · rw [same, put_self]
      rfl
    · rw [put_of_ne same]
  have own : c'.entries k = e := put_self c k e
  refine ⟨c', ?_, rfl, fun i lower upper b => ?_⟩
  · have unchanged : ¬ (foundFree = false ∧ (c.entries k).dirty = true) := by
      rw [clean]
      exact fun both => Bool.false_ne_true both.2
    have answer : getPage io c s = (none, c') := by
      rw [getPage, if_neg (not_lt.mpr low), victim]
      dsimp only
      rw [if_neg unchanged, Cache.load, Disc.read, failed]
      rfl
    rw [SectorCache.readSectors, if_neg (not_lt.mpr low), readLoop, if_neg (by omega), answer]
  · have held : (c.entries k).holds i = true := by
      have inside : i - (c.entries k).sector < (c.entries k).count := by omega
      have there := coherent.holds_of_within inside
      rwa [Nat.add_sub_cancel' lower] at there
    obtain ⟨rest, -, -⟩ := rest_of_page coherent held
    have cell : (c'.entries k).cell i = moved (i - (c.entries k).sector) := by
      rw [own]
      change fill (c.entries k).cache 0 _ moved (i - (c.entries k).sector) = _
      rw [fill, if_pos (by omega), Nat.sub_zero]
    refine ⟨c'.access k, ?_⟩
    rw [← cell]
    refine readSectors_held (fun p q j hp hq => ?_) ((alike k i).trans held) ?_ ?_ b
    · exact coherent.exclusive p q j ((alike p j).symm.trans hp) ((alike q j).symm.trans hq)
    · exact (coherent.holds_iff.mp held).1.1
    · rw [own]
      change 0 < sub32 (c.entries k).count (i - (c.entries k).sector)
      omega

/-- The page of the sectors from 0 on is replaced, and the sectors from 128 on are read on and off:
sector 0 is then another one. -/
def fourPages : Cache Bool 4 where
  startOfPartition := 0
  endOfPartition := 1000
  sectorsPerPage := 32
  entries := fun k => ⟨k * 32, 32, k + 1, false, fun _ => true⟩
  accessCounter := 4
  disc := ⟨fun _ => true, 0⟩

theorem fourPages_coherent : Coherent fourPages where
  positive := by decide
  room := by decide
  page k _ := ⟨⟨k, (Nat.zero_add _).symm⟩, by change (k : Nat) * 32 < 1000; omega,
    by change 32 = min 32 (1000 - (k : Nat) * 32); omega⟩
  free k free := by
    have value : cacheFree = 4294967295 := rfl
    change (k : Nat) * 32 = cacheFree at free
    omega
  unique j k _ same := by
    change (j : Nat) * 32 = (k : Nat) * 32 at same
    exact Fin.ext (by omega)
  clean _ _ _ _ := rfl

/-- Every read of the disc fails when it has moved its sectors. -/
def cutOff : DiscInterface Bool := ⟨fun _ => .failed (some fun _ => false), fun _ => .done⟩

theorem fourPages_spoilt :
    ∃ c', readSectors cutOff fourPages 128 1 (fun _ => true) = some (false, fun _ => true, c') ∧
      ∃ c'', readSectors cutOff c' 0 1 (fun _ => true) =
        some (true, fill (fun _ => true) 0 1 (fun _ => false), c'') := by
  have victim : scan fourPages.entries 128 (List.finRange 4) false 0 0xFFFFFFFF =
      .inr (false, 0) := by decide
  have failed : cutOff.readSectors fourPages.disc.calls = .failed (some fun _ => false) := rfl
  obtain ⟨c', read, -, spoilt⟩ := failed_read_spoils fourPages_coherent (m := 1) (Nat.zero_le 128)
    Nat.one_pos victim rfl failed fun _ => true
  exact ⟨c', read, spoilt 0 (Nat.zero_le 0) (by decide) _⟩

end SectorRuns
