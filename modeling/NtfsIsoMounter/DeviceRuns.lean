import NtfsIsoMounter.GekkoDevice

/-!
# Runs of calls to the device

Whatever is read, written and synced, with or without a cache and whichever calls of the disc fail,
the device is one array of bytes. A sync that succeeds leaves these bytes on the disc, but for one
case: a sync that fails marks the device as clean all the same, and until the next write every other
sync succeeds without a call of the disc.
-/

namespace DeviceRuns

open ByteMaps CellBlocks SectionTables SectorCache SectorCoherence SectorRequests GekkoIo
  GekkoDevice TurnRuns

variable {m pages : Nat} {io : DiscInterface (Sector m)}

inductive Request where
  | pread (pos count : Nat) (memory b : Nat → UInt8)
  | pwrite (pos count : Nat) (memory b : Nat → UInt8)
  | sync

inductive Answer where
  | bytes (answer : Except Errno Nat) (b : Nat → UInt8)
  | count (ret : Int) (errno : Option Errno)
  | synced (answer : Except Errno Unit)

section Machine
variable [NeZero m] [NeZero pages]

/-- One call to the device. -/
def serve (io : DiscInterface (Sector m)) (dev : NtfsDevice m pages) :
    Request → Option (NtfsDevice m pages × List Answer)
  | .pread pos count memory b =>
    (ntfsPread io memory dev pos count b).map fun r => (r.2.2, [.bytes r.1 r.2.1])
  | .pwrite pos count memory b =>
    (ntfsPwrite io memory dev pos count b).map fun r => (r.2, [.count r.1.1 r.1.2])
  | .sync => some ((ntfsDeviceSync io dev).2, [.synced (ntfsDeviceSync io dev).1])

/-- The same call to an array of bytes. -/
def plain (v : Nat → UInt8) : Request → (Nat → UInt8) × List Answer
  | .pread pos count _ b => (v, [.bytes (.ok count) (fill b 0 count fun i => v (pos + i))])
  | .pwrite pos count _ b => (fill v pos count b, [.count count none])
  | .sync => (v, [.synced (.ok ())])

/-- The bytes of a call are those of the partition. -/
def Request.Within (len : Nat) : Request → Prop
  | .pread pos count _ _ => pos + count ≤ len
  | .pwrite pos count _ _ => pos + count ≤ len
  | .sync => True

/-- What a call may come to when calls of the disc fail. -/
def Serves (t : Turn (NtfsDevice m pages) Request Answer) : Prop :=
  match t.input, t.outputs with
  | .pread pos count _ b, [.bytes answer b'] =>
    contents t.after = contents t.before ∧
      ∃ l ≤ count, b' = fill b 0 l (fun i => contents t.before (pos + i)) ∧
        (answer = .ok count ∧ l = count ∨ answer = .error .eio)
  | .pwrite pos count _ b, [.count ret errno] =>
    ret = count ∧ errno = none ∧ contents t.after = fill (contents t.before) pos count b ∨
      ret = -1 ∧ errno = some .eio ∧ ∀ a, (a / m + 1) * m ≤ pos ∨ pos + count ≤ a / m * m →
        contents t.after a = contents t.before a
  | .sync, [.synced _] => contents t.after = contents t.before
  | _, _ => False

/-- What a call makes of a sync that failed. -/
def remember (f : Bool) : Request → List Answer → Bool
  | .sync, [.synced (.error _)] => true
  | .pwrite _ count _ _, _ => f && decide (count = 0)
  | _, _ => f

/-- The last sync failed and nothing has been written since. -/
def forgotten (before : List (Turn (NtfsDevice m pages) Request Answer)) : Bool :=
  before.foldl (fun f t => remember f t.input t.outputs) false

omit [NeZero m] [NeZero pages] in
theorem forgotten_concat (before : List (Turn (NtfsDevice m pages) Request Answer))
    (t : Turn (NtfsDevice m pages) Request Answer) :
    forgotten (before ++ [t]) = remember (forgotten before) t.input t.outputs := by
  rw [forgotten, List.foldl_concat]
  rfl

/-- A sync that succeeds leaves the bytes on the disc, or no call is made at all. -/
def Syncs (before : List (Turn (NtfsDevice m pages) Request Answer))
    (t : Turn (NtfsDevice m pages) Request Answer) : Prop :=
  match t.input, t.outputs with
  | .sync, [.synced answer] =>
    (forgotten before = true → answer = .ok () ∧ t.after = t.before) ∧
      (forgotten before = false → answer = .ok () → onDisc t.after.store = sectors t.after.store)
  | _, _ => True

end Machine

/-! ## The invariant of a run -/

/-- A device that may be written and, unless a failed sync has been forgotten, is marked as long as
a page is changed. -/
structure Running [NeZero m] [NeZero pages] (start stop : Nat) (d : Nat → Sector m)
    (before : List (Turn (NtfsDevice m pages) Request Answer)) (dev : NtfsDevice m pages) :
    Prop where
  plugged : Plugged start stop d dev
  writable : dev.readOnly = false
  unsynced : dev.sync = false
  forgets : forgotten before = true → dev.dirty = false
  settled : forgotten before = false → dev.dirty = false → Settled dev.store

section Run
variable [NeZero m] [NeZero pages] {start stop : Nat} {d : Nat → Sector m}
  {before : List (Turn (NtfsDevice m pages) Request Answer)} {dev : NtfsDevice m pages}
  (running : Running start stop d before dev)
include running

theorem outside {i : Nat} (away : i < start ∨ stop ≤ i) : onDisc dev.store i = d i := by
  have fits := running.plugged.store
  generalize dev.store = store at fits
  cases store with
  | cached cache => exact fits.outside i away
  | direct disc => exact fits i away

/-- One call leaves the invariant and serves the bytes. -/
theorem serve_spec (keeps : KeepsBuffers io) {request : Request}
    (within : request.Within ((stop - start) * m)) :
    ∃ r, serve io dev request = some r ∧
      Running start stop d (before ++ [⟨dev, request, r.2, r.1⟩]) r.1 ∧
      (Serves ⟨dev, request, r.2, r.1⟩ ∧ Syncs before ⟨dev, request, r.2, r.1⟩) ∧
      (Works io → plain (contents dev) request = (contents r.1, r.2)) := by
  cases request with
  | pread pos count memory b =>
    obtain ⟨answer, b', store, ran, plugged', same, calm, ⟨l, le, moved, answers⟩, works⟩ :=
      ntfsPread_spec running.plugged keeps memory within b
    refine ⟨({ dev with store := store }, [.bytes answer b']), ?_,
      ⟨plugged', running.writable, running.unsynced, ?_, ?_⟩,
      ⟨⟨same, l, le, moved, answers⟩, trivial⟩, fun all => ?_⟩
    · rw [serve, ran, Option.map_some]
    · rw [forgotten_concat]
      exact running.forgets
    · rw [forgotten_concat]
      exact fun kept clean => calm (running.settled kept clean)
    · obtain rfl := works all
      have whole : l = count := by
        rcases answers with ⟨-, whole⟩ | wrong
        · exact whole
        · cases wrong
      rw [plain, moved, whole]
      exact congrArg (·, _) same.symm
  | pwrite pos count memory b =>
    obtain ⟨answer, dirty, store, ran, marked, idle, plugged', answers, works⟩ :=
      ntfsPwrite_spec running.plugged keeps memory running.writable running.unsynced within b
    refine ⟨({ dev with dirty := dirty, store := store },
      [.count (returned answer).1 (returned answer).2]), ?_,
      ⟨plugged', running.writable, running.unsynced, ?_, ?_⟩, ⟨?_, trivial⟩, fun all => ?_⟩
    · rw [serve, ran, Option.map_some]
    · rw [forgotten_concat]
      intro kept
      change (forgotten before && decide (count = 0)) = true at kept
      rw [Bool.and_eq_true, decide_eq_true_iff] at kept
      exact (idle kept.2).1.trans (running.forgets kept.1)
    · rw [forgotten_concat]
      intro kept clean
      change (forgotten before && decide (count = 0)) = false at kept
      have none' : count = 0 := by
        by_contra more
        rw [marked (by omega)] at clean
        cases clean
      rw [none', decide_eq_true rfl, Bool.and_true] at kept
      have settled := running.settled kept ((idle none').1.symm.trans clean)
      exact (idle none').2 ▸ settled
    · rcases answers with ⟨rfl, written⟩ | ⟨rfl, spared⟩
      · exact Or.inl ⟨rfl, rfl, written⟩
      · exact Or.inr ⟨rfl, rfl, spared⟩
    · obtain rfl := works all
      have written : contents { dev with store := store } = fill (contents dev) pos count b := by
        rcases answers with ⟨-, written⟩ | ⟨wrong, -⟩
        · exact written
        · cases wrong
      rw [plain]
      exact congrArg (·, _) written.symm
  | sync =>
    by_cases dirty : dev.dirty = true
    · have known : forgotten before = false := by
        refine Bool.eq_false_iff.mpr fun kept => ?_
        rw [running.forgets kept] at dirty
        cases dirty
      obtain ⟨answer, store, ran, plugged', same, answers, works⟩ :=
        sync_spec io running.plugged running.writable
      have made : ntfsDeviceSync io dev =
          (answer, { dev with dirty := false, sync := false, store := store }) := by
        rw [ntfsDeviceSync, if_pos dirty, ran]
      have same' := contents_congr dev same
      refine ⟨({ dev with dirty := false, sync := false, store := store }, [.synced answer]),
        ?_, ⟨plugged'.marked false false, running.writable, rfl, fun _ => rfl, ?_⟩, ⟨same', ?_⟩,
        fun all => ?_⟩
      · rw [serve, made]
      · rw [forgotten_concat]
        rcases answers with ⟨rfl, settled⟩ | rfl
        · exact fun _ _ => settled
        · exact fun wrong => absurd wrong.symm Bool.false_ne_true
      · refine ⟨fun kept => absurd (known.symm.trans kept) Bool.false_ne_true, fun _ ok => ?_⟩
        rcases answers with ⟨-, settled⟩ | rfl
        · have behind := settled_onDisc plugged' settled
          exact behind
        · cases ok
      · obtain rfl := works all
        exact congrArg (·, _) same'.symm
    · have idle : ntfsDeviceSync io dev = (.ok (), dev) := by
        rw [ntfsDeviceSync, if_neg dirty]
      have clean := Bool.eq_false_iff.mpr dirty
      refine ⟨(dev, [.synced (.ok ())]), ?_, ⟨running.plugged, running.writable,
        running.unsynced, ?_, ?_⟩, ⟨rfl, ?_⟩, fun _ => rfl⟩
      · rw [serve, idle]
      · rw [forgotten_concat]
        exact fun _ => clean
      · rw [forgotten_concat]
        exact fun kept _ => running.settled kept clean
      · exact ⟨fun _ => ⟨rfl, rfl⟩, fun known _ =>
          settled_onDisc running.plugged (running.settled known clean)⟩

end Run

/-- A device that is closed leaves its bytes on the disc. -/
theorem close_sectors {start stop : Nat} {d : Nat → Sector m} {dev : NtfsDevice m pages}
    (plugged : Plugged start stop d dev) (works : Works io) :
    (close io dev).sectors = sectors dev.store := by
  have fits := plugged.store
  rw [close]
  generalize dev.store = store at fits
  cases store with
  | cached cache =>
    obtain ⟨kept, -, -⟩ := flush_spec io (SectorRuns.Mounted.coherent fits)
    obtain ⟨-, -, ok⟩ := flush_spec io kept.coherent
    exact (flush_disc kept.coherent (ok works)).trans kept.volume
  | direct disc => rfl

/-- A device that has just been opened. -/
theorem openDevice_running [NeZero m] {cachePageSize startSector sectorCount : Nat}
    (cachePageCount : Nat) (buffers : Nat → Nat → Sector m) (accessCounter : Nat)
    (disc : Disc (Sector m)) (room : startSector + sectorCount + max cachePageSize 32 < 2 ^ 32) :
    Running startSector (startSector + sectorCount) disc.sectors []
      (openDevice cachePageCount cachePageSize startSector sectorCount buffers accessCounter disc) ∧
    sectors (openDevice cachePageCount cachePageSize startSector sectorCount buffers accessCounter
      disc).store = disc.sectors := by
  have exact : u32 (startSector + sectorCount) = startSector + sectorCount :=
    u32_exact (show startSector + sectorCount < 2 ^ 32 by omega)
  rw [openDevice, exact]
  cases made : constructor cachePageCount cachePageSize startSector (startSector + sectorCount)
      buffers accessCounter disc with
  | none =>
    exact ⟨⟨⟨rfl, by omega, fun _ _ => rfl⟩, rfl, rfl, fun _ => rfl, fun _ _ => trivial⟩, rfl⟩
  | some cache =>
    obtain ⟨mounted, seen⟩ := SectorRuns.constructor_mounted made room
    refine ⟨⟨⟨rfl, by omega, mounted⟩, rfl, rfl, fun _ => rfl, fun _ _ k => ?_⟩, seen⟩
    rw [constructor] at made
    split at made
    · exact absurd made.symm (Option.some_ne_none cache)
    · obtain rfl := Option.some.inj made
      rfl

/-- A partition that is opened again behind a device that is closed has the bytes of that device. -/
theorem reopened_contents [NeZero m] {start stop : Nat} {d : Nat → Sector m}
    {dev : NtfsDevice m pages} (plugged : Plugged start stop d dev) (works : Works io)
    (cachePageCount : Nat) {cachePageSize : Nat} (buffers : Nat → Nat → Sector m)
    (accessCounter : Nat) (room : start + (stop - start) + max cachePageSize 32 < 2 ^ 32) :
    Plugged start (start + (stop - start)) (close io dev).sectors
        (openDevice cachePageCount cachePageSize start (stop - start) buffers accessCounter
          (close io dev)) ∧
      contents (openDevice cachePageCount cachePageSize start (stop - start) buffers accessCounter
        (close io dev)) = contents dev := by
  obtain ⟨running, seen⟩ :=
    openDevice_running cachePageCount buffers accessCounter (close io dev) room
  refine ⟨running.plugged, ?_⟩
  funext a
  rw [contents, contents, seen, running.plugged.starts, plugged.starts, close_sectors plugged works]

section Device
variable [NeZero m] {cachePageCount cachePageSize startSector sectorCount : Nat}
  {buffers : Nat → Nat → Sector m} {accessCounter : Nat} {disc : Disc (Sector m)}

/-- The bytes of a partition of a disc. -/
def partition (disc : Disc (Sector m)) (startSector a : Nat) : UInt8 :=
  cells disc.sectors (startSector * m + a)

/-- Every call of a run serves the bytes of one array, no sector outside of the partition ever
changes, and a sync that succeeds leaves the bytes on the disc unless it makes no call at all. -/
theorem calls_served (room : startSector + sectorCount + max cachePageSize 32 < 2 ^ 32)
    (keeps : KeepsBuffers io) (requests : List Request)
    (within : ∀ r ∈ requests, r.Within (sectorCount * m)) :
    ∃ ts, turns (fun _ => true) (serve io) (openDevice cachePageCount cachePageSize startSector
        sectorCount buffers accessCounter disc) requests = some ts ∧
      Each (fun before t => Serves t ∧ Syncs before t ∧
        ∀ i, i < startSector ∨ startSector + sectorCount ≤ i →
          onDisc t.after.store i = disc.sectors i) ts := by
  obtain ⟨running, -⟩ := openDevice_running cachePageCount buffers accessCounter disc room
  obtain ⟨ts, run, -, each⟩ := turns_total
    (Running startSector (startSector + sectorCount) disc.sectors)
    (fun before t => Serves t ∧ Syncs before t ∧
      ∀ i, i < startSector ∨ startSector + sectorCount ≤ i →
        onDisc t.after.store i = disc.sectors i) running fun before dev request mem running => by
      obtain ⟨r, ran, later, served, -⟩ := serve_spec running keeps
        (show request.Within ((startSector + sectorCount - startSector) * m) by
          rw [Nat.add_sub_cancel_left]; exact within request mem)
      exact ⟨r, ran, later, served.1, served.2, fun i away => outside later away⟩
  exact ⟨ts, run, each⟩

/-- A write over a sector boundary, a sync and a read. -/
def threeCalls : List Request :=
  [.pwrite 500 20 (fun _ => 0) fun _ => 7, .sync, .pread 0 1024 (fun _ => 0) fun _ => 1]

theorem threeCalls_within : ∀ r ∈ threeCalls, r.Within (100 * 512) := by
  intro r mem
  rcases List.mem_cons.mp mem with rfl | mem
  · exact (by decide : 500 + 20 ≤ 100 * 512)
  · rcases List.mem_cons.mp mem with rfl | mem
    · exact trivial
    · rw [List.mem_singleton.mp mem]
      exact (by decide : 0 + 1024 ≤ 100 * 512)

def blank : Disc (Sector 512) := ⟨fun _ _ => 0, 0⟩

/-- A disc that can be read only. -/
def unwritable : DiscInterface (Sector 512) := ⟨fun _ => .done, fun _ => .failed none⟩

theorem threeCalls_served : ∃ ts, turns (fun _ => true) (serve unwritable)
      (openDevice 8 64 63 100 (fun _ _ _ => 0) 0 blank) threeCalls = some ts ∧
    Each (fun before t => Serves t ∧ Syncs before t ∧
      ∀ i, i < 63 ∨ 63 + 100 ≤ i → onDisc t.after.store i = blank.sectors i) ts :=
  have keeps : KeepsBuffers unwritable := fun _ _ failed => by cases failed
  have room : 63 + 100 + max 64 32 < 2 ^ 32 := by decide
  calls_served room keeps threeCalls threeCalls_within

/-- Over a disc that works the device answers as an array of bytes does, and where it is closed at
the end the disc holds that array. -/
theorem calls_plain (room : startSector + sectorCount + max cachePageSize 32 < 2 ^ 32)
    (works : Works io) (requests : List Request)
    (within : ∀ r ∈ requests, r.Within (sectorCount * m)) :
    ∃ ts, turns (fun _ => true) (serve io) (openDevice cachePageCount cachePageSize startSector
        sectorCount buffers accessCounter disc) requests = some ts ∧
      turns (fun _ => true) (fun v r => some (plain v r)) (partition disc startSector) requests =
        some (ts.map (Turn.map contents)) ∧
      partition (close io (ending (openDevice cachePageCount cachePageSize startSector sectorCount
          buffers accessCounter disc) ts)) startSector =
        ending (partition disc startSector) (ts.map (Turn.map contents)) := by
  set opened := openDevice cachePageCount cachePageSize startSector sectorCount buffers
    accessCounter disc
  obtain ⟨running, seen⟩ := openDevice_running cachePageCount buffers accessCounter disc room
  have first : contents opened = partition disc startSector := by
    funext a
    rw [contents, partition]
    exact congrArg (cells · _) seen
  obtain ⟨ts, run, ⟨before, last⟩, alike⟩ := turns_simulation contents plain
    (fun dev => ∃ before, Running startSector (startSector + sectorCount) disc.sectors before dev)
    ⟨[], running⟩ fun dev request mem runs => by
      obtain ⟨before, running⟩ := runs
      obtain ⟨r, ran, later, -, same⟩ := serve_spec running works.keepsBuffers
        (show request.Within ((startSector + sectorCount - startSector) * m) by
          rw [Nat.add_sub_cancel_left]; exact within request mem)
      exact ⟨r, ran, ⟨_, later⟩, same works⟩
  refine ⟨ts, run, first ▸ alike, ?_⟩
  rw [← first, ending_map]
  funext a
  rw [partition, contents, close_sectors last.plugged works, last.plugged.starts]

theorem threeCalls_plain : ∃ ts, turns (fun _ => true) (serve ⟨fun _ => .done, fun _ => .done⟩)
      (openDevice 8 64 63 100 (fun _ _ _ => 0) 0 blank) threeCalls = some ts ∧
    turns (fun _ => true) (fun v r => some (plain v r)) (partition blank 63) threeCalls =
      some (ts.map (Turn.map contents)) ∧
    partition (close ⟨fun _ => .done, fun _ => .done⟩
        (ending (openDevice 8 64 63 100 (fun _ _ _ => 0) 0 blank) ts)) 63 =
      ending (partition blank 63) (ts.map (Turn.map contents)) :=
  have room : 63 + 100 + max 64 32 < 2 ^ 32 := by decide
  calls_plain room (fun _ => ⟨rfl, rfl⟩) threeCalls threeCalls_within

end Device

end DeviceRuns
