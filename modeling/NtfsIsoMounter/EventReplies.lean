import NtfsIsoMounter.CacheCoherence
import NtfsIsoMounter.ReadPlans

/-!
# Replies of rawseciso_thread over whole runs

The thread receives one event after the other. Its reply to a block read of a
2352-byte disc says nothing about the storage reads; every other reply of 0
means that they succeeded. Where addresses fit and no request is served from a
cache that a failed refill has spoiled, the requested bytes then are in the
buffer of the event.
-/

namespace EventReplies

open ByteMaps SectionTables IsoReads CdSectorCache CommandThread BlockReads CdAddresses
  CacheCoherence ReadPlans

/-- An event with the memory its buffer lies in and the answer to an allocation
that is made for it. -/
structure Received where
  event : Event
  mem : Nat → UInt8
  alloc : Allocation

def Received.io (s : Driver) (v : Received) : Io := ⟨v.mem, [], s.calls⟩

/-- The event as a request for raw sectors. -/
def Received.raw (v : Received) : CdRequest :=
  ⟨v.mem, v.event.buf, u32 (v.event.offset / 2352), v.event.size / 2352, v.alloc⟩

/-- One turn of the event loop: the value sent to `result_port`, and the module
before the next event. -/
def receive (d : Storage) (m : Mounted) (s : Driver) (v : Received) :
    Option (Int × Io × Driver) :=
  (handleEvent d m v.alloc s.cd (v.io s) v.event).map fun r => (r.1, r.2.1,
    ⟨r.2.2, r.2.1.calls,
      if v.event.command = some .readCdIso2352 then
        if attemptsRefill s.cd (v.io s) v.raw then r.1 != 0 else s.spoiled
      else s.spoiled⟩)

/-! ## What is requested -/

/-- How many bytes a read asks for; the other commands have no buffer. -/
def wantedSize (e : Event) : Nat :=
  match e.command with
  | some .readIso => e.size
  | some .readCdIso2352 => e.size
  | _ => 0

/-- Byte `k` of the bytes a read asks for. -/
def wanted (d : Storage) (m : Mounted) (e : Event) (k : Nat) : UInt8 :=
  match e.command with
  | some .readIso =>
    if m.isCd2352 then blockByte d m.tab (e.offset / 2048) k else image d m.tab (e.offset + k)
  | _ => image d m.tab (e.offset + k)

/-- The event asks for whole blocks or sectors, and no address of them wraps. -/
def Fitting (m : Mounted) (e : Event) : Prop :=
  match e.command with
  | some .readIso =>
    if m.isCd2352 then
      e.offset % 2048 = 0 ∧ e.size % 2048 = 0 ∧
        (e.offset / 2048 + e.size / 2048) * 2352 < 2 ^ 32
    else NoWrap m.tab (e.offset + e.size) ∧ e.offset + e.size < 2 ^ 64
  | some .readCdIso2352 =>
    e.offset % 2352 = 0 ∧ e.size % 2352 = 0 ∧
      (e.offset / 2352 + max (e.size / 2352) 64) * 2352 < 2 ^ 32
  | _ => True

/-- The sections lie in the 32-bit sector numbers of the device, the event fits, and
it is not served from a cache whose last refill failed. -/
structure Addressed (m : Mounted) (s : Driver) (v : Received) : Prop where
  sections : ∀ t ∈ m.tab, t.IsHole ∨ t.Fits
  fitting : Fitting m v.event
  fresh : v.event.command = some .readCdIso2352 → Unspoiled s v.raw

/-- Every state of the thread after any events that `allowed` lets through. -/
inductive Receives (d : Storage) (m : Mounted) (allowed : Driver → Received → Prop) :
    Driver → Prop where
  | start : Receives d m allowed Driver.start
  | receive {s s' : Driver} {v : Received} {ret : Int} {io : Io} :
      Receives d m allowed s → allowed s v → receive d m s v = some (ret, io, s') →
      Receives d m allowed s'

/-- A reply of 0 means that every storage read of the event succeeded. -/
def Honest (s : Driver) (v : Received) : Option (Int × Io × Driver) → Prop
  | none => True
  | some (ret, io, _) => ret = 0 → AllOk (v.io s) io

/-- It means, besides, that the requested bytes are in the buffer and that nothing
else was stored to. -/
def Delivers (d : Storage) (m : Mounted) (s : Driver) (v : Received) :
    Option (Int × Io × Driver) → Prop
  | none => True
  | some (ret, io, _) => ret = 0 → AllOk (v.io s) io ∧
      io.mem = fill v.mem v.event.buf (wantedSize v.event) (wanted d m v.event)

/-- The device answers every read that the blocks of the event need. -/
def BlocksAnswered (d : Storage) (m : Mounted) (s : Driver) (e : Event) : Prop :=
  e.command = some .readIso → m.isCd2352 = true →
    Answered d s.calls.length
      ((cd2048Requests (u32 (e.offset / 2048)) (e.size / 2048)).flatMap (requestReads m.tab))

section Events
variable (d : Storage) {m : Mounted} {s : Driver} {v : Received}

/-! ## The status -/

/-- Off the block reads the status of the storage reads reaches the reply. -/
theorem handleEvent_status {alloc : Allocation} {cd : CdState} {io : Io} {e : Event}
    {r : Int × Io × CdState} (plain : ¬ (e.command = some .readIso ∧ m.isCd2352 = true))
    (run : handleEvent d m alloc cd io e = some r) (zero : r.1 = 0) : AllOk io r.2.1 := by
  unfold handleEvent at run
  split at run
  · rename_i command
    have image : ¬ m.isCd2352 = true := fun raw => plain ⟨command, raw⟩
    obtain ⟨reply, served, status⟩ := processReadIsoCmd_status d m.tab io e.buf e.offset e.size
    rw [if_neg image, served, Option.map_some] at run
    have same := Option.some.inj run
    rw [← same] at zero ⊢
    rcases status with ⟨-, ok⟩ | ⟨failed, -⟩
    · exact ok
    · exact absurd (failed.symm.trans zero) (by decide)
  · exact processReadCd2352Cmd_status d m.tab alloc cd io _ _ _ run zero
  · have same := Option.some.inj run
    rw [← same]
    exact AllOk.of_same rfl

theorem receive_honest (plain : ¬ (v.event.command = some .readIso ∧ m.isCd2352 = true)) :
    Honest s v (receive d m s v) := by
  unfold receive
  cases run : handleEvent d m v.alloc s.cd (v.io s) v.event with
  | none => trivial
  | some r => exact fun zero => handleEvent_status d plain run zero

/-- A block read is always answered with 0. -/
theorem receive_blocks (command : v.event.command = some .readIso) (raw : m.isCd2352 = true) :
    ∃ io s', receive d m s v = some (0, io, s') ∧
      (AllOk (v.io s) io ↔ BlocksAnswered d m s v.event) := by
  obtain ⟨io, served, follows⟩ := @processReadCd2048Cmd_follows d m.tab (v.io s)
    v.event.buf (u32 (v.event.offset / 2048)) (v.event.size / 2048)
  have run : handleEvent d m v.alloc s.cd (v.io s) v.event = some (0, io, s.cd) := by
    simp only [handleEvent, command, raw, if_true, served, Option.map_some]
  refine ⟨io, _, by rw [receive, run, Option.map_some], follows.allOk_iff.trans ?_⟩
  exact ⟨fun answered _ _ => answered, fun answered => answered command raw⟩

theorem receive_honest_iff_answered :
    Honest s v (receive d m s v) ↔ BlocksAnswered d m s v.event := by
  by_cases blocks : v.event.command = some .readIso ∧ m.isCd2352 = true
  · obtain ⟨io, s', run, same⟩ := receive_blocks d (s := s) blocks.1 blocks.2
    rw [run]
    exact ⟨fun honest => same.mp (honest rfl), fun answered _ => same.mpr answered⟩
  · exact ⟨fun _ command raw => absurd ⟨command, raw⟩ blocks, fun _ => receive_honest d blocks⟩

/-! ## The bytes -/

theorem receive_raw (command : v.event.command = some .readCdIso2352) :
    receive d m s v = CacheCoherence.serve d m.tab s v.raw := by
  unfold receive handleEvent CacheCoherence.serve
  simp only [command]
  cases run : processReadCd2352Cmd d m.tab v.alloc s.cd (v.io s) v.event.buf
      (u32 (v.event.offset / 2352)) (v.event.size / 2352) with
  | none =>
    have same : processReadCd2352Cmd d m.tab v.raw.alloc s.cd ⟨v.raw.mem, [], s.calls⟩ v.raw.buf
        v.raw.sector v.raw.count = none := run
    rw [same]
    rfl
  | some r =>
    have same : processReadCd2352Cmd d m.tab v.raw.alloc s.cd ⟨v.raw.mem, [], s.calls⟩ v.raw.buf
        v.raw.sector v.raw.count = some r := run
    rw [same]
    rfl

theorem raw_inRange (command : v.event.command = some .readCdIso2352)
    (fitting : Fitting m v.event) :
    v.raw.InRange ∧ v.raw.sector * 2352 = v.event.offset ∧ v.raw.count * 2352 = v.event.size := by
  unfold Fitting at fitting
  rw [command] at fitting
  obtain ⟨offset, size, low⟩ := fitting
  have exact' : u32 (v.event.offset / 2352) = v.event.offset / 2352 := u32_exact (by omega)
  unfold CdRequest.InRange Received.raw
  dsimp only
  rw [exact']
  exact ⟨low, by omega, by omega⟩

theorem handleEvent_cd {alloc : Allocation} {cd : CdState} {io : Io} {e : Event}
    {r : Int × Io × CdState} (other : e.command ≠ some .readCdIso2352)
    (run : handleEvent d m alloc cd io e = some r) : r.2.2 = cd := by
  unfold handleEvent at run
  split at run
  · split at run
    · obtain ⟨reply, -, same⟩ := Option.map_eq_some_iff.mp run
      rw [← same]
    · obtain ⟨reply, -, same⟩ := Option.map_eq_some_iff.mp run
      rw [← same]
  · rename_i command
    exact absurd command other
  · cases run
    rfl

/-- An event that fits leaves the cache holding what its tag names, or spoiled. -/
theorem receive_held (inv : s.spoiled = false → Held d m.tab s.cd) (ok : Addressed m s v)
    {ret : Int} {io : Io} {s' : Driver} (step : receive d m s v = some (ret, io, s')) :
    s'.spoiled = false → Held d m.tab s'.cd := by
  by_cases raw : v.event.command = some .readCdIso2352
  · rw [receive_raw d raw] at step
    obtain ⟨ret', io', s'', run, -, -, held⟩ := serve_spec d ok.sections inv
      (raw_inRange raw ok.fitting).1 (ok.fresh raw)
    rw [run] at step
    cases step
    exact held
  · obtain ⟨r, run, same⟩ := Option.map_eq_some_iff.mp step
    have kept := handleEvent_cd d raw run
    rw [if_neg raw, kept] at same
    cases same
    exact inv

theorem receives_held (run : Receives d m (Addressed m) s) :
    s.spoiled = false → Held d m.tab s.cd := by
  induction run with
  | start => exact fun _ => rfl
  | receive _ ok step ih => exact receive_held d ih ok step

/-- Storage reads that all succeed leave the requested bytes in the buffer. -/
theorem receive_bytes (inv : s.spoiled = false → Held d m.tab s.cd) (ok : Addressed m s v)
    {ret : Int} {io : Io} {s' : Driver} (step : receive d m s v = some (ret, io, s'))
    (zero : ret = 0) (all : AllOk (v.io s) io) :
    io.mem = fill v.mem v.event.buf (wantedSize v.event) (wanted d m v.event) := by
  have fitting := ok.fitting
  by_cases raw : v.event.command = some .readCdIso2352
  · obtain ⟨range, offset, size⟩ := raw_inRange raw fitting
    rw [receive_raw d raw] at step
    obtain ⟨ret', io', s'', run, -, bytes, -⟩ := serve_spec d ok.sections inv range (ok.fresh raw)
    rw [run] at step
    cases step
    rw [bytes zero, offset, size]
    unfold wantedSize wanted
    simp only [raw]
    rfl
  · obtain ⟨r, run, same⟩ := Option.map_eq_some_iff.mp step
    have hio : r.2.1 = io := congrArg (fun x => x.2.1) same
    have small : v.event.size < 2 ^ 32 := Nat.mod_lt _ (by decide)
    unfold handleEvent at run
    split at run
    · rename_i command
      unfold Fitting at fitting
      unfold wantedSize wanted
      simp only [command] at fitting ⊢
      by_cases disc : m.isCd2352 = true
      · rw [if_pos disc] at run fitting
        simp only [if_pos disc]
        obtain ⟨offset, size, low⟩ := fitting
        have exact' : u32 (v.event.offset / 2048) = v.event.offset / 2048 := u32_exact (by omega)
        have whole : v.event.size / 2048 * 2048 = v.event.size := by omega
        have room : v.event.size / 2048 * 2048 < 2 ^ 32 := by
          rw [whole]
          exact small
        rw [exact'] at run
        obtain ⟨io', served, -, bytes, -⟩ := processReadCd2048Cmd_servesBlocks d ok.sections
          (v.io s) v.event.buf room low
        rw [served, Option.map_some] at run
        cases run
        subst hio
        rw [bytes all, whole]
        rfl
      · rw [if_neg disc] at run fitting
        simp only [if_neg disc]
        obtain ⟨ret', io', new, served, calls, bytes, -⟩ := processReadIsoCmd_servesImage d
          ok.sections (v.io s) v.event.buf fitting.1 small fitting.2
        rw [served, Option.map_some] at run
        cases run
        subst hio
        obtain ⟨more, hmore, good⟩ := all
        have same' : more = new := List.append_cancel_left (hmore.symm.trans calls)
        exact (bytes (same' ▸ good)).2
    · rename_i command
      exact absurd command raw
    · rename_i noBlocks noRaw
      have none' : wantedSize v.event = 0 := by
        unfold wantedSize
        split
        · exact absurd ‹_› noBlocks
        · exact absurd ‹_› noRaw
        · rfl
      cases run
      subst hio
      rw [none', fill_zero]
      rfl

end Events

/-- In every state of the thread, for every event: the reply can be trusted if and
only if the device answers all reads of the blocks that the event asks for on a
2352-byte disc; there is no such condition on the other events. In a run whose
events fit, the requested bytes are then in the buffer. -/
theorem receive_honest_iff (d : Storage) (m : Mounted) (s : Driver) (v : Received) :
    (Honest s v (receive d m s v) ↔ BlocksAnswered d m s v.event) ∧
      (Receives d m (Addressed m) s → Addressed m s v →
        (Delivers d m s v (receive d m s v) ↔ BlocksAnswered d m s v.event)) := by
  refine ⟨receive_honest_iff_answered d, fun run ok => ?_⟩
  rw [← receive_honest_iff_answered d]
  cases step : receive d m s v with
  | none => exact Iff.rfl
  | some r =>
    obtain ⟨ret, io, s'⟩ := r
    constructor
    · exact fun delivered zero => (delivered zero).1
    · exact fun honest zero =>
        ⟨honest zero, receive_bytes d (receives_held d run) ok step zero (honest zero)⟩

theorem answered_constant (b : UInt8) (k : Nat) (reads : List SectorRead) :
    Answered (constantDisk b) k reads := by
  induction reads generalizing k with
  | nil => trivial
  | cons r rest ih =>
    have full : ((constantDisk b).reply k r.sector r.count).full r.count = true := by
      simp [constantDisk, StorageReply.full]
    exact ⟨full, ih (k + 1)⟩

def rawDisc : Mounted := ⟨[⟨0, 100⟩], true⟩

def rawSector : Received := ⟨⟨2, 3 * 2352, 2352⟩, fun _ => 0, ⟨0, fun _ => 0⟩⟩

def threeBlocks : Received := ⟨⟨0, 2048, 3 * 2048⟩, fun _ => 0, ⟨0, fun _ => 0⟩⟩

/-- Behind a raw sector, which fills the cache, three blocks from block 1 on are
delivered. -/
theorem receive_honest_iff_threeBlocks :
    ∃ s, Receives (constantDisk 7) rawDisc (Addressed rawDisc) s ∧ s.cd.tag = 3 ∧
      Delivers (constantDisk 7) rawDisc s threeBlocks
        (receive (constantDisk 7) rawDisc s threeBlocks) := by
  have run : (receive (constantDisk 7) rawDisc Driver.start rawSector).map
      (fun r => (r.1, r.2.2.cd.tag)) = some (0, 3) := by
    decide +kernel
  obtain ⟨⟨ret, io, s⟩, first, last⟩ := Option.map_eq_some_iff.mp run
  simp only [Prod.mk.injEq] at last
  have raw : Addressed rawDisc Driver.start rawSector :=
    ⟨by decide, ⟨by decide, by decide, by decide⟩, fun _ wrong => Bool.noConfusion wrong⟩
  have blocks : Addressed rawDisc s threeBlocks :=
    ⟨by decide, ⟨by decide, by decide, by decide⟩, fun wrong => absurd wrong (by decide)⟩
  have reach : Receives (constantDisk 7) rawDisc (Addressed rawDisc) s :=
    Receives.start.receive raw first
  exact ⟨s, reach, last.2, ((receive_honest_iff (constantDisk 7) rawDisc s threeBlocks).2 reach
    blocks).mpr fun _ _ => answered_constant 7 _ _⟩

/-- Every storage read of this disk fails. -/
def deadDisk : Storage := ⟨fun _ _ => 0, fun _ _ _ => ⟨-1, 0, fun _ => 0⟩⟩

def oneBlock : Received := ⟨⟨0, 0, 2048⟩, fun _ => 0, ⟨0, fun _ => 0⟩⟩

/-- The first event asks for a 2048-byte block of a 2352-byte disc: the read fails,
the reply is 0. -/
theorem receive_hides_failure :
    ¬ Honest Driver.start oneBlock (receive deadDisk ⟨[⟨0, 100⟩], true⟩ Driver.start oneBlock) := by
  have run : (receive deadDisk ⟨[⟨0, 100⟩], true⟩ Driver.start oneBlock).map
      (fun r => (r.1, r.2.1.calls.map ReadCall.ok)) = some (0, [false]) := by
    decide +kernel
  obtain ⟨⟨ret, io, s⟩, reply, hr⟩ := Option.map_eq_some_iff.mp run
  rw [reply]
  intro honest
  simp only [Prod.mk.injEq] at hr
  obtain ⟨new, hnew, good⟩ := honest hr.1
  have same : io.calls = new := hnew
  obtain ⟨c, hc, bad⟩ := List.mem_map.mp (hr.2 ▸ List.mem_singleton_self false)
  rw [good c (same ▸ hc)] at bad
  cases bad

end EventReplies
