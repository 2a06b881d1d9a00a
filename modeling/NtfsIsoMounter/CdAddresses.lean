import NtfsIsoMounter.CommandThread

/-!
# Addresses of raw sectors

The size of the disc is a 64-bit number, the sector numbers of a request and
their products with 2352 have 32 bits. For every event the requests handed to
`process_read_iso_cmd` are listed as the code computes them and as they are
meant; the first are the second with their offsets cut to 32 bits.
-/

namespace CdAddresses

open SectionTables IsoReads CdSectorCache CommandThread

/-- The offset and the size `process_read_iso_cmd` is called with. -/
structure IsoRequest where
  offset : Nat
  size : Nat
  deriving DecidableEq

/-- A request whose offset was computed in 32 bits. -/
def IsoRequest.cut (r : IsoRequest) : IsoRequest := ⟨u32 r.offset, r.size⟩

/-! ## Block reads -/

/-- The requests of `readBlocks`. -/
def blockRequests : Nat → Nat → List IsoRequest
  | 0, _ => []
  | rem + 1, startSector =>
    ⟨u32 (u32 (startSector * 2352) + 24), 2048⟩ :: blockRequests rem (u32 (startSector + 1))

/-- The request for the raw sectors that fit. -/
def bulkRequest (fit startSector : Nat) : Option IsoRequest :=
  if fit > 0 then some ⟨u32 (startSector * 2352), u32 (fit * 2352)⟩ else none

def cd2048Requests (startSector sectorCount : Nat) : List IsoRequest :=
  let fit := u32 (sectorCount * 2048) / 2352
  let rem := u32 (sectorCount + 2 ^ 32 - fit)
  (bulkRequest fit startSector).toList ++ blockRequests rem (u32 (startSector + fit))

/-- Requests served one behind the other. -/
def serve (d : Storage) (tab : List Section) : List IsoRequest → Io → Nat → Option Io
  | [], io, _ => some io
  | r :: rest, io, out =>
    (processReadIsoCmd d tab io out r.offset r.size).bind
      (fun reply => serve d tab rest reply.2 (out + r.size))

theorem readBlocks_eq_serve (d : Storage) (tab : List Section) (rem : Nat) (io : Io)
    (out startSector : Nat) :
    readBlocks d tab rem io out startSector =
      serve d tab (blockRequests rem startSector) io out := by
  induction rem generalizing io out startSector with
  | zero => rfl
  | succ rem ih =>
    rw [readBlocks, blockRequests, serve]
    congr 1
    funext reply
    exact ih reply.2 (out + 2048) (u32 (startSector + 1))

/-- The command serves the requests of the list and no other. -/
theorem processReadCd2048Cmd_requests (d : Storage) (tab : List Section) (io : Io)
    (buf startSector sectorCount : Nat) :
    ∃ fit bulk blocks, cd2048Requests startSector sectorCount = Option.toList bulk ++ blocks ∧
      processReadCd2048Cmd d tab io buf startSector sectorCount =
        ((match bulk with
          | none => some io
          | some r => (serve d tab [r] io buf).map (fun io => compact fit io buf buf)).bind
            (fun io => serve d tab blocks io (buf + fit * 2048))).map (fun io => (0, io)) := by
  refine ⟨u32 (sectorCount * 2048) / 2352,
    bulkRequest (u32 (sectorCount * 2048) / 2352) startSector, _, rfl, ?_⟩
  simp only [processReadCd2048Cmd, readBlocks_eq_serve, bulkRequest]
  by_cases some' : u32 (sectorCount * 2048) / 2352 > 0
  · simp only [if_pos some', serve]
    cases processReadIsoCmd d tab io buf (u32 (startSector * 2352))
        (u32 (u32 (sectorCount * 2048) / 2352 * 2352)) with
    | none => rfl
    | some reply => rfl
  · simp only [if_neg some']

/-! ## Raw reads -/

/-- The sector the command goes on to read from. -/
def planSector : Plan → Option Nat
  | .missing _ _ sector _ => some sector
  | _ => none

/-- The sector from which on a raw read is not served from the cache, if the
command gets as far as reading. -/
def firstMissing (alloc : Allocation) (cd : CdState) (sector remaining : Nat) : Option Nat :=
  if remaining ≤ cdCacheSize then
    if cd.cache.isNone ∧ alloc.ret ≠ 0 then none
    else planSector (planCached cd blankIo 0 sector remaining)
  else some sector

def cd2352Request (alloc : Allocation) (cd : CdState) (sector remaining : Nat) :
    Option IsoRequest :=
  (firstMissing alloc cd sector remaining).map (fun sector => ⟨u32 (sector * 2352),
    if remaining ≤ cdCacheSize then cdCacheSize * 2352 else u32 (remaining * 2352)⟩)

/-- Where the command goes on does not depend on the buffer. -/
theorem planSector_planCached (cd : CdState) (io io' : Io) (buf buf' sector remaining : Nat) :
    planSector (planCached cd io buf sector remaining) =
      planSector (planCached cd io' buf' sector remaining) := by
  simp only [planCached]
  cases cacheCopy cd.tag sector remaining with
  | none => rfl
  | some copy =>
    cases cd.cache with
    | none => simp only; split <;> rfl
    | some cache => simp only; split <;> [rfl; (split <;> rfl)]

/-- The command makes the one request there is, if any, and nothing else of it
depends on the disc. -/
theorem processReadCd2352Cmd_request (alloc : Allocation) (cd : CdState) (io : Io)
    (buf sector remaining : Nat) :
    match cd2352Request alloc cd sector remaining with
    | none => ∃ result, ∀ d tab,
        processReadCd2352Cmd d tab alloc cd io buf sector remaining = result
    | some r => ∃ io' buf' rest, ∀ d tab,
        processReadCd2352Cmd d tab alloc cd io buf sector remaining =
          (processReadIsoCmd d tab io' buf' r.offset r.size).map rest := by
  by_cases small : remaining ≤ cdCacheSize
  · have same := planSector_planCached cd blankIo io 0 buf sector remaining
    simp only [cd2352Request, firstMissing, processReadCd2352Cmd, if_pos small, same]
    cases planCached cd io buf sector remaining with
    | served io' =>
      simp only [planSector, ite_self, Option.map_none]
      exact ⟨_, fun _ _ => rfl⟩
    | wild =>
      simp only [planSector, ite_self, Option.map_none]
      exact ⟨_, fun _ _ => rfl⟩
    | missing io' buf' sector' left =>
      simp only [refill, fillCache, planSector]
      cases cd.cache with
      | none =>
        by_cases failed : alloc.ret ≠ 0
        · simp only [Option.isNone_none, failed, true_and, if_true, Option.map_none, ne_eq,
            not_false_eq_true]
          exact ⟨_, fun _ _ => rfl⟩
        · simp only [failed, and_false, if_false, Option.map_some]
          exact ⟨_, _, _, fun _ _ => rfl⟩
      | some cache =>
        simp only [Option.isNone_some, Bool.false_eq_true, false_and, if_false, Option.map_some]
        exact ⟨_, _, _, fun _ _ => rfl⟩
  · simp only [cd2352Request, firstMissing, processReadCd2352Cmd, if_neg small, Option.map_some]
    exact ⟨_, _, _, fun _ _ => rfl⟩

/-! ## What is meant -/

/-- The disc size announced to the system. -/
def discsize (m : Mounted) : Nat :=
  let discsize := u64 (m.tab.foldl (fun n s => u64 (n + s.size.toNat)) 0 * 512)
  if m.isCd2352 then discsize - discsize % 2352 else discsize

def meantBlocks : Nat → Nat → List IsoRequest
  | 0, _ => []
  | rem + 1, sector => ⟨sector * 2352 + 24, 2048⟩ :: meantBlocks rem (sector + 1)

def meantCd2048 (sector count : Nat) : List IsoRequest :=
  let fit := count * 2048 / 2352
  (if fit > 0 then [⟨sector * 2352, fit * 2352⟩] else []) ++
    meantBlocks (count - fit) (sector + fit)

/-- How many sectors at the start of a request are taken from the cache. -/
def servedHead (cd : CdState) (sector remaining : Nat) : Nat :=
  match cd.cache, cacheCopy cd.tag sector remaining with
  | some _, some copy => if windowDif cd.tag sector ≤ 0 then copy.size else 0
  | _, _ => 0

/-- The first sector to read, which follows those taken from the cache. -/
def firstWanted (alloc : Allocation) (cd : CdState) (sector remaining : Nat) : Option Nat :=
  if (firstMissing alloc cd (u32 sector) remaining).isSome then
    some (if remaining ≤ cdCacheSize then sector + servedHead cd (u32 sector) remaining else sector)
  else none

def meantCd2352 (alloc : Allocation) (cd : CdState) (sector count : Nat) : Option IsoRequest :=
  (firstWanted alloc cd sector count).map (fun sector =>
    ⟨sector * 2352, if count ≤ cdCacheSize then cdCacheSize * 2352 else count * 2352⟩)

/-- The requests of an event as the code computes them. -/
def passed (alloc : Allocation) (cd : CdState) (e : Event) : List IsoRequest :=
  match e.command with
  | some .readIso => cd2048Requests (u32 (e.offset / 2048)) (e.size / 2048)
  | some .readCdIso2352 =>
    (cd2352Request alloc cd (u32 (e.offset / 2352)) (e.size / 2352)).toList
  | _ => []

/-- The requests of an event without wrap-around. -/
def meant (alloc : Allocation) (cd : CdState) (e : Event) : List IsoRequest :=
  match e.command with
  | some .readIso => meantCd2048 (e.offset / 2048) (e.size / 2048)
  | some .readCdIso2352 => (meantCd2352 alloc cd (e.offset / 2352) (e.size / 2352)).toList
  | _ => []

/-- The addresses of an event on a raw disc are the ones that are meant, provided
its bytes lie inside the disc. -/
def AddressesExact (tab : List Section) (alloc : Allocation) (cd : CdState) (e : Event) : Prop :=
  e.offset + e.size ≤ discsize ⟨tab, true⟩ → passed alloc cd e = meant alloc cd e

/-- The last address an event needs is below byte 2^32: for blocks that of the
last one, for raw sectors that of the first one not taken from the cache. -/
def Low (alloc : Allocation) (cd : CdState) (e : Event) : Prop :=
  match e.command with
  | some .readIso =>
    e.size < 2048 ∨ (e.offset / 2048 + e.size / 2048 - 1) * 2352 + 24 < 2 ^ 32
  | some .readCdIso2352 =>
    ∀ sector ∈ firstWanted alloc cd (e.offset / 2352) (e.size / 2352), sector * 2352 < 2 ^ 32
  | _ => True

/-! ## The addresses are cut -/

theorem u32_mul (a b : Nat) : u32 (u32 a * b) = u32 (a * b) := Nat.mod_mul_mod a b (2 ^ 32)

theorem u32_add (a b : Nat) : u32 (u32 a + b) = u32 (a + b) := Nat.mod_add_mod a (2 ^ 32) b

theorem blockRequests_cut (rem sector : Nat) :
    blockRequests rem (u32 sector) = (meantBlocks rem sector).map IsoRequest.cut := by
  induction rem generalizing sector with
  | zero => rfl
  | succ rem ih =>
    rw [blockRequests, meantBlocks, List.map_cons, u32_mul, u32_add, u32_add, ih]
    rfl

theorem cd2048Requests_cut (sector : Nat) {count : Nat} (small : count * 2048 < 2 ^ 32) :
    cd2048Requests (u32 sector) count = (meantCd2048 sector count).map IsoRequest.cut := by
  have hroom : u32 (count * 2048) = count * 2048 := u32_exact small
  simp only [cd2048Requests, meantCd2048, hroom]
  obtain ⟨fit, hfit⟩ : ∃ fit, fit = count * 2048 / 2352 := ⟨_, rfl⟩
  have hrem : u32 (count + 2 ^ 32 - fit) = count - fit := by
    unfold u32
    omega
  have hsize : u32 (fit * 2352) = fit * 2352 := u32_exact (by lia)
  rw [← hfit, hrem, u32_add, blockRequests_cut, List.map_append, bulkRequest, u32_mul, hsize]
  by_cases some' : fit > 0
  · rw [if_pos some', if_pos some']
    rfl
  · rw [if_neg some', if_neg some']
    rfl

/-- The window follows the sectors taken from it, wrap-around included. -/
theorem cacheCopy_newsector {tag sector remaining : Nat} {copy : CacheCopy}
    (hit : cacheCopy tag (u32 sector) remaining = some copy) (few : remaining ≤ 64)
    (head : windowDif tag (u32 sector) ≤ 0) (part : remaining ≠ copy.size) :
    u32 (tag + cdCacheSize) = u32 (sector + copy.size) := by
  simp only [cacheCopy] at hit
  split at hit
  · rw [if_neg (by omega)] at hit
    have size := congrArg CacheCopy.size (Option.some.inj hit)
    simp only at size
    rw [← size] at part ⊢
    simp only [windowDif, int32, u32, cdCacheSize] at head part ⊢
    omega
  · cases hit

theorem firstMissing_cut (alloc : Allocation) (cd : CdState) (sector remaining : Nat) :
    firstMissing alloc cd (u32 sector) remaining =
      (firstWanted alloc cd sector remaining).map u32 := by
  rw [firstWanted]
  by_cases few : remaining ≤ cdCacheSize
  · by_cases stops : cd.cache.isNone ∧ alloc.ret ≠ 0
    · have none' : firstMissing alloc cd (u32 sector) remaining = none := by
        rw [firstMissing, if_pos few, if_pos stops]
      rw [none']
      rfl
    · have plan : firstMissing alloc cd (u32 sector) remaining =
          planSector (planCached cd blankIo 0 (u32 sector) remaining) := by
        rw [firstMissing, if_pos few, if_neg stops]
      rw [plan, if_pos few, servedHead, planCached]
      cases hit : cacheCopy cd.tag (u32 sector) remaining with
      | none => cases cd.cache <;> rfl
      | some copy =>
        cases cd.cache with
        | none =>
          simp only
          split <;> rfl
        | some cache =>
          simp only
          by_cases whole : remaining = copy.size
          · rw [if_pos whole]
            rfl
          · rw [if_neg whole]
            by_cases head : windowDif cd.tag (u32 sector) ≤ 0
            · rw [if_pos head, if_pos head]
              exact congrArg some (cacheCopy_newsector hit few head whole)
            · rw [if_neg head, if_neg head]
              rfl
  · rw [firstMissing, if_neg few, Option.isSome_some, if_neg few]
    rfl

theorem cd2352Request_cut (alloc : Allocation) (cd : CdState) (sector : Nat) {count : Nat}
    (small : count * 2352 < 2 ^ 32) :
    cd2352Request alloc cd (u32 sector) count =
      (meantCd2352 alloc cd sector count).map IsoRequest.cut := by
  have hsize : u32 (count * 2352) = count * 2352 := u32_exact small
  rw [cd2352Request, meantCd2352, firstMissing_cut]
  cases firstWanted alloc cd sector count with
  | none => rfl
  | some first =>
    simp only [Option.map_some, IsoRequest.cut, u32_mul, hsize]

theorem passed_cut (alloc : Allocation) (cd : CdState) (e : Event) :
    passed alloc cd e = (meant alloc cd e).map IsoRequest.cut := by
  have size : e.size < 2 ^ 32 := Nat.mod_lt _ (by decide)
  rw [passed, meant]
  split
  · exact cd2048Requests_cut _ (by lia)
  · rw [cd2352Request_cut alloc cd _ (by lia)]
    cases meantCd2352 alloc cd (e.offset / 2352) (e.size / 2352) with
    | none => rfl
    | some r => rfl
  · rfl

/-! ## Where they are exact -/

theorem cut_eq_self_iff (r : IsoRequest) : r.cut = r ↔ r.offset < 2 ^ 32 := by
  constructor
  · intro same
    rw [← same]
    exact Nat.mod_lt _ (by decide)
  · intro low
    rw [IsoRequest.cut, u32_exact low]

theorem meantBlocks_low_iff (rem sector : Nat) :
    (∀ r ∈ meantBlocks rem sector, r.offset < 2 ^ 32) ↔
      rem = 0 ∨ (sector + rem - 1) * 2352 + 24 < 2 ^ 32 := by
  induction rem generalizing sector with
  | zero => simp [meantBlocks]
  | succ rem ih =>
    rw [meantBlocks, List.forall_mem_cons, ih]
    have next : sector + 1 + rem - 1 = sector + (rem + 1) - 1 := by omega
    rw [next]
    constructor
    · rintro ⟨first, none' | last⟩
      · right
        rw [none']
        exact first
      · exact Or.inr last
    · rintro (none' | last)
      · cases none'
      · refine ⟨?_, Or.inr last⟩
        have le : sector ≤ sector + (rem + 1) - 1 := by omega
        have := Nat.mul_le_mul_right 2352 le
        lia

theorem meantCd2048_low_iff (sector count : Nat) :
    (∀ r ∈ meantCd2048 sector count, r.offset < 2 ^ 32) ↔
      count = 0 ∨ (sector + count - 1) * 2352 + 24 < 2 ^ 32 := by
  obtain ⟨fit, hfit⟩ : ∃ fit, fit = count * 2048 / 2352 := ⟨_, rfl⟩
  simp only [meantCd2048, ← hfit, List.forall_mem_append, meantBlocks_low_iff]
  by_cases none' : count = 0
  · subst none'
    simp [hfit]
  · have fewer : fit < count := by omega
    have last : sector + fit + (count - fit) - 1 = sector + count - 1 := by omega
    rw [last]
    constructor
    · rintro ⟨-, hrem | low⟩
      · omega
      · exact Or.inr low
    · rintro (h | low)
      · exact absurd h none'
      · refine ⟨?_, Or.inr low⟩
        split
        · intro r hr
          rw [List.mem_singleton.mp hr]
          have le : sector ≤ sector + count - 1 := by omega
          have := Nat.mul_le_mul_right 2352 le
          change sector * 2352 < 2 ^ 32
          lia
        · rintro r ⟨⟩

theorem meant_low_iff (alloc : Allocation) (cd : CdState) (e : Event) :
    (∀ r ∈ meant alloc cd e, r.offset < 2 ^ 32) ↔ Low alloc cd e := by
  rw [meant, Low]
  split
  · rw [meantCd2048_low_iff]
    have none' : e.size / 2048 = 0 ↔ e.size < 2048 := by omega
    rw [none']
  · rw [meantCd2352]
    cases firstWanted alloc cd (e.offset / 2352) (e.size / 2352) with
    | none => simp
    | some sector => simp
  · simp

/-- For every event on a raw disc: the addresses are exact if and only if the last
address of an event inside the disc is below byte 2^32. -/
theorem addressesExact_iff (tab : List Section) (alloc : Allocation) (cd : CdState) (e : Event) :
    AddressesExact tab alloc cd e ↔
      (e.offset + e.size ≤ discsize ⟨tab, true⟩ → Low alloc cd e) := by
  apply imp_congr_right
  intro _
  calc passed alloc cd e = meant alloc cd e
      ↔ (meant alloc cd e).map IsoRequest.cut = (meant alloc cd e).map id := by
        rw [passed_cut, List.map_id]
    _ ↔ ∀ r ∈ meant alloc cd e, r.cut = r := List.map_inj_left
    _ ↔ ∀ r ∈ meant alloc cd e, r.offset < 2 ^ 32 := by simp only [cut_eq_self_iff]
    _ ↔ Low alloc cd e := meant_low_iff alloc cd e

/-- A disc of somewhat more than 4 GiB: the raw sector 1826092 lies inside it, its
byte address does not fit in 32 bits. -/
theorem addresses_cut_past_4gib :
    ¬ AddressesExact [⟨0, 0x900000⟩] ⟨0, fun _ => 0⟩ CdState.start
      ⟨2, 1826092 * 2352, 2352⟩ := by
  intro exact'
  have same := exact' (by decide +kernel)
  revert same
  decide +kernel

end CdAddresses
