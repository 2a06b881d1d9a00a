import NtfsIsoMounter.ByteOrder
import NtfsIsoMounter.CueSheets

/-!
# The tracks of a disc

`cobra_get_cd_td` asks the drive for the table of contents twice, first for its header and
then for all of it, and searches the descriptors for each track and for the lead-out. How many
descriptors there are is computed from the length in the header, less two.
-/

namespace CdTracks

open ByteOrder CueSheets

/-! ## The replies -/

/-- `ScsiTocResponse` -/
structure Toc where
  tocLength : UInt16
  firstTrack : UInt8
  lastTrack : UInt8

/-- `ScsiTrackDescriptor`, without its reserved members. -/
structure Descriptor where
  adrControl : UInt8
  trackNumber : UInt8
  trackStartAddr : UInt32

inductive TdRet where
  | ok
  | einval
  | enotsup
  | kernel (ret : Int)
deriving DecidableEq

/-- The replies of a drive: the header, and the buffer of `toc_length + 2` bytes behind the
second command. A command that fails has a number for its result. -/
structure TocDrive where
  header : Except Int Toc
  response : (h : Toc) → Except Int (Vector UInt8 (h.tocLength.toNat + 2))

/-- `tracks[j]`; nothing where it does not lie inside the response. -/
def descriptor (response : List UInt8) (j : Nat) : Option Descriptor :=
  if 4 + (j + 1) * 8 ≤ response.length then
    some ⟨response.getD (4 + j * 8 + 1) 0, response.getD (4 + j * 8 + 2) 0,
      UInt32.ofNat (beValue ((response.drop (4 + j * 8 + 4)).take 4))⟩
  else none

/-- `(toc_length - 2)` as an unsigned 32-bit number. -/
def tocSize (h : Toc) : Nat := (h.tocLength.toNat + 2 ^ 32 - 2) % 2 ^ 32

/-- `cd_total_tracks` -/
def cdTotalTracks (h : Toc) : Nat := tocSize h / 8

def trackDef (t : Descriptor) : TrackDef :=
  let trackType := t.adrControl &&& 0xD
  ⟨t.trackStartAddr, trackType = 0 ∨ trackType = 1 ∨ trackType = 8 ∨ trackType = 9⟩

/-! ## The searches -/

/-- The loop over `j` with `left` descriptors to go; no result where it looks at one outside
the response. -/
def findTrack (response : List UInt8) (number : Nat) : Nat → Nat → Option (Option Descriptor)
  | 0, _ => some none
  | left + 1, j => do
    let t ← descriptor response j
    if t.trackNumber.toNat = number then some (some t) else findTrack response number left (j + 1)

/-- The loop over `i` with `left` tracks to go: the definitions stored by then, and whether all
of the tracks were found. -/
def readTracks (response : List UInt8) (total maxTracks : Nat) :
    Nat → Nat → (Nat → TrackDef) → Option (Bool × (Nat → TrackDef))
  | 0, _, td => some (true, td)
  | left + 1, i, td => do
    match ← findTrack response i total 0 with
    | none => some (false, td)
    | some t =>
      readTracks response total maxTracks left (i + 1)
        (if i ≤ maxTracks then Function.update td (i - 1) (trackDef t) else td)

/-- What is returned, the array of definitions, and what is stored at the two other pointers. -/
structure TdResult where
  ret : TdRet
  td : Nat → TrackDef
  numTracks : Option Nat
  lbaEnd : Option UInt32

def leadOut : Nat := 0xAA

/-- `given` tells whether `td` and `num_tracks` are, `lbaEnd` whether `lba_end` is. -/
def cobraGetCdTd (d : TocDrive) (given lbaEnd : Bool) (td : Nat → TrackDef) (maxTracks : UInt32) :
    Option TdResult :=
  if !given then some ⟨.einval, td, none, none⟩
  else
    match d.header with
    | .error ret => some ⟨.kernel ret, td, none, none⟩
    | .ok tocInfo =>
      match d.response tocInfo with
      | .error ret => some ⟨.kernel ret, td, none, none⟩
      | .ok buffer => do
        let response := buffer.toList
        if tocInfo.firstTrack ≠ 1 then some ⟨.enotsup, td, none, none⟩
        else if tocSize tocInfo < tocInfo.lastTrack.toNat * 8 then some ⟨.enotsup, td, none, none⟩
        else
          let total := cdTotalTracks tocInfo
          let (found, td) ← readTracks response total maxTracks.toNat tocInfo.lastTrack.toNat 1 td
          if !found then some ⟨.enotsup, td, none, none⟩
          else
            match ← findTrack response leadOut total 0 with
            | none => some ⟨.enotsup, td, none, none⟩
            | some t =>
              some ⟨.ok, td, some (min tocInfo.lastTrack.toNat maxTracks.toNat),
                if lbaEnd then some t.trackStartAddr else none⟩

/-! ## The descriptors of a response -/

/-- The descriptors that lie inside a response. -/
def descriptors (response : List UInt8) : List Descriptor :=
  (List.range ((response.length - 4) / 8)).filterMap (descriptor response)

/-- The first descriptor with a number. -/
def firstNumbered (response : List UInt8) (number : Nat) : Option Descriptor :=
  (descriptors response).find? fun t => t.trackNumber.toNat = number

section Search
variable {response : List UInt8}

theorem descriptor_inside {j : Nat} (inside : j < (response.length - 4) / 8) :
    ∃ t, descriptor response j = some t := by
  rw [descriptor, if_pos (by omega)]
  exact ⟨_, rfl⟩

/-- As long as it stays inside the search finds the first of the descriptors. -/
theorem findTrack_eq (number left j : Nat) (inside : j + left ≤ (response.length - 4) / 8) :
    findTrack response number left j =
      some (((List.range' j left).filterMap (descriptor response)).find?
        fun t => t.trackNumber.toNat = number) := by
  induction left generalizing j with
  | zero => rfl
  | succ left ih =>
    have here : j < (response.length - 4) / 8 := by omega
    obtain ⟨t, here⟩ := descriptor_inside here
    rw [List.range'_succ, List.filterMap_cons_some here, List.find?_cons]
    by_cases same : t.trackNumber.toNat = number
    · simp only [findTrack, here, Option.bind_eq_bind, Option.bind_some, same, if_true, decide_true]
    · simp only [findTrack, here, Option.bind_eq_bind, Option.bind_some, same, if_false,
        decide_false]
      exact ih (j + 1) (by omega)

theorem findTrack_first (number : Nat) :
    findTrack response number ((response.length - 4) / 8) 0 =
      some (firstNumbered response number) := by
  rw [findTrack_eq number _ 0 (by omega), firstNumbered, descriptors, List.range_eq_range']

theorem firstNumbered_isSome {number : Nat} : (firstNumbered response number).isSome ↔
    ∃ t ∈ descriptors response, t.trackNumber.toNat = number := by
  rw [firstNumbered, List.find?_isSome]
  simp only [decide_eq_true_eq]

/-- The definitions of the tracks from `i` on are stored in their places, as many as the array
holds, if all of them are there. -/
theorem readTracks_spec (maxTracks left i : Nat) (positive : 1 ≤ i) (td : Nat → TrackDef) :
    ∃ found td', readTracks response ((response.length - 4) / 8) maxTracks left i td =
        some (found, td') ∧
      (found = true ↔ ∀ k, i ≤ k → k < i + left → (firstNumbered response k).isSome) ∧
      (∀ k, k + 1 < i ∨ maxTracks ≤ k → td' k = td k) ∧
      (found = true → ∀ k, i ≤ k → k < i + left → k ≤ maxTracks →
        ∃ t, firstNumbered response k = some t ∧ td' (k - 1) = trackDef t) := by
  induction left generalizing i td with
  | zero =>
    refine ⟨true, td, rfl, iff_of_true rfl fun k low high => absurd low (by omega), fun _ _ => rfl,
      fun _ k low high => absurd low (by omega)⟩
  | succ left ih =>
    simp only [readTracks, findTrack_first, Option.bind_eq_bind, Option.bind_some]
    cases first : firstNumbered response i with
    | none =>
      refine ⟨false, td, rfl, ?_, fun _ _ => rfl, fun found => absurd found Bool.false_ne_true⟩
      refine iff_of_false Bool.false_ne_true fun all => ?_
      have here := all i le_rfl (by omega)
      rw [first] at here
      cases here
    | some t =>
      obtain ⟨found, td', run, all, kept, stored⟩ := ih (i + 1) (by omega)
        (if i ≤ maxTracks then Function.update td (i - 1) (trackDef t) else td)
      refine ⟨found, td', run, ?_, ?_, ?_⟩
      · rw [all]
        constructor
        · intro behind k low high
          by_cases own : k = i
          · rw [own, first]
            rfl
          · exact behind k (by omega) (by omega)
        · exact fun every k low high => every k (by omega) (by omega)
      · intro k outside
        rw [kept k (by omega)]
        split
        · exact Function.update_of_ne (by omega) _ _
        · rfl
      · intro found' k low high fits
        by_cases own : k = i
        · refine ⟨t, by rw [own, first], ?_⟩
          rw [own, kept (i - 1) (by omega), if_pos (by omega), Function.update_self]
        · exact stored found' k (by omega) (by omega) fits

end Search

theorem descriptors_length (response : List UInt8) :
    (descriptors response).length = (response.length - 4) / 8 := by
  have all : ∀ j ∈ List.range ((response.length - 4) / 8), (descriptor response j).isSome := by
    intro j hj
    obtain ⟨t, here⟩ := descriptor_inside (List.mem_range.mp hj)
    rw [here]
    rfl
  rw [descriptors, List.filterMap_length_eq_length.mpr all, List.length_range]

/-! ## The result -/

/-- What the claim of success means, and what is stored then. -/
structure Answered (h : Toc) (response : List UInt8) (lbaEnd : Bool) (td : Nat → TrackDef)
    (maxTracks : Nat) (r : TdResult) : Prop where
  ret : r.ret = .ok ↔ h.firstTrack = 1 ∧ h.lastTrack.toNat ≤ (descriptors response).length ∧
    (∀ k, 1 ≤ k → k ≤ h.lastTrack.toNat → ∃ t ∈ descriptors response, t.trackNumber.toNat = k) ∧
    ∃ t ∈ descriptors response, t.trackNumber.toNat = leadOut
  tracks : r.ret = .ok → ∀ k, 1 ≤ k → k ≤ min h.lastTrack.toNat maxTracks →
    ∃ t, firstNumbered response k = some t ∧ r.td (k - 1) = trackDef t
  outside : ∀ k, maxTracks ≤ k → r.td k = td k
  numTracks : r.ret = .ok → r.numTracks = some (min h.lastTrack.toNat maxTracks)
  leadOut : r.ret = .ok → lbaEnd = true →
    ∃ t, firstNumbered response leadOut = some t ∧ r.lbaEnd = some t.trackStartAddr

section Replies
variable {d : TocDrive} {h : Toc} {buffer : Vector UInt8 (h.tocLength.toNat + 2)}
  (header : d.header = .ok h) (response : d.response h = .ok buffer) (lbaEnd : Bool)
  (td : Nat → TrackDef) (maxTracks : UInt32)
include header response

/-- A length below two counts descriptors that are not there. -/
theorem cobraGetCdTd_outside (first : h.firstTrack = 1) (short : h.tocLength.toNat < 2) :
    cobraGetCdTd d true lbaEnd td maxTracks = none := by
  have size : 0xFFFFFFFE ≤ tocSize h := by
    rw [tocSize]
    omega
  have enough : ¬ tocSize h < h.lastTrack.toNat * 8 := by
    have low := h.lastTrack.toNat_lt
    omega
  obtain ⟨left, total⟩ : ∃ left, cdTotalTracks h = left + 1 := by
    refine ⟨tocSize h / 8 - 1, ?_⟩
    rw [cdTotalTracks]
    omega
  have nothing : descriptor buffer.toList 0 = none := by
    rw [descriptor, if_neg]
    rw [Vector.length_toList]
    omega
  have search : ∀ number, findTrack buffer.toList number (left + 1) 0 = none := by
    intro number
    rw [findTrack, nothing]
    rfl
  simp only [cobraGetCdTd, header, response, Bool.not_true, Bool.false_eq_true, if_false, first,
    ne_eq, not_true_eq_false, enough, total]
  cases last : h.lastTrack.toNat with
  | zero => simp only [readTracks, Option.bind_eq_bind, Option.bind_some, search, Option.bind_none,
      Bool.not_true, Bool.false_eq_true, if_false]
  | succ n => simp only [readTracks, Option.bind_eq_bind, search, Option.bind_none]

theorem cobraGetCdTd_answered (counted : h.firstTrack = 1 → 2 ≤ h.tocLength.toNat) :
    ∃ r, cobraGetCdTd d true lbaEnd td maxTracks = some r ∧
      Answered h buffer.toList lbaEnd td maxTracks.toNat r := by
  have length := @Vector.length_toList _ _ buffer
  obtain ⟨bytes, hbytes⟩ : ∃ bytes, bytes = buffer.toList := ⟨_, rfl⟩
  rw [← hbytes] at length ⊢
  have held := descriptors_length bytes
  by_cases first : h.firstTrack = 1
  · have long := counted first
    have wide := h.tocLength.toNat_lt
    have size : tocSize h = h.tocLength.toNat - 2 := by
      rw [tocSize]
      omega
    have total : cdTotalTracks h = (bytes.length - 4) / 8 := by
      rw [cdTotalTracks, size, length]
      congr 1
    by_cases few : tocSize h < h.lastTrack.toNat * 8
    · refine ⟨⟨.enotsup, td, none, none⟩, ?_, ?_⟩
      · simp only [cobraGetCdTd, header, response, Bool.not_true, Bool.false_eq_true, if_false,
          first, ne_eq, not_true_eq_false, few, if_true]
      · refine ⟨iff_of_false nofun ?_, nofun, fun _ _ => rfl, nofun, nofun⟩
        rintro ⟨-, enough, -⟩
        omega
    · obtain ⟨found, td', run, all, kept, stored⟩ :=
        @readTracks_spec bytes maxTracks.toNat h.lastTrack.toNat 1 le_rfl td
      have behind : cobraGetCdTd d true lbaEnd td maxTracks =
          if !found then some ⟨.enotsup, td', none, none⟩
          else match firstNumbered bytes leadOut with
            | none => some ⟨.enotsup, td', none, none⟩
            | some t => some ⟨.ok, td', some (min h.lastTrack.toNat maxTracks.toNat),
                if lbaEnd then some t.trackStartAddr else none⟩ := by
        simp only [cobraGetCdTd, header, response, Bool.not_true, Bool.false_eq_true, if_false,
          first, ne_eq, not_true_eq_false, few, total, ← hbytes, run, Option.bind_eq_bind,
          Option.bind_some, findTrack_first]
      have every : (∀ k, 1 ≤ k → k < 1 + h.lastTrack.toNat → (firstNumbered bytes k).isSome) ↔
          ∀ k, 1 ≤ k → k ≤ h.lastTrack.toNat →
            ∃ t ∈ descriptors bytes, t.trackNumber.toNat = k := by
        constructor
        · exact fun each k low high => firstNumbered_isSome.mp (each k low (by omega))
        · exact fun each k low high => firstNumbered_isSome.mpr (each k low (by omega))
      have outside : ∀ k, maxTracks.toNat ≤ k → td' k = td k := fun k high => kept k (Or.inr high)
      rw [behind]
      cases found with
      | false =>
        refine ⟨_, rfl, iff_of_false nofun ?_, nofun, outside, nofun, nofun⟩
        rintro ⟨-, -, each, -⟩
        exact Bool.false_ne_true (all.mpr (every.mpr each))
      | true =>
        have each := every.mp (all.mp rfl)
        cases ending : firstNumbered bytes leadOut with
        | none =>
          refine ⟨_, rfl, iff_of_false nofun ?_, nofun, outside, nofun, nofun⟩
          rintro ⟨-, -, -, last⟩
          have there := firstNumbered_isSome.mpr last
          rw [ending] at there
          cases there
        | some t =>
          refine ⟨_, rfl, iff_of_true rfl ⟨first, by omega, each, ?_⟩, ?_, outside, fun _ => rfl,
            ?_⟩
          · exact firstNumbered_isSome.mp (by rw [ending]; rfl)
          · exact fun _ k low high => stored rfl k low (by omega) (by omega)
          · rintro - rfl
            exact ⟨t, ending, rfl⟩
  · refine ⟨⟨.enotsup, td, none, none⟩, ?_, ?_⟩
    · simp only [cobraGetCdTd, header, response, Bool.not_true, Bool.false_eq_true, if_false,
        ne_eq, first, not_false_eq_true, if_true]
    · exact ⟨iff_of_false nofun fun good => first good.1, nofun, fun _ _ => rfl, nofun, nofun⟩

end Replies

/-- A response that tells of three tracks and of the end, in another order. -/
def threeTracksBytes : List UInt8 :=
  [0, 34, 1, 3, 0, 0x10, 3, 0, 0, 0, 0x40, 0, 0, 0x14, 1, 0, 0, 0, 0, 0,
    0, 0x14, 0xAA, 0, 0, 1, 0x12, 0x34, 0, 0x10, 2, 0, 0, 0, 0x20, 0]

def threeTracks : TocDrive where
  header := .ok ⟨34, 1, 3⟩
  response := fun _ => .ok (Vector.ofFn fun i => threeTracksBytes.getD i 0)

/-- A header whose length counts nothing, not even the two bytes behind it. -/
def emptyToc : TocDrive where
  header := .ok ⟨0, 1, 1⟩
  response := fun _ => .ok (Vector.replicate _ 0)

end CdTracks
