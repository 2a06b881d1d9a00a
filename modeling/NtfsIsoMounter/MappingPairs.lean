import NtfsIsoMounter.SignedBytes
import NtfsIsoMounter.GekkoIo

/-!
# Runlists and their mapping pairs

`runlist.c` keeps where the clusters of an attribute are as a list of runs. On the volume the list
is an array of pairs: the length of a run and the change from the place of the run before it, each
in as few bytes as it needs, under a byte with both sizes. A runlist is here with the element of
length zero that ends it; a runlist that is not there is empty.
-/

namespace MappingPairs

open SignedBytes GekkoIo

/-- `LCN_HOLE` -/
def lcnHole : Int := -1

/-- `LCN_RL_NOT_MAPPED` -/
def lcnRlNotMapped : Int := -2

/-- `LCN_ENOENT` -/
def lcnEnoent : Int := -3

/-- `LCN_EINVAL` -/
def lcnEinval : Int := -4

structure RunlistElement where
  vcn : Int
  lcn : Int
  length : Int
  deriving DecidableEq, Repr

/-- What an `s64` holds. -/
def s64 (n : Int) : Int := n.bmod (2 ^ 64)

/-! ## Sizes -/

/-- The loop of `ntfs_get_nr_significant_bytes`. -/
def bytesAbove : Nat → Nat → Nat
  | 0, _ => 0
  | turns + 1, l => if l / 256 = 0 then 1 else bytesAbove turns (l / 256) + 1

/-- `ntfs_get_nr_significant_bytes` -/
def getNrSignificantBytes (n : Int) : Nat :=
  let l := (if n < 0 then -n - 1 else n).toNat
  if l ≥ 128 then 1 + bytesAbove 8 (l / 128) else 1

/-- `while (rl->length && start_vcn >= rl[1].vcn)`; no result where the list is not ended. -/
def skipTo (startVcn : Int) : List RunlistElement → Option (List RunlistElement)
  | [] => none
  | [r] => if r.length = 0 then some [r] else none
  | r :: r' :: rest =>
    if r.length ≠ 0 ∧ startVcn ≥ r'.vcn then skipTo startVcn (r' :: rest)
    else some (r :: r' :: rest)

/-- A run that cannot be stored. -/
def RunlistElement.bad (r : RunlistElement) : Prop := r.length < 0 ∨ r.lcn < lcnHole

instance (r : RunlistElement) : Decidable r.bad := inferInstanceAs (Decidable (_ ∨ _))

def RunlistElement.error (r : RunlistElement) : Errno :=
  if r.lcn = lcnRlNotMapped then .einval else .eio

/-- The place of a run is stored. -/
def RunlistElement.placed (majorVer : Nat) (r : RunlistElement) : Prop :=
  r.lcn ≥ 0 ∨ majorVer < 3

instance (majorVer : Nat) (r : RunlistElement) : Decidable (r.placed majorVer) :=
  inferInstanceAs (Decidable (_ ∨ _))

/-- What of a run is behind a cluster. -/
def RunlistElement.behind (r : RunlistElement) (startVcn : Int) : RunlistElement :=
  let delta := startVcn - r.vcn
  ⟨startVcn, if r.lcn ≥ 0 then r.lcn + delta else r.lcn, r.length - delta⟩

/-- The bytes of a pair. -/
def pairSize (majorVer : Nat) (prevLcn : Int) (r : RunlistElement) : Nat :=
  1 + getNrSignificantBytes r.length +
    if r.placed majorVer then getNrSignificantBytes (s64 (r.lcn - prevLcn)) else 0

def nextLcn (majorVer : Nat) (prevLcn : Int) (r : RunlistElement) : Int :=
  if r.placed majorVer then r.lcn else prevLcn

/-- The loop over the full runs of `ntfs_get_size_for_mapping_pairs`. -/
def sizeRuns (majorVer maxSize : Nat) :
    List RunlistElement → Int → Nat → Option (Except Errno Nat)
  | [], _, _ => none
  | r :: rest, prevLcn, rls =>
    if r.length = 0 ∨ ¬ rls ≤ maxSize then some (.ok rls)
    else if r.bad then some (.error r.error)
    else sizeRuns majorVer maxSize rest (nextLcn majorVer prevLcn r)
      (rls + pairSize majorVer prevLcn r)

/-- `ntfs_get_size_for_mapping_pairs` -/
def getSizeForMappingPairs (majorVer : Nat) (rl : List RunlistElement) (startVcn : Int)
    (maxSize : Nat) : Option (Except Errno Nat) :=
  if startVcn < 0 then some (.error .einval)
  else if rl = [] then some (if startVcn ≠ 0 then .error .einval else .ok 1)
  else
    (skipTo startVcn rl).bind fun rl =>
      match rl with
      | [] => none
      | r :: rest =>
        if (r.length = 0 ∧ startVcn > r.vcn) ∨ startVcn < r.vcn then some (.error .einval)
        else if startVcn > r.vcn then
          if r.bad then some (.error r.error)
          else sizeRuns majorVer maxSize rest (nextLcn majorVer 0 (r.behind startVcn))
            (1 + pairSize majorVer 0 (r.behind startVcn))
        else sizeRuns majorVer maxSize (r :: rest) 0 1

/-! ## Writing -/

/-- The loop of `ntfs_write_significant_bytes`, with room for so many bytes. -/
def significantRest : Nat → Nat → Int → Option (List UInt8)
  | 0, _, _ => some []
  | turns + 1, room, l =>
    if l > 0x7f ∨ l < -0x80 then
      if room = 0 then none
      else (significantRest turns (room - 1) (l / 256)).map (low (l / 256) :: ·)
    else some []

/-- `ntfs_write_significant_bytes` -/
def writeSignificantBytes (room : Nat) (n : Int) : Option (List UInt8) :=
  if room = 0 then none else (significantRest 7 (room - 1) n).map (low n :: ·)

/-- The pair of a run, where it and a byte behind it are inside of the room that is left. -/
def writePair (majorVer left : Nat) (prevLcn : Int) (r : RunlistElement) : Option (List UInt8) :=
  (writeSignificantBytes (left - 1) r.length).bind fun len =>
    (if r.placed majorVer then
      writeSignificantBytes (left - 1 - len.length) (s64 (r.lcn - prevLcn))
    else some []).bind fun lcn =>
      if len.length + lcn.length + 1 > left - 1 then none
      else some (UInt8.ofNat (lcn.length * 16 + len.length) :: (len ++ lcn))

/-- What is returned, the array up to where it has been written, and the runs from `*stop_rl` on
where it has been set. -/
abbrev Built := Except Errno Unit × List UInt8 × Option (List RunlistElement)

/-- The loop over the full runs of `ntfs_mapping_pairs_build`. -/
def buildRuns (majorVer : Nat) : List RunlistElement → Nat → Int → Option Built
  | [], _, _ => none
  | r :: rest, left, prevLcn =>
    if r.length = 0 then some (.ok (), [0], some (r :: rest))
    else if r.bad then some (.error r.error, [], none)
    else
      match writePair majorVer left prevLcn r with
      | none => some (.error .enospc, [0], some (r :: rest))
      | some pair =>
        (buildRuns majorVer rest (left - pair.length) (nextLcn majorVer prevLcn r)).map fun built =>
          (built.1, pair ++ built.2.1, built.2.2)

/-- `ntfs_mapping_pairs_build` -/
def mappingPairsBuild (majorVer dstLen : Nat) (rl : List RunlistElement) (startVcn : Int) :
    Option Built :=
  if startVcn < 0 then some (.error .einval, [], none)
  else if rl = [] then
    if startVcn ≠ 0 then some (.error .einval, [], none)
    else if dstLen < 1 then some (.error .enospc, [], some [])
    else some (.ok (), [0], some [])
  else
    (skipTo startVcn rl).bind fun rl =>
      match rl with
      | [] => none
      | r :: rest =>
        if (r.length = 0 ∧ startVcn > r.vcn) ∨ startVcn < r.vcn then
          some (.error .einval, [], none)
        else if startVcn > r.vcn then
          if r.bad then some (.error r.error, [], none)
          else
            match writePair majorVer dstLen 0 (r.behind startVcn) with
            | none => some (.error .enospc, [0], some (r :: rest))
            | some pair =>
              (buildRuns majorVer rest (dstLen - pair.length)
                (nextLcn majorVer 0 (r.behind startVcn))).map fun built =>
                  (built.1, pair ++ built.2.1, built.2.2)
        else buildRuns majorVer (r :: rest) dstLen 0

/-! ## Reading -/

/-- The bytes of a number from its lowest one on. -/
def signed : List UInt8 → Int
  | [] => 0
  | [b] => single b
  | b :: bs => s64 (signed bs * 256 + b.toNat)

/-- Some bytes of the array; the one behind it is `beyond`. -/
def field (beyond : UInt8) (buf : List UInt8) (start n : Nat) : List UInt8 :=
  (List.range n).map fun i => buf.getD (start + i) beyond

/-- The loop of `ntfs_mapping_pairs_decompress`: the runs and the cluster behind them. -/
def readPairs (beyond : UInt8) :
    Nat → List UInt8 → Int → Int → Option (Except Errno (List RunlistElement × Int))
  | 0, _, _, _ => none
  | _ + 1, [], _, _ => some (.error .eio)
  | turns + 1, h :: tail, vcn, lcn =>
    let buf := h :: tail
    let b := h.toNat % 16
    let b2 := h.toNat / 16
    if h = 0 then some (.ok ([], vcn))
    else if b > buf.length then some (.error .eio)
    else
      let length := if b = 0 then -1 else signed (field beyond buf 1 b)
      if length < 0 then some (.error .eio)
      else if b2 ≠ 0 ∧ b + b2 > buf.length then some (.error .eio)
      else
        let lcn' := if b2 = 0 then lcn else s64 (lcn + signed (field beyond buf (1 + b) b2))
        if b2 ≠ 0 ∧ lcn' < -1 then some (.error .eio)
        else
          let r := ⟨vcn, if b2 = 0 then lcnHole else lcn', length⟩
          (readPairs beyond turns (buf.drop (b + b2 + 1)) (s64 (vcn + length)) lcn').map fun e =>
            e.map fun p => (r :: p.1, p.2)

/-- The fields of a non-resident `ATTR_RECORD`, and the bytes it consists of. -/
structure AttrRecord where
  nonResident : Bool
  lowestVcn : Int
  highestVcn : Int
  allocatedSize : Int
  mappingPairsOffset : Nat
  bytes : List UInt8

/-- The elements behind the runs, to the end of the list. -/
def closing (clusterSizeBits : Nat) (attr : AttrRecord) (vcn : Int) :
    Except Errno (List RunlistElement) :=
  if attr.highestVcn ≠ 0 ∧ vcn - 1 ≠ attr.highestVcn then .error .eio
  else if attr.lowestVcn = 0 then
    let maxCluster := (attr.allocatedSize + 2 ^ clusterSizeBits - 1) / 2 ^ clusterSizeBits - 1
    if attr.highestVcn ≠ 0 ∧ attr.highestVcn < maxCluster then
      .ok [⟨vcn, lcnRlNotMapped, maxCluster - attr.highestVcn⟩,
        ⟨vcn + (maxCluster - attr.highestVcn), lcnEnoent, 0⟩]
    else if attr.highestVcn ≠ 0 ∧ attr.highestVcn > maxCluster then .error .eio
    else .ok [⟨vcn, lcnEnoent, 0⟩]
  else .ok [⟨vcn, lcnRlNotMapped, 0⟩]

/-- The array that a list is put into. Its position `rlpos` is a `u16`: behind 2^16 elements the
first ones are overwritten. -/
def overlaid (rl : List RunlistElement) : List RunlistElement :=
  let turns := rl.length / 2 ^ 16
  rl.drop (turns * 2 ^ 16) ++
    ((rl.drop ((turns - 1) * 2 ^ 16)).take (2 ^ 16)).drop (rl.length % 2 ^ 16)

/-- `ntfs_mapping_pairs_decompress` without a runlist to insert into. -/
def mappingPairsDecompress (clusterSizeBits : Nat) (beyond : UInt8) (attr : AttrRecord) :
    Option (Except Errno (List RunlistElement)) :=
  if attr.nonResident = false ∨ attr.lowestVcn < 0 then some (.error .einval)
  else if attr.mappingPairsOffset > attr.bytes.length then some (.error .eio)
  else
    let buf := attr.bytes.drop attr.mappingPairsOffset
    (readPairs beyond (buf.length + 1) buf attr.lowestVcn 0).map fun e =>
      e.bind fun p =>
        (closing clusterSizeBits attr p.2).map fun ends =>
          overlaid ((if attr.lowestVcn ≠ 0 then [⟨0, lcnRlNotMapped, attr.lowestVcn⟩] else []) ++
            p.1 ++ ends)

/-! ## Looking clusters up -/

/-- The loop of `ntfs_rl_vcn_to_lcn`. -/
def findLcn (vcn : Int) : List RunlistElement → Option Int
  | [] => none
  | [r] => if r.length = 0 then some (if r.lcn < 0 then r.lcn else lcnEnoent) else none
  | r :: r' :: rest =>
    if r.length = 0 then some (if r.lcn < 0 then r.lcn else lcnEnoent)
    else if vcn < r'.vcn then some (if r.lcn ≥ 0 then r.lcn + (vcn - r.vcn) else r.lcn)
    else findLcn vcn (r' :: rest)

/-- `ntfs_rl_vcn_to_lcn` -/
def rlVcnToLcn (rl : List RunlistElement) (vcn : Int) : Option Int :=
  if vcn < 0 then some lcnEinval
  else
    match rl with
    | [] => some lcnRlNotMapped
    | r :: rest => if vcn < r.vcn then some lcnEnoent else findLcn vcn (r :: rest)

/-! ## Several records -/

/-- `INT_MAX` -/
def intMax : Nat := 2 ^ 31 - 1

/-- The part of an attribute that a record holds. -/
structure Extent where
  lowestVcn : Int
  highestVcn : Int
  pairs : List UInt8

/-- `stop_rl ? stop_rl->vcn : 0`, where `*stop_rl` has been set. -/
def stopVcn : Option (List RunlistElement) → Int
  | some (r :: _) => r.vcn
  | _ => 0

/-- The loop of `ntfs_attr_update_mapping_pairs_i` over the records that the attribute has, with the
room for pairs that each can have: the parts in them, whether nothing is left for other records,
and where to go on. -/
def oldRecords (majorVer : Nat) (rl : List RunlistElement) :
    List Nat → Option (List RunlistElement) → Int →
      Option (Except Errno (List Extent × Bool × Int))
  | [], _, vcn => some (.ok ([], false, vcn))
  | expMaxMpSize :: rooms, stopRl, vcn =>
    (getSizeForMappingPairs majorVer (stopRl.getD []) vcn expMaxMpSize).bind fun e =>
      match e with
      | .error e => some (.error e)
      | .ok mpSize =>
        (mappingPairsBuild majorVer (min mpSize expMaxMpSize) rl vcn).bind fun built =>
          let vcn' := stopVcn built.2.2
          let extent := ⟨vcn, vcn' - 1, built.2.1⟩
          match built.1 with
          -- the records behind this one are removed
          | .ok () => some (.ok ([extent], true, vcn'))
          | .error .enospc =>
            (oldRecords majorVer rl rooms built.2.2 vcn').map fun e =>
              e.map fun p => (extent :: p.1, p.2)
          | .error e => some (.error e)

/-- The loop of `ntfs_attr_update_mapping_pairs_i` that puts the pairs into new records, with the
room for them in every record that can be allocated. `ntfs_attrlist_entry_add` refuses a part with
the same `lowest_vcn` as one that is there. -/
def newRecords (majorVer : Nat) (rl : List RunlistElement) :
    List Nat → List Int → Int → Option (Except Errno (List Extent))
  | [], _, _ => some (.error .enospc)
  | curMaxMpSize :: rooms, listed, vcn =>
    (getSizeForMappingPairs majorVer rl vcn intMax).bind fun e =>
      match e with
      | .error e => some (.error e)
      | .ok mpSize =>
        if vcn ∈ listed then some (.error .eexist)
        else
          (mappingPairsBuild majorVer (min mpSize curMaxMpSize) rl vcn).bind fun built =>
            let extent := ⟨vcn, stopVcn built.2.2 - 1, built.2.1⟩
            match built.1 with
            | .ok () => some (.ok [extent])
            | .error .enospc =>
              (newRecords majorVer rl rooms (vcn :: listed) (stopVcn built.2.2)).map fun e =>
                e.map (extent :: ·)
            | .error e => some (.error e)

/-- The records that the attribute has are filled from a cluster on, and then new ones. -/
def fillRecords (majorVer : Nat) (rl : List RunlistElement) (old new : List Nat) (vcn : Int) :
    Option (Except Errno (List Extent)) :=
  (oldRecords majorVer rl old (some rl) vcn).bind fun e =>
    match e with
    | .error e => some (.error e)
    | .ok (extents, true, _) => some (.ok extents)
    | .ok (extents, false, vcn) =>
      (newRecords majorVer rl new (extents.map (·.lowestVcn)) vcn).map fun e =>
        e.map (extents ++ ·)

/-- The parts that an attribute has after `ntfs_attr_update_mapping_pairs_i` from the record that
holds `fromVcn` on, which starts at `lowestVcn`. Without any record the sizes cannot be updated. -/
def updateRecords (majorVer : Nat) (rl : List RunlistElement) (old new : List Nat)
    (fromVcn lowestVcn : Int) : Option (Except Errno (List Extent)) :=
  if old = [] then some (.error .enoent)
  else if fromVcn = 0 then fillRecords majorVer rl old new 0
  else
    (rlVcnToLcn rl lowestVcn).bind fun lcn =>
      if lcn = lcnEinval then some (.error .eio)
      else if lcn = lcnEnoent ∨ lcn = lcnRlNotMapped then some (.ok [])
      else fillRecords majorVer rl old new lowestVcn

end MappingPairs
