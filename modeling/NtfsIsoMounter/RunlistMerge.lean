import NtfsIsoMounter.MappingPairs

/-!
# Merging runlists

`ntfs_runlists_merge` puts the runs of one runlist into a hole or an unmapped region of another one,
or behind its end. It moves elements around in memory, so that a list is here the memory it is in:
elements behind the one of length zero are what has been there before. Memory that is allocated is
there.
-/

namespace MappingPairs

open GekkoIo

/-! ## Elements in memory -/

/-- An element of a list; what is behind the list is not one that is looked for. -/
def cell (rl : List RunlistElement) (i : Nat) : RunlistElement := rl.getD i ⟨0, 0, 0⟩

/-- Elements are copied over those that are there. -/
def put (base : List RunlistElement) (dst : Nat) (src : List RunlistElement) :
    List RunlistElement :=
  base.take dst ++ src ++ base.drop (dst + src.length)

/-- `ntfs_rl_mm` -/
def rlMm (base : List RunlistElement) (dst src size : Nat) : List RunlistElement :=
  if dst ≠ src ∧ size > 0 then put base dst ((base.drop src).take size) else base

/-- `ntfs_rl_realloc` for a list that grows. What new elements hold is not told. -/
def rlRealloc (rl : List RunlistElement) (newSize : Nat) : List RunlistElement :=
  rl ++ List.replicate (newSize - rl.length) ⟨0, 0, 0⟩

/-- The first element of a list that is not passed, from some element on. -/
def scan (stops : RunlistElement → Bool) (rl : List RunlistElement) (i : Nat) : Nat :=
  i + (rl.drop i).findIdx stops

/-- `ntfs_rl_are_mergeable` -/
def rlAreMergeable (dst src : RunlistElement) : Bool :=
  if dst.lcn = lcnRlNotMapped ∧ src.lcn = lcnRlNotMapped then true
  else if dst.vcn + dst.length ≠ src.vcn then false
  else if dst.lcn ≥ 0 ∧ src.lcn ≥ 0 ∧ dst.lcn + dst.length = src.lcn then true
  else dst.lcn = lcnHole ∧ src.lcn = lcnHole

/-- `__ntfs_rl_merge` -/
def RunlistElement.merge (dst src : RunlistElement) : RunlistElement :=
  { dst with length := dst.length + src.length }

/-- The cluster behind an element. -/
def RunlistElement.stop (r : RunlistElement) : Int := r.vcn + r.length

/-! ## The four places -/

/-- `ntfs_rl_append` -/
def rlAppend (dst : List RunlistElement) (dsize : Nat) (src : List RunlistElement) (loc : Nat) :
    List RunlistElement :=
  let ssize := src.length
  let right : Bool :=
    decide (loc + 1 < dsize) && rlAreMergeable (cell src (ssize - 1)) (cell dst (loc + 1))
  let src := if right then src.modify (ssize - 1) (·.merge (cell dst (loc + 1))) else src
  let marker := loc + ssize + 1
  let rl := rlRealloc dst (dsize + ssize - right.toNat)
  let rl := rlMm rl marker (loc + 1 + right.toNat) (dsize - loc - 1 - right.toNat)
  let rl := put rl (loc + 1) src
  let rl := rl.modify loc fun r => { r with length := (cell rl (loc + 1)).vcn - r.vcn }
  if (cell rl marker).lcn = lcnEnoent then
    rl.modify marker fun r => { r with vcn := (cell rl (marker - 1)).stop }
  else rl

/-- `ntfs_rl_insert` -/
def rlInsert (dst : List RunlistElement) (dsize : Nat) (src : List RunlistElement) (loc : Nat) :
    List RunlistElement :=
  let ssize := src.length
  let before := cell dst (loc - 1)
  let left : Bool := decide (loc ≠ 0) && rlAreMergeable before (cell src 0)
  let mergedLength := if left then before.length + (cell src 0).length else before.length
  let disc : Bool :=
    if loc = 0 then (cell src 0).vcn > 0 else (cell src 0).vcn > before.vcn + mergedLength
  let rl := rlRealloc dst (dsize + ssize - left.toNat + disc.toNat)
  let rl := if left then rl.modify (loc - 1) (·.merge (cell src 0)) else rl
  let marker := loc + ssize - left.toNat + disc.toNat
  let rl := rlMm rl marker loc (dsize - loc)
  let rl := put rl (loc + disc.toNat) (src.drop left.toNat)
  let rl := rl.modify marker fun r => { r with vcn := (cell rl (marker - 1)).stop }
  let rl :=
    if (cell rl marker).lcn = lcnHole ∨ (cell rl marker).lcn = lcnRlNotMapped then
      rl.modify marker fun r => { r with length := (cell rl (marker + 1)).vcn - r.vcn }
    else rl
  if disc then
    let vcn := if loc > 0 then (cell rl (loc - 1)).stop else 0
    rl.modify loc fun _ => ⟨vcn, lcnRlNotMapped, (cell rl (loc + 1)).vcn - vcn⟩
  else rl

/-- `ntfs_rl_replace` -/
def rlReplace (dst : List RunlistElement) (dsize : Nat) (src : List RunlistElement) (loc : Nat) :
    List RunlistElement :=
  let ssize := src.length
  let right : Bool :=
    decide (loc + 1 < dsize) && rlAreMergeable (cell src (ssize - 1)) (cell dst (loc + 1))
  let left : Bool := decide (loc > 0) && rlAreMergeable (cell dst (loc - 1)) (cell src 0)
  let rl := rlRealloc dst (dsize + ssize - 1 - left.toNat - right.toNat)
  let src := if right then src.modify (ssize - 1) (·.merge (cell dst (loc + 1))) else src
  let rl := if left then rl.modify (loc - 1) (·.merge (cell src 0)) else rl
  let tail := loc + right.toNat + 1
  let marker := loc + ssize - left.toNat
  let rl := rlMm rl marker tail (dsize - tail)
  let rl := put rl loc (src.drop left.toNat)
  if dsize - tail > 0 ∧ (cell rl marker).lcn = lcnEnoent then
    rl.modify marker fun r => { r with vcn := (cell rl (marker - 1)).stop }
  else rl

/-- `ntfs_rl_split` -/
def rlSplit (dst : List RunlistElement) (dsize : Nat) (src : List RunlistElement) (loc : Nat) :
    List RunlistElement :=
  let ssize := src.length
  let rl := rlRealloc dst (dsize + ssize + 1)
  let rl := rlMm rl (loc + 1 + ssize) loc (dsize - loc)
  let rl := put rl (loc + 1) src
  let rl := rl.modify loc fun r => { r with length := (cell rl (loc + 1)).vcn - r.vcn }
  let rl := rl.modify (loc + ssize + 1) fun r => { r with vcn := (cell rl (loc + ssize)).stop }
  rl.modify (loc + ssize + 1) fun r =>
    { r with length := (cell rl (loc + ssize + 2)).vcn - r.vcn }

/-! ## The merge -/

/-- The last element, from one on down, that is mapped. -/
def lastMapped (rl : List RunlistElement) : Nat → Nat
  | 0 => 0
  | i + 1 => if (cell rl (i + 1)).lcn < lcnHole then lastMapped rl i else i + 1

/-- The end of a source that ends the file is put behind the list. -/
def markEnd (rl : List RunlistElement) (dend : Nat) (markerVcn : Int) : List RunlistElement :=
  let ds := scan (·.length = 0) rl dend
  if (cell rl ds).vcn > markerVcn then rl
  else if (cell rl ds).vcn = markerVcn then rl.modify ds fun r => { r with lcn := lcnEnoent }
  else
    let free := (cell rl ds).lcn = lcnEnoent
    let ds := if free then ds - 1 else ds
    let added := (cell rl ds).lcn ≠ lcnRlNotMapped
    let rl := if added ∧ ¬ free then rlRealloc rl (ds + 2) else rl
    let vcn := (cell rl ds).stop
    let ds := if added then ds + 1 else ds
    let rl := if added then
        rl.modify ds fun r => ⟨if free then r.vcn else vcn, lcnRlNotMapped, r.length⟩
      else rl
    let rl := rl.modify ds fun r => { r with length := markerVcn - r.vcn }
    put (rlRealloc rl (ds + 2)) (ds + 1) [⟨markerVcn, lcnEnoent, 0⟩]

/-- `ntfs_runlists_merge` -/
def runlistsMerge (drl srl : List RunlistElement) : Except Errno (List RunlistElement) :=
  if srl = [] then .ok drl
  else if drl = [] then
    let first := (cell srl 0).vcn
    .ok (if first ≠ 0 then ⟨0, lcnRlNotMapped, first⟩ :: srl else srl)
  else
    let si := scan (fun r => ¬ (r.length ≠ 0 ∧ r.lcn < lcnHole)) srl 0
    if (cell srl si).length = 0 then .error .einval
    else
      let di := scan (fun r => r.length = 0 ∨ r.stop > (cell srl si).vcn) drl 0
      let d := cell drl di
      if d.vcn = (cell srl si).vcn ∧ d.lcn ≥ 0 ∧ (cell srl si).lcn ≥ 0 then .error .erange
      else
        let send := scan (·.length = 0) srl si
        let dend := scan (·.length = 0) drl di
        let marker := (cell srl send).lcn = lcnEnoent
        let last := cell srl (send - 1)
        let start := d.lcn < lcnRlNotMapped ∨ d.vcn = (cell srl si).vcn
        let finish := d.lcn ≥ lcnRlNotMapped ∧ d.stop ≤ last.stop
        let ss := lastMapped srl send - si + 1
        let ss := if finish ∧ d.length = 0 then ss + 1 else ss
        let finish := finish ∧ ¬ (marker ∧ d.stop > last.vcn)
        let src := (srl.drop si).take ss
        let rl :=
          if start then
            if finish then rlReplace drl (dend + 1) src di else rlInsert drl (dend + 1) src di
          else if finish then rlAppend drl (dend + 1) src di
          else rlSplit drl (dend + 1) src di
        .ok (if marker then markEnd rl dend (cell srl send).vcn else rl)

/-- `ntfs_mapping_pairs_decompress` -/
def mappingPairsDecompressInto (clusterSizeBits : Nat) (beyond : UInt8) (attr : AttrRecord)
    (oldRl : List RunlistElement) : Option (Except Errno (List RunlistElement)) :=
  (mappingPairsDecompress clusterSizeBits beyond attr).map fun e =>
    e.bind fun rl => if oldRl = [] then .ok rl else runlistsMerge oldRl rl

/-- What `ntfs_attr_map_whole_runlist` keeps from one record to the next. -/
structure Mapping where
  rl : List RunlistElement
  nextVcn : Int
  lastVcn : Int
  highestVcn : Int
  found : Bool

/-- The loop of `ntfs_attr_map_whole_runlist`, with what `ntfs_attr_lookup` finds for a cluster: the
error it is left with, and where it has come to. -/
def mapRecords (clusterSizeBits : Nat) (beyond : UInt8) (lookup : Int → Option AttrRecord) :
    Nat → Mapping → Option (Option Errno × Mapping)
  | 0, _ => none
  | turns + 1, m =>
    (rlVcnToLcn m.rl m.nextVcn).bind fun lcn =>
      match lookup m.nextVcn with
      | none => some (none, m)
      | some a =>
        (if lcn = lcnRlNotMapped then mappingPairsDecompressInto clusterSizeBits beyond a m.rl
        else some (.ok m.rl)).bind fun e =>
          match e with
          | .error e => some (some e, { m with found := true })
          | .ok rl =>
            if m.nextVcn = 0 ∧ a.lowestVcn ≠ 0 then
              some (some .eio, { m with rl := rl, found := true })
            else
              let lastVcn := if m.nextVcn = 0 then a.allocatedSize / 2 ^ clusterSizeBits
                else m.lastVcn
              let m := ⟨rl, a.highestVcn + 1, lastVcn, a.highestVcn, true⟩
              if m.nextVcn ≤ 0 then some (none, m)
              else if m.nextVcn < a.lowestVcn then some (some .eio, m)
              else mapRecords clusterSizeBits beyond lookup turns m

/-- `ntfs_attr_map_whole_runlist` where the runlist has not been mapped, with the runlist that the
attribute has afterwards. -/
def mapWholeRunlist (clusterSizeBits : Nat) (beyond : UInt8) (lookup : Int → Option AttrRecord)
    (turns : Nat) (rl : List RunlistElement) :
    Option (Option Errno × List RunlistElement) :=
  (mapRecords clusterSizeBits beyond lookup turns ⟨rl, 0, 0, 0, false⟩).map fun left =>
    match left with
    | (some e, m) => (some e, m.rl)
    | (none, m) =>
      if m.found = false then (some .enoent, m.rl)
      else if m.highestVcn ≠ 0 ∧ m.highestVcn ≠ m.lastVcn - 1 then (some .eio, m.rl)
      else (none, m.rl)

end MappingPairs
