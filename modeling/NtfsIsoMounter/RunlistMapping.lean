import NtfsIsoMounter.MappingRecords
import NtfsIsoMounter.RunlistUpdates

/-!
# From a runlist to the records of an attribute and back

`ntfs_attr_update_mapping_pairs` puts a runlist into the records of an attribute,
`ntfs_attr_map_whole_runlist` reads them one after the other and merges what they hold. The runlist
that comes out says about every cluster what the one that went in has said, unless the first
record holds nothing but the first cluster.
-/

namespace MappingPairs

open GekkoIo

variable {clusterSizeBits : Nat} {rs : List RunlistElement} {total m : Int}

/-- What is found of an attribute: the records of its parts, and nothing behind them. -/
structure Recorded (clusterSizeBits : Nat) (lookup : Int → Option AttrRecord)
    (extents : List Extent) (total : Int) : Prop where
  stored : ∀ e ∈ extents, ∃ attr, lookup e.lowestVcn = some attr ∧
    Stored clusterSizeBits e attr ∧
    (e.lowestVcn = 0 → attr.allocatedSize = total * 2 ^ clusterSizeBits)
  last : lookup total = none

/-- A runlist that is known up to a cluster, and unmapped from there on. -/
def Mapped (rs : List RunlistElement) (total m : Int) (rl : List RunlistElement) : Prop :=
  ∃ ds stale, rl = ds ++ ⟨total, lcnEnoent, 0⟩ :: stale ∧ Listed ds ⟨total, lcnEnoent, 0⟩ ∧
    (∀ v, 0 ≤ v → v < m → lcnAt v ds = lcnAt v rs) ∧
    (m < total → ∃ pre, ds = pre ++ [⟨m, lcnRlNotMapped, total - m⟩])

/-- The cluster behind the known ones is said to be unmapped. -/
theorem Mapped.next {rl : List RunlistElement} (mapped : Mapped rs total m rl) (first : 0 ≤ m)
    (more : m < total) : rlVcnToLcn rl m = some lcnRlNotMapped := by
  obtain ⟨ds, stale, rfl, listed, -, rest⟩ := mapped
  obtain ⟨pre, rfl⟩ := rest more
  obtain ⟨mid, before, behind⟩ := tiles_append.mp listed.tiles
  have place : m = mid := behind.1
  rw [listed.lookup stale first, lcnAt_append, (lcnAt_eq_none before).mpr (by omega), lcnAt,
    if_pos (show m ≤ m ∧ m < m + (total - m) by omega)]
  rfl

/-- The runs of a part, and what is told of the elements behind them. -/
theorem Runs.mapped {start stop : Int} {rs : List RunlistElement} (runs : Runs start rs stop) :
    ∀ r ∈ rs, lcnHole ≤ r.lcn := fun r inside => (runs.whole r inside).place

variable (majorVer : Nat) (beyond : UInt8)

/-- A record behind the first one is merged into what is known so far. -/
theorem later_mapped {e : Extent} {attr : AttrRecord} {rl : List RunlistElement}
    (mapped : Mapped rs total e.lowestVcn rl) (later : 0 < e.lowestVcn)
    (some' : e.lowestVcn ≤ e.highestVcn) (high : e.highestVcn < total) (far : total < 2 ^ 63)
    (holds : Holds majorVer rs e) (stored : Stored clusterSizeBits e attr) :
    ∃ rl', mappingPairsDecompressInto clusterSizeBits beyond attr rl = some (.ok rl') ∧
      Mapped rs total (e.highestVcn + 1) rl' := by
  obtain ⟨short, part, array, runs, same⟩ := holds
  obtain ⟨ds, stale, rfl, listed, known, rest⟩ := mapped
  obtain ⟨pre, rfl⟩ := rest (by omega)
  have base : ¬ attr.lowestVcn = 0 := by
    rw [stored.lowest]
    omega
  have ended : closing clusterSizeBits attr (e.highestVcn + 1) =
      .ok [⟨e.highestVcn + 1, lcnRlNotMapped, 0⟩] := by
    rw [closing, stored.highest, if_neg (by omega), if_neg base]
  have parts : unmappedFront e.lowestVcn = [⟨0, lcnRlNotMapped, e.lowestVcn⟩] :=
    if_pos (by omega)
  have source : Source (unmappedFront e.lowestVcn) part ⟨e.highestVcn + 1, lcnRlNotMapped, 0⟩
      e.lowestVcn := by
    refine ⟨⟨0, le_rfl, unmappedFront_tiles later.le⟩, ?_, ?_, Runs.mapped runs, runs.tiles,
      rfl, rfl⟩
    · rw [parts]
      intro r inside
      rw [List.mem_singleton.mp inside]
      exact show lcnRlNotMapped < lcnHole by decide
    · exact runs.nonempty (by omega)
  have free : lcnRlNotMapped < 0 := by decide
  obtain ⟨rs', stale', made, listed', told, rest'⟩ :=
    merged_hole source listed free le_rfl
      (show e.highestVcn + 1 ≤ e.lowestVcn + (total - e.lowestVcn) by omega) stale []
  have whole : unmappedFront e.lowestVcn ++ part ++ [⟨e.highestVcn + 1, lcnRlNotMapped, 0⟩] =
      unmappedFront e.lowestVcn ++ (part ++ ⟨e.highestVcn + 1, lcnRlNotMapped, 0⟩ :: []) :=
    List.append_assoc _ _ _
  have old : pre ++ [⟨e.lowestVcn, lcnRlNotMapped, total - e.lowestVcn⟩] ++
      ⟨total, lcnEnoent, 0⟩ :: stale = pre ++ ⟨e.lowestVcn, lcnRlNotMapped,
        total - e.lowestVcn⟩ :: ([] ++ ⟨total, lcnEnoent, 0⟩ :: stale) := by
    rw [List.append_assoc]
    rfl
  refine ⟨rs' ++ ⟨total, lcnEnoent, 0⟩ :: stale', ?_, rs', stale', rfl, listed',
    fun v first before => ?_, fun more => ?_⟩
  · rw [mappingPairsDecompressInto, decompress_eq majorVer beyond stored runs later.le (by omega)
      array short, ended, Option.map_some]
    show some (if _ then _ else runlistsMerge _ (_ ++ part ++ [_])) = _
    rw [whole, old, made, if_neg (by simp)]
  · rw [told]
    by_cases inside : e.lowestVcn ≤ v ∧ v < e.highestVcn + 1
    · rw [if_pos inside]
      exact same v inside.1 (by omega)
    · rw [if_neg inside]
      exact known v first (by omega)
  · have longer : e.highestVcn + 1 < e.lowestVcn + (total - e.lowestVcn) := by omega
    obtain ⟨before, same'⟩ := rest' longer
    have length : e.lowestVcn + (total - e.lowestVcn) - (e.highestVcn + 1) =
        total - (e.highestVcn + 1) := by omega
    refine ⟨before, same'.trans ?_⟩
    show before ++ [⟨_, _, e.lowestVcn + (total - e.lowestVcn) - (e.highestVcn + 1)⟩] = _
    rw [length]

/-- The clusters of an attribute with space for so many. -/
theorem clusters_exact {attr : AttrRecord}
    (space : attr.allocatedSize = total * 2 ^ clusterSizeBits) :
    attr.clusters clusterSizeBits = total ∧
      attr.allocatedSize / 2 ^ clusterSizeBits = total := by
  have positive : (0 : Int) < 2 ^ clusterSizeBits := by positivity
  rw [AttrRecord.clusters, space]
  constructor
  · rw [Int.add_sub_assoc, Int.add_comm, Int.add_mul_ediv_right _ _ positive.ne',
      Int.ediv_eq_zero_of_lt (by omega) (by omega), Int.zero_add]
  · exact Int.mul_ediv_cancel _ positive.ne'

/-- The records of an attribute with the space for all of its clusters. -/
def recordAt (clusterSizeBits : Nat) (total : Int) (extents : List Extent) (v : Int) :
    Option AttrRecord :=
  (extents.find? (·.lowestVcn = v)).map fun e =>
    ⟨true, e.lowestVcn, e.highestVcn, total * 2 ^ clusterSizeBits, 0, e.pairs⟩

theorem Follow.find {v stop : Int} {extents : List Extent} (follow : Follow v extents stop) :
    (∀ e ∈ extents, extents.find? (·.lowestVcn = e.lowestVcn) = some e) ∧
      extents.find? (·.lowestVcn = stop) = none := by
  induction extents generalizing v with
  | nil => exact ⟨fun e inside => (List.not_mem_nil inside).elim, rfl⟩
  | cons e es ih =>
    obtain ⟨first, some', rest⟩ := follow
    obtain ⟨found, none'⟩ := ih rest
    have behind := rest.inside
    refine ⟨fun e' inside => ?_, ?_⟩
    · rcases List.mem_cons.mp inside with rfl | inside
      · exact List.find?_cons_of_pos (decide_eq_true rfl)
      · have later := behind.2 e' inside
        rw [List.find?_cons_of_neg (by rw [decide_eq_true_iff]; omega)]
        exact found e' inside
    · rw [List.find?_cons_of_neg (by rw [decide_eq_true_iff]; omega)]
      exact none'

/-- Parts that follow each other over an attribute are found in its records. -/
theorem Follow.recorded {extents : List Extent} (follow : Follow 0 extents total) :
    Recorded clusterSizeBits (recordAt clusterSizeBits total extents) extents total := by
  refine ⟨fun e inside => ⟨_, congrArg (Option.map _) (follow.find.1 e inside),
    ⟨rfl, rfl, rfl, Nat.zero_le _, ⟨[], (List.append_nil _).symm⟩, fun _ => ?_⟩, fun _ => rfl⟩,
    congrArg (Option.map _) follow.find.2⟩
  rw [(clusters_exact rfl).1]
  exact (follow.inside.2 e inside).2.2

/-- The first record is the runlist so far, where it does not end with the first cluster. -/
theorem first_mapped {e : Extent} {attr : AttrRecord} (base : e.lowestVcn = 0)
    (high : e.highestVcn < total) (far : total < 2 ^ 63)
    (more : e.highestVcn ≠ 0 ∨ total = 1) (holds : Holds majorVer rs e)
    (stored : Stored clusterSizeBits e attr)
    (space : attr.allocatedSize = total * 2 ^ clusterSizeBits) :
    ∃ rl, mappingPairsDecompressInto clusterSizeBits beyond attr [] = some (.ok rl) ∧
      Mapped rs total (e.highestVcn + 1) rl := by
  obtain ⟨short, part, array, runs, same⟩ := holds
  have size := (clusters_exact space).1
  have front : unmappedFront e.lowestVcn = [] := if_neg (by omega)
  rw [AttrRecord.clusters] at size
  have decompressed :=
    decompress_eq majorVer beyond stored runs (by omega) (by omega) array short
  rw [front, closing, size, stored.highest, stored.lowest, if_neg (by omega), if_pos base]
    at decompressed
  dsimp only at decompressed
  have below : lcnRlNotMapped < lcnHole := by decide
  rw [base] at runs same
  by_cases last : e.highestVcn + 1 = total
  · rw [if_neg (by omega), if_neg (by omega), last] at decompressed
    refine ⟨part ++ [⟨total, lcnEnoent, 0⟩], ?_, part, [], rfl, ⟨last ▸ runs.tiles,
      fun r inside => below.le.trans (Runs.mapped runs r inside), rfl, Or.inr rfl⟩,
      fun v first before => same v first (by omega), fun more => by omega⟩
    rw [mappingPairsDecompressInto, decompressed]
    rfl
  · rw [if_pos (by omega)] at decompressed
    have length : total - 1 - e.highestVcn = total - (e.highestVcn + 1) := by omega
    have place : e.highestVcn + 1 + (total - (e.highestVcn + 1)) = total := by omega
    rw [length, place] at decompressed
    refine ⟨part ++ [⟨e.highestVcn + 1, lcnRlNotMapped, total - (e.highestVcn + 1)⟩] ++
      [⟨total, lcnEnoent, 0⟩], ?_, _, [], rfl, ⟨?_, fun r inside => ?_, rfl, Or.inr rfl⟩,
      fun v first before => ?_, fun _ => ⟨part, rfl⟩⟩
    · rw [mappingPairsDecompressInto, decompressed, List.append_assoc]
      rfl
    · exact tiles_append.mpr ⟨_, runs.tiles, rfl, show 0 < total - (e.highestVcn + 1) by omega,
        place⟩
    · rcases List.mem_append.mp inside with inside | inside
      · exact below.le.trans (Runs.mapped runs r inside)
      · rw [List.mem_singleton.mp inside]
    · rw [lcnAt_append, ← same v first (by omega)]
      obtain ⟨l, place⟩ := runs.tiles.found first (by omega)
      rw [place]
      rfl

section Whole

variable {lookup : Int → Option AttrRecord} {extents es : List Extent}

theorem later_records (recorded : Recorded clusterSizeBits lookup extents total)
    (far : total < 2 ^ 63) (holds : ∀ e ∈ extents, Holds majorVer rs e) {highest : Int}
    {rl : List RunlistElement} (among : ∀ e ∈ es, e ∈ extents) (later : 0 ≤ highest)
    (follow : Follow (highest + 1) es total) (mapped : Mapped rs total (highest + 1) rl) :
    ∃ rl', mapRecords clusterSizeBits beyond lookup (es.length + 1)
        ⟨rl, highest + 1, total, highest, true⟩ =
          some (none, ⟨rl', total, total, total - 1, true⟩) ∧ Mapped rs total total rl' := by
  induction es generalizing highest rl with
  | nil =>
    have last : highest + 1 = total := follow
    have before : highest = total - 1 := by omega
    obtain ⟨ds, stale, rfl, listed, -⟩ := id mapped
    refine ⟨_, ?_, last ▸ mapped⟩
    rw [List.length_nil, mapRecords]
    dsimp only
    rw [listed.lookup stale (by omega), last, recorded.last, ← before]
    cases lcnAt total ds with
    | none => rfl
    | some l => rfl
  | cons e es ih =>
    obtain ⟨first, some', rest⟩ := follow
    obtain ⟨attr, found, stored, -⟩ := recorded.stored e (among e List.mem_cons_self)
    have high := rest.inside.1
    rw [← first] at mapped
    obtain ⟨rl', merged, mapped'⟩ := later_mapped majorVer beyond mapped (by omega) (by omega)
      (by omega) far (holds e (among e List.mem_cons_self)) stored
    obtain ⟨rl'', made, whole⟩ := ih (fun e' inside => among e' (List.mem_cons_of_mem e inside))
      (by omega) rest mapped'
    refine ⟨rl'', ?_, whole⟩
    rw [List.length_cons, mapRecords]
    dsimp only
    rw [← first, mapped.next (by omega) (by omega), Option.bind_some, found]
    dsimp only
    rw [if_pos rfl, merged, Option.bind_some]
    dsimp only
    rw [if_neg (by omega), stored.highest, stored.lowest, if_neg (by omega), if_neg (by omega),
      if_neg (show ¬ e.lowestVcn = 0 by omega)]
    exact made

/-- Reading all records of an attribute gives a runlist that says of every cluster what they say. -/
theorem records_mapped (recorded : Recorded clusterSizeBits lookup extents total)
    (far : total < 2 ^ 63) (some' : 0 < total) (holds : ∀ e ∈ extents, Holds majorVer rs e)
    (follow : Follow 0 extents total)
    (more : ∀ e ∈ extents.head?, e.highestVcn ≠ 0 ∨ total = 1) :
    ∃ rl, mapWholeRunlist clusterSizeBits beyond lookup (extents.length + 1) [] =
        some (none, rl) ∧ Mapped rs total total rl := by
  cases extents with
  | nil => exact absurd (show (0 : Int) = total from follow) (by omega)
  | cons e es =>
    obtain ⟨base, nonempty, rest⟩ := follow
    have high := rest.inside.1
    obtain ⟨attr, found, stored, space⟩ := recorded.stored e List.mem_cons_self
    obtain ⟨rl, mapped, known⟩ := first_mapped majorVer beyond base (by omega) far
      (more e rfl) (holds e List.mem_cons_self) stored (space base)
    obtain ⟨rl', made, whole⟩ := later_records majorVer beyond recorded far holds
      (fun e' inside => List.mem_cons_of_mem e inside) nonempty rest known
    refine ⟨rl', ?_, whole⟩
    have turn : mapRecords clusterSizeBits beyond lookup ((e :: es).length + 1)
        ⟨[], 0, 0, 0, false⟩ = some (none, ⟨rl', total, total, total - 1, true⟩) := by
      rw [List.length_cons, mapRecords]
      dsimp only
      rw [show rlVcnToLcn [] 0 = some lcnRlNotMapped from rfl, Option.bind_some, ← base, found,
        base]
      dsimp only
      rw [if_pos rfl, mapped, Option.bind_some]
      dsimp only
      rw [stored.highest, stored.lowest, (clusters_exact (space base)).2, if_neg (by omega),
        if_neg (by omega), if_neg (by omega), if_pos rfl]
      exact made
    rw [mapWholeRunlist, turn, Option.map_some]
    dsimp only
    rw [if_neg (by decide), if_neg (by omega)]

/-- A runlist that has been put into records is read again: each cluster is where it has been, and
behind the last one there is none. -/
theorem whole_mapped {t : RunlistElement} (ends : t.length = 0) (runs : Runs 0 rs t.vcn)
    (some' : 0 < t.vcn) (far : t.vcn < 2 ^ 63) (few : rs.length * 17 < intMax) {old new : List Nat}
    (base : old ≠ []) (enough : rs.length ≤ old.length + new.length)
    (room : ∀ n ∈ old ++ new, Roomy majorVer rs n) :
    ∃ extents, updateRecords majorVer (rs ++ [t]) old new 0 0 = some (.ok extents) ∧
      ∀ lookup, Recorded clusterSizeBits lookup extents t.vcn →
        (∀ e ∈ extents.head?, e.highestVcn ≠ 0 ∨ t.vcn = 1) →
        ∃ rl, mapWholeRunlist clusterSizeBits beyond lookup (extents.length + 1) [] =
            some (none, rl) ∧
          ∀ v, 0 ≤ v → rlVcnToLcn rl v =
            if v < t.vcn then rlVcnToLcn (rs ++ [t]) v else some lcnEnoent := by
  obtain ⟨extents, made, follow, holds⟩ := updateRecords_spec majorVer ends runs le_rfl le_rfl
    some' few base (fun _ => rfl) ((length_cut 0 rs).trans enough)
    ((cut_self runs le_rfl).symm ▸ room)
  refine ⟨extents, made, fun lookup recorded more => ?_⟩
  obtain ⟨rl, mapped, ds, stale, rfl, listed, known, -⟩ :=
    records_mapped majorVer beyond recorded far some' holds follow more
  refine ⟨_, mapped, fun v first => ?_⟩
  rw [listed.lookup stale first]
  by_cases inside : v < t.vcn
  · obtain ⟨l, place⟩ := runs.tiles.found first inside
    rw [if_pos inside, known v first inside, rlVcnToLcn_eq ends runs.tiles le_rfl first, place]
    rfl
  · rw [if_neg inside, (lcnAt_eq_none listed.tiles).mpr (Or.inr (not_lt.mp inside))]
    rfl

/-- Runs with a hole that do not go into two records of eight bytes. -/
def farRuns : List RunlistElement :=
  [⟨0, 1000, 16⟩, ⟨16, lcnHole, 300⟩, ⟨316, 70000, 40⟩, ⟨356, 5, 12⟩]

def farRunsEnd : RunlistElement := ⟨368, lcnEnoent, 0⟩

theorem farRuns_runs : Runs 0 farRuns 368 :=
  ⟨rfl, ⟨by decide, by decide, by decide, by decide⟩, rfl,
    ⟨by decide, by decide, by decide, by decide⟩, rfl,
    ⟨by decide, by decide, by decide, by decide⟩, rfl,
    ⟨by decide, by decide, by decide, by decide⟩, rfl⟩

/-- The parts of the runs in three records. -/
def farExtents : List Extent :=
  [⟨0, 315, packed 3 0 (farRuns.take 2) ++ [0]⟩, ⟨316, 355, packed 3 0 [⟨316, 70000, 40⟩] ++ [0]⟩,
    ⟨356, 367, packed 3 0 (farRuns.drop 3) ++ [0]⟩]

theorem farRuns_mapped :
    updateRecords 3 (farRuns ++ [farRunsEnd]) [8] [8, 16, 16] 0 0 = some (.ok farExtents) ∧
      ∃ rl, mapWholeRunlist 12 0 (recordAt 12 368 farExtents) 4 [] = some (none, rl) ∧
        ∀ v, 0 ≤ v → rlVcnToLcn rl v =
          if v < 368 then rlVcnToLcn (farRuns ++ [farRunsEnd]) v else some lcnEnoent := by
  have filled : updateRecords 3 (farRuns ++ [farRunsEnd]) [8] [8, 16, 16] 0 0 =
      some (.ok farExtents) := rfl
  have room : ∀ n ∈ [8] ++ [8, 16, 16], Roomy 3 farRuns n := by decide
  obtain ⟨extents, made, whole⟩ := whole_mapped 3 0 (t := farRunsEnd) rfl
    farRuns_runs (by decide) (by decide) (by decide) (by decide) (by decide) room
  obtain rfl : farExtents = extents := Except.ok.inj (Option.some.inj (filled.symm.trans made))
  have follow : Follow 0 farExtents 368 :=
    ⟨rfl, by decide, rfl, by decide, rfl, by decide, rfl⟩
  refine ⟨filled, whole _ follow.recorded fun e first => Or.inl ?_⟩
  rw [← Option.some.inj first]
  decide

/-- Records are passed over while the runlist tells that there are no more clusters. -/
theorem later_passed (recorded : Recorded clusterSizeBits lookup extents total) {highest : Int}
    {rl : List RunlistElement} (among : ∀ e ∈ es, e ∈ extents) (later : 0 ≤ highest)
    (follow : Follow (highest + 1) es total)
    (gone : ∀ v, highest < v → rlVcnToLcn rl v = some lcnEnoent) :
    mapRecords clusterSizeBits beyond lookup (es.length + 1)
        ⟨rl, highest + 1, total, highest, true⟩ =
      some (none, ⟨rl, total, total, total - 1, true⟩) := by
  have other : ¬ lcnEnoent = lcnRlNotMapped := by decide
  induction es generalizing highest with
  | nil =>
    have last : highest + 1 = total := follow
    have before : highest = total - 1 := by omega
    rw [List.length_nil, mapRecords]
    dsimp only
    rw [gone _ (by omega), Option.bind_some, last, recorded.last, before]
  | cons e es ih =>
    obtain ⟨first, some', rest⟩ := follow
    obtain ⟨attr, found, stored, -⟩ := recorded.stored e (among e List.mem_cons_self)
    rw [List.length_cons, mapRecords]
    dsimp only
    rw [gone _ (by omega), Option.bind_some, ← first, found]
    dsimp only
    rw [if_neg other, Option.bind_some]
    dsimp only
    rw [if_neg (by omega), stored.highest, stored.lowest, if_neg (by omega), if_neg (by omega),
      if_neg (show ¬ e.lowestVcn = 0 by omega)]
    exact ih (fun e' inside => among e' (List.mem_cons_of_mem e inside)) (by omega) rest
      fun v behind => gone v (by omega)

/-- Where the first record holds only the first cluster, it is taken for the whole attribute: the
records are read with success, and there is no other cluster. -/
theorem first_cluster_hides {t : RunlistElement} (ends : t.length = 0) (runs : Runs 0 rs t.vcn)
    (more : 1 < t.vcn) (far : t.vcn < 2 ^ 63) (few : rs.length * 17 < intMax) {old new : List Nat}
    (base : old ≠ []) (enough : rs.length ≤ old.length + new.length)
    (room : ∀ n ∈ old ++ new, Roomy majorVer rs n) :
    ∃ extents, updateRecords majorVer (rs ++ [t]) old new 0 0 = some (.ok extents) ∧
      ∀ lookup, Recorded clusterSizeBits lookup extents t.vcn →
        (∀ e ∈ extents.head?, e.highestVcn = 0) →
        ∃ rl, mapWholeRunlist clusterSizeBits beyond lookup (extents.length + 1) [] =
            some (none, rl) ∧
          rlVcnToLcn rl 0 = rlVcnToLcn (rs ++ [t]) 0 ∧
          ∀ v, 0 < v → rlVcnToLcn rl v = some lcnEnoent := by
  obtain ⟨extents, made, follow, holds⟩ := updateRecords_spec majorVer ends runs le_rfl le_rfl
    (by omega) few base (fun _ => rfl) ((length_cut 0 rs).trans enough)
    ((cut_self runs le_rfl).symm ▸ room)
  refine ⟨extents, made, fun lookup recorded only => ?_⟩
  cases extents with
  | nil => exact absurd (show (0 : Int) = t.vcn from follow) (by omega)
  | cons e es =>
    obtain ⟨base, -, rest⟩ := follow
    obtain ⟨attr, found, stored, space⟩ := recorded.stored e List.mem_cons_self
    obtain ⟨short, part, array, own, same⟩ := holds e List.mem_cons_self
    have alone := only e rfl
    have below : lcnRlNotMapped < lcnHole := by decide
    have front : unmappedFront e.lowestVcn = [] := if_neg (by omega)
    have size := (clusters_exact (space base)).1
    rw [AttrRecord.clusters] at size
    have decompressed :=
      decompress_eq majorVer beyond stored own (by omega) (by omega) array short
    rw [front, closing, size, stored.highest, stored.lowest, alone, if_neg (by omega),
      if_pos base] at decompressed
    dsimp only at decompressed
    rw [if_neg (by omega), if_neg (by omega)] at decompressed
    rw [base, alone] at own same
    have listed : Listed part ⟨1, lcnEnoent, 0⟩ := ⟨own.tiles,
      fun r inside => below.le.trans (Runs.mapped own r inside), rfl, Or.inr rfl⟩
    have gone : ∀ v, 0 < v → rlVcnToLcn (part ++ [⟨1, lcnEnoent, 0⟩]) v = some lcnEnoent := by
      intro v behind
      rw [listed.lookup [] behind.le, (lcnAt_eq_none own.tiles).mpr (by omega)]
      rfl
    refine ⟨part ++ [⟨1, lcnEnoent, 0⟩], ?_, ?_, gone⟩
    · have turn : mapRecords clusterSizeBits beyond lookup ((e :: es).length + 1)
          ⟨[], 0, 0, 0, false⟩ = some (none, ⟨part ++ [⟨1, lcnEnoent, 0⟩], t.vcn, t.vcn,
            t.vcn - 1, true⟩) := by
        rw [List.length_cons, mapRecords]
        dsimp only
        rw [show rlVcnToLcn [] 0 = some lcnRlNotMapped from rfl, Option.bind_some, ← base, found,
          base]
        dsimp only
        have known : mappingPairsDecompressInto clusterSizeBits beyond attr [] =
            some (.ok (part ++ [⟨1, lcnEnoent, 0⟩])) := by
          rw [mappingPairsDecompressInto, decompressed]
          rfl
        rw [if_pos rfl, known, Option.bind_some]
        dsimp only
        rw [stored.highest, stored.lowest, (clusters_exact (space base)).2, alone,
          if_neg (by omega), if_neg (by omega), if_neg (by omega), if_pos rfl]
        exact later_passed beyond recorded (fun e' inside => List.mem_cons_of_mem e inside) le_rfl
          (alone ▸ rest) gone
      rw [mapWholeRunlist, turn, Option.map_some]
      dsimp only
      rw [if_neg (by decide), if_neg (by omega)]
    · obtain ⟨l, place⟩ := own.tiles.found le_rfl Int.one_pos
      rw [listed.lookup [] le_rfl, rlVcnToLcn_eq ends runs.tiles le_rfl le_rfl,
        ← same 0 le_rfl le_rfl, place]
      rfl

/-- A single cluster, and a run that does not go into its record of eight bytes. -/
def oneRuns : List RunlistElement := [⟨0, 1000, 1⟩, ⟨1, 70000, 300⟩]

def oneRunsEnd : RunlistElement := ⟨301, lcnEnoent, 0⟩

theorem oneRuns_runs : Runs 0 oneRuns 301 :=
  ⟨rfl, ⟨by decide, by decide, by decide, by decide⟩, rfl,
    ⟨by decide, by decide, by decide, by decide⟩, rfl⟩

def oneExtents : List Extent :=
  [⟨0, 0, packed 3 0 [⟨0, 1000, 1⟩] ++ [0]⟩, ⟨1, 300, packed 3 0 [⟨1, 70000, 300⟩] ++ [0]⟩]

theorem oneRuns_hidden :
    updateRecords 3 (oneRuns ++ [oneRunsEnd]) [8] [8] 0 0 = some (.ok oneExtents) ∧
      ∃ rl, mapWholeRunlist 12 0 (recordAt 12 301 oneExtents) 3 [] = some (none, rl) ∧
        rlVcnToLcn rl 0 = rlVcnToLcn (oneRuns ++ [oneRunsEnd]) 0 ∧
        ∀ v, 0 < v → rlVcnToLcn rl v = some lcnEnoent := by
  have filled : updateRecords 3 (oneRuns ++ [oneRunsEnd]) [8] [8] 0 0 =
      some (.ok oneExtents) := rfl
  have room : ∀ n ∈ [8] ++ [8], Roomy 3 oneRuns n := by decide
  obtain ⟨extents, made, whole⟩ := first_cluster_hides 3 0
    (t := oneRunsEnd) rfl oneRuns_runs (by decide) (by decide) (by decide) (by decide) (by decide)
    room
  obtain rfl : oneExtents = extents := Except.ok.inj (Option.some.inj (filled.symm.trans made))
  have follow : Follow 0 oneExtents 301 := ⟨rfl, by decide, rfl, by decide, rfl⟩
  refine ⟨filled, whole _ follow.recorded fun e first => ?_⟩
  rw [← Option.some.inj first]

end Whole

end MappingPairs
