import NtfsIsoMounter.RunlistLookups

/-!
# A runlist in the records of an attribute

The array of pairs is cut where a record is full, and the rest of it goes to the next record. Here
is that every record is read as the runs that have been put into it, so that together they say
about each cluster what the runlist has said.
-/

namespace MappingPairs

open SignedBytes GekkoIo

variable (majorVer : Nat) {clusterSizeBits : Nat} (beyond : UInt8)

/-- The clusters that an attribute has space for. -/
def AttrRecord.clusters (attr : AttrRecord) (clusterSizeBits : Nat) : Int :=
  (attr.allocatedSize + 2 ^ clusterSizeBits - 1) / 2 ^ clusterSizeBits

/-- A record has an extent in it, in an attribute with the space for it. -/
structure Stored (clusterSizeBits : Nat) (e : Extent) (attr : AttrRecord) : Prop where
  nonResident : attr.nonResident = true
  lowest : attr.lowestVcn = e.lowestVcn
  highest : attr.highestVcn = e.highestVcn
  inside : attr.mappingPairsOffset ≤ attr.bytes.length
  pairs : ∃ junk, attr.bytes.drop attr.mappingPairsOffset = e.pairs ++ junk
  space : e.lowestVcn = 0 → e.highestVcn < attr.clusters clusterSizeBits

/-- Elements that tell nothing about their clusters. -/
def Unmapped (rs : List RunlistElement) : Prop := ∀ r ∈ rs, r.lcn = lcnRlNotMapped

/-- What is behind the runs of a record. -/
structure Closes (vcn : Int) (behind : List RunlistElement) (t : RunlistElement) : Prop where
  tiles : Tiles vcn behind t.vcn
  unmapped : Unmapped behind
  ends : t.length = 0
  last : t.lcn = lcnRlNotMapped ∨ t.lcn = lcnEnoent

theorem closing_spec {e : Extent} {attr : AttrRecord} (stored : Stored clusterSizeBits e attr) :
    ∃ behind t, closing clusterSizeBits attr (e.highestVcn + 1) = .ok (behind ++ [t]) ∧
      Closes (e.highestVcn + 1) behind t := by
  have last := stored.highest
  have space := stored.space
  have unmapped : Unmapped [] := fun r inside => by cases inside
  rw [AttrRecord.clusters] at space
  rw [closing, if_neg (by omega)]
  by_cases base : attr.lowestVcn = 0
  · have room := space (stored.lowest ▸ base)
    dsimp only
    rw [if_pos base]
    split
    · rename_i more
      refine ⟨[_], _, rfl, ⟨rfl, ?_, rfl⟩, ?_, rfl, Or.inr rfl⟩
      · show 0 < _ - attr.highestVcn
        omega
      · intro r inside
        rw [List.mem_singleton.mp inside]
    · rw [if_neg (by omega)]
      exact ⟨[], _, rfl, rfl, unmapped, rfl, Or.inr rfl⟩
  · rw [if_neg base]
    exact ⟨[], _, rfl, rfl, unmapped, rfl, Or.inl rfl⟩

/-- The element in front of runs that do not start at the first cluster. -/
def unmappedFront (vcn : Int) : List RunlistElement :=
  if vcn ≠ 0 then [⟨0, lcnRlNotMapped, vcn⟩] else []

theorem unmappedFront_tiles {vcn : Int} (first : 0 ≤ vcn) : Tiles 0 (unmappedFront vcn) vcn := by
  rw [unmappedFront]
  split
  · exact ⟨rfl, by dsimp only; omega, Int.zero_add vcn⟩
  · exact show (0 : Int) = vcn by omega

theorem lcnAt_unmapped {rs : List RunlistElement} (unmapped : Unmapped rs) (v : Int) :
    lcnAt v rs = none ∨ lcnAt v rs = some lcnRlNotMapped := by
  induction rs with
  | nil => exact Or.inl rfl
  | cons r rs ih =>
    have own := unmapped r List.mem_cons_self
    have place : r.lcnOf v = lcnRlNotMapped := by
      rw [RunlistElement.lcnOf, own]
      rfl
    rw [lcnAt, place]
    split
    · exact Or.inr rfl
    · exact ih fun r' inside => unmapped r' (List.mem_cons_of_mem r inside)

theorem length_packed (prevLcn : Int) (rs : List RunlistElement) :
    rs.length * 2 ≤ (packed majorVer prevLcn rs).length ∧
      (packed majorVer prevLcn rs).length ≤ rs.length * 17 := by
  induction rs generalizing prevLcn with
  | nil => exact ⟨le_rfl, le_rfl⟩
  | cons r rs ih =>
    have size := length_pair majorVer prevLcn r
    have change := length_change majorVer prevLcn r
    have len := length_encode 7 r.length
    have rest := ih (nextLcn majorVer prevLcn r)
    rw [packed, List.length_append, List.length_cons]
    omega

/-- Up to 2^16 elements do not come in each other's way. -/
theorem overlaid_eq {rl : List RunlistElement} (few : rl.length ≤ 2 ^ 16) : overlaid rl = rl := by
  rw [overlaid]
  rcases Nat.lt_or_eq_of_le few with less | whole
  · rw [Nat.div_eq_of_lt less, Nat.mod_eq_of_lt less, Nat.zero_mul, List.drop_zero,
      List.take_of_length_le few, List.drop_length, List.append_nil]
  · rw [whole, Nat.div_self (by decide), Nat.mod_self, Nat.sub_self, Nat.zero_mul, List.drop_zero,
      List.drop_zero, List.take_of_length_le few,
      List.drop_eq_nil_of_le (by rw [Nat.one_mul]; exact few), List.nil_append]

theorem length_closing {attr : AttrRecord} {vcn : Int} {ends : List RunlistElement}
    (closed : closing clusterSizeBits attr vcn = .ok ends) : ends.length ≤ 2 := by
  rw [closing] at closed
  split at closed
  · cases closed
  · dsimp only at closed
    split at closed
    · split at closed
      · cases closed
        exact le_rfl
      · split at closed
        · cases closed
        · cases closed
          exact Nat.le_succ 1
    · cases closed
      exact Nat.le_succ 1

/-- The runs in a record are found again. -/
theorem decompress_eq {e : Extent} {attr : AttrRecord} (stored : Stored clusterSizeBits e attr)
    {part : List RunlistElement} (runs : Runs e.lowestVcn part (e.highestVcn + 1))
    (first : 0 ≤ e.lowestVcn) (far : e.highestVcn + 1 < 2 ^ 63)
    (array : e.pairs = packed majorVer 0 part ++ [0]) (few : e.pairs.length ≤ 2 ^ 16) :
    mappingPairsDecompress clusterSizeBits beyond attr =
      some ((closing clusterSizeBits attr (e.highestVcn + 1)).map fun ends =>
        unmappedFront e.lowestVcn ++ part ++ ends) := by
  obtain ⟨junk, bytes⟩ := stored.pairs
  have half := (length_packed majorVer 0 part).1
  have enough : part.length < (attr.bytes.drop attr.mappingPairsOffset).length + 1 := by
    rw [bytes, array, List.length_append, List.length_append]
    omega
  have read := readPairs_packed majorVer beyond junk far runs first 0 enough
  have whole : packed majorVer 0 part ++ 0 :: junk =
      attr.bytes.drop attr.mappingPairsOffset := by
    rw [bytes, array, List.append_assoc]
    rfl
  rw [mappingPairsDecompress, if_neg (by rw [stored.nonResident, stored.lowest]; simp; omega),
    if_neg (Nat.not_lt.mpr stored.inside)]
  dsimp only
  rw [whole] at read
  rw [stored.lowest, read, Option.map_some]
  cases closed : closing clusterSizeBits attr (e.highestVcn + 1) with
  | error _ =>
    simp only [Except.bind, closed, Except.map]
  | ok ends =>
    have two := length_closing closed
    have one : (unmappedFront e.lowestVcn).length ≤ 1 := by
      rw [unmappedFront]
      split
      · exact le_rfl
      · exact Nat.zero_le 1
    rw [array, List.length_append, List.length_singleton] at few
    have short : (unmappedFront e.lowestVcn ++ part ++ ends).length ≤ 2 ^ 16 := by
      rw [List.length_append, List.length_append]
      omega
    simp only [Except.bind, closed, Except.map]
    exact congrArg (fun rl => some (Except.ok rl)) (overlaid_eq short)

/-- The runs in a record are between what is not known before and behind them. -/
theorem decompress_stored {e : Extent} {attr : AttrRecord} (stored : Stored clusterSizeBits e attr)
    {part : List RunlistElement} (runs : Runs e.lowestVcn part (e.highestVcn + 1))
    (first : 0 ≤ e.lowestVcn) (far : e.highestVcn + 1 < 2 ^ 63)
    (array : e.pairs = packed majorVer 0 part ++ [0]) (few : e.pairs.length ≤ 2 ^ 16) :
    ∃ behind t, mappingPairsDecompress clusterSizeBits beyond attr =
        some (.ok (unmappedFront e.lowestVcn ++ part ++ (behind ++ [t]))) ∧
      Closes (e.highestVcn + 1) behind t := by
  obtain ⟨behind, t, closed, closes⟩ := closing_spec stored
  refine ⟨behind, t, ?_, closes⟩
  rw [decompress_eq majorVer beyond stored runs first far array few, closed]
  rfl

/-- A runlist says of the clusters of an extent what another one says of them, and nothing of any
other cluster. -/
structure Restores (e : Extent) (rl whole : List RunlistElement) : Prop where
  inside : ∀ c, e.lowestVcn ≤ c → c ≤ e.highestVcn → rlVcnToLcn rl c = rlVcnToLcn whole c
  before : ∀ c, 0 ≤ c → c < e.lowestVcn → rlVcnToLcn rl c = some lcnRlNotMapped
  behind : ∀ c, e.highestVcn < c →
    rlVcnToLcn rl c = some lcnRlNotMapped ∨ rlVcnToLcn rl c = some lcnEnoent

theorem restores_stored {e : Extent} {attr : AttrRecord} (stored : Stored clusterSizeBits e attr)
    {rs part : List RunlistElement} {t : RunlistElement} {start : Int}
    (ends : t.length = 0) (runs : Runs start rs t.vcn) (first : 0 ≤ start)
    (low : start ≤ e.lowestVcn) (own : Runs e.lowestVcn part (e.highestVcn + 1))
    (same : ∀ c, e.lowestVcn ≤ c → c ≤ e.highestVcn → lcnAt c part = lcnAt c rs)
    (high : e.highestVcn < t.vcn) (far : t.vcn < 2 ^ 63)
    (array : e.pairs = packed majorVer 0 part ++ [0]) (few : e.pairs.length ≤ 2 ^ 16) :
    ∃ rl, mappingPairsDecompress clusterSizeBits beyond attr = some (.ok rl) ∧
      Restores e rl (rs ++ [t]) := by
  obtain ⟨behind, t', found, closes⟩ :=
    decompress_stored majorVer beyond stored own (by omega) (by omega) array few
  have front := unmappedFront_tiles (first.trans low)
  have tiles : Tiles 0 (unmappedFront e.lowestVcn ++ part ++ behind) t'.vcn :=
    tiles_append.mpr ⟨_, tiles_append.mpr ⟨_, front, own.tiles⟩, closes.tiles⟩
  have lookup {c : Int} (positive : 0 ≤ c) := rlVcnToLcn_eq closes.ends tiles le_rfl positive []
  refine ⟨_, found, ⟨fun c after before => ?_, fun c positive before => ?_, fun c after => ?_⟩⟩
  · rw [← List.append_assoc, lookup (by omega), rlVcnToLcn_eq ends runs.tiles first (by omega),
      lcnAt_append, lcnAt_append, (lcnAt_eq_none front).mpr (by omega), Option.none_or,
      same c after before]
    obtain ⟨l, place⟩ := runs.tiles.found (low.trans after) (by omega)
    rw [place]
    rfl
  · have known : Unmapped (unmappedFront e.lowestVcn) := by
      intro r inside
      rw [unmappedFront, if_pos (by omega)] at inside
      rw [List.mem_singleton.mp inside]
    obtain ⟨l, place⟩ := front.found positive before
    rw [← List.append_assoc, lookup positive, lcnAt_append, lcnAt_append,
      (lcnAt_unmapped known c).resolve_left (place ▸ Option.some_ne_none l)]
    rfl
  · rw [← List.append_assoc, lookup (by have nonempty := own.le; omega), lcnAt_append, lcnAt_append,
      (lcnAt_eq_none front).mpr (by have nonempty := own.le; omega),
      (lcnAt_eq_none own.tiles).mpr (by omega)]
    rcases lcnAt_unmapped closes.unmapped c with none' | some'
    · rw [none']
      rcases closes.last with last | last
      · rw [last]
        exact Or.inl rfl
      · rw [last]
        exact Or.inr rfl
    · rw [some']
      exact Or.inl rfl

/-- The parts of an attribute follow each other. -/
def Follow : Int → List Extent → Int → Prop
  | v, [], stop => v = stop
  | v, e :: es, stop => e.lowestVcn = v ∧ v ≤ e.highestVcn ∧ Follow (e.highestVcn + 1) es stop

theorem Runs.nonempty {start stop : Int} {rs : List RunlistElement} (runs : Runs start rs stop)
    (more : start < stop) : rs ≠ [] := by
  rintro rfl
  exact absurd (show start = stop from runs) (by omega)

theorem length_cut (v : Int) (rs : List RunlistElement) : (cut v rs).length ≤ rs.length := by
  induction rs with
  | nil => exact le_rfl
  | cons r rs ih =>
    rw [cut]
    split
    · exact ih.trans (Nat.le_succ _)
    · split
      · exact le_rfl
      · exact le_rfl

section Records

variable {t : RunlistElement} {rs : List RunlistElement} {start v : Int}

/-- What one record takes: at least one run where it has room for one, and all of them where the
array has been built. -/
theorem record_spec (ends : t.length = 0) (runs : Runs start rs t.vcn) (first : 0 ≤ v)
    (low : start ≤ v) (high : v < t.vcn) (dstLen : Nat)
    (room : ∀ r ∈ (cut v rs).head?, (pair majorVer 0 r).length < dstLen) :
    ∃ mid done rest, mappingPairsBuild majorVer dstLen (rs ++ [t]) v =
        some (if rest = [] then .ok () else .error .enospc, packed majorVer 0 done ++ [0],
          some (rest ++ [t])) ∧
      v < mid ∧ stopVcn (some (rest ++ [t])) = mid ∧ Runs v done mid ∧ Runs mid rest t.vcn ∧
      done ≠ [] ∧ (packed majorVer 0 done ++ [0]).length ≤ dstLen ∧ cut v rs = done ++ rest ∧
      cut mid rs = rest := by
  obtain ⟨done, front, rest, parts, clipped, built, fits, full⟩ :=
    mappingPairsBuild_spec majorVer ends runs first low high dstLen
  obtain ⟨mid, before, left⟩ := Runs.append front rest (parts ▸ runs)
  have behind := Runs.cut runs low high.le
  have some' : done ≠ [] := by
    rintro rfl
    rw [List.nil_append] at clipped
    cases next : cut v rest with
    | nil => exact Runs.nonempty behind high (clipped.trans next)
    | cons r after =>
      have short := room r (by rw [clipped, next]; rfl)
      have bound := full r (by rw [next]; rfl)
      rw [List.nil_append, packed, packed, List.append_nil] at bound
      omega
  have kept := (fits some').2
  have size : (packed majorVer 0 done ++ [0]).length ≤ dstLen := by
    rw [List.length_append]
    exact (fits some').1
  rw [kept] at clipped
  obtain ⟨mid', own, after⟩ := Runs.append done rest (clipped ▸ behind)
  have further : v < mid' := by
    cases done with
    | nil => exact absurd rfl some'
    | cons r done =>
      have positive := own.2.1.positive
      have next := own.2.2.le
      omega
  have next : stopVcn (some (rest ++ [t])) = mid ∧ mid' = mid := by
    cases rest with
    | nil =>
      have stop : mid = t.vcn := left
      exact ⟨stop.symm, after.trans stop.symm⟩
    | cons r rest => exact ⟨left.1, after.1.symm.trans left.1⟩
  rw [next.2] at own further
  refine ⟨mid, done, rest, built, further, next.1, own, left, some', size, clipped, ?_⟩
  rw [parts, cut_behind before le_rfl, cut_self left le_rfl]

/-- An array that has been built is read as the runs that it has been built from. -/
theorem runs_restored (ends : t.length = 0) (runs : Runs start rs t.vcn) (first : 0 ≤ start)
    (low : start ≤ v) (high : v < t.vcn) (far : t.vcn < 2 ^ 63) {dstLen : Nat}
    {bytes : List UInt8} {stop : Option (List RunlistElement)}
    (built : mappingPairsBuild majorVer dstLen (rs ++ [t]) v = some (.ok (), bytes, stop))
    (few : bytes.length ≤ 2 ^ 16)
    {attr : AttrRecord} (stored : Stored clusterSizeBits ⟨v, t.vcn - 1, bytes⟩ attr) :
    ∃ rl, mappingPairsDecompress clusterSizeBits beyond attr = some (.ok rl) ∧
      Restores ⟨v, t.vcn - 1, bytes⟩ rl (rs ++ [t]) := by
  obtain ⟨done, front, rest, -, clipped, built', -, -⟩ :=
    mappingPairsBuild_spec majorVer ends runs (first.trans low) low high dstLen
  rw [built', Option.some.injEq, Prod.mk.injEq, Prod.mk.injEq] at built
  obtain ⟨ret, array, -⟩ := built
  have all : rest = [] := by
    by_contra more
    rw [if_neg more] at ret
    cases ret
  rw [all, cut, List.append_nil] at clipped
  have own := Runs.cut runs low high.le
  rw [clipped] at own
  refine restores_stored majorVer beyond stored ends runs first low ?_ ?_ ?_
    far array.symm few
  · show Runs v done (t.vcn - 1 + 1)
    rw [Int.sub_add_cancel]
    exact own
  · intro c after before
    rw [← clipped, lcnAt_cut runs after]
  · exact Int.sub_one_lt_of_le le_rfl

/-- A record has room for the pair of any of the runs with the terminator, and a size within
2^16 bytes. -/
def Roomy (majorVer : Nat) (rs : List RunlistElement) (room : Nat) : Prop :=
  room ≤ 2 ^ 16 ∧ ∀ r ∈ rs, (pair majorVer 0 r).length < room

instance (rs : List RunlistElement) (room : Nat) : Decidable (Roomy majorVer rs room) :=
  inferInstanceAs (Decidable (_ ∧ _))

theorem Roomy.sublist {rs rs' : List RunlistElement} {room : Nat} (roomy : Roomy majorVer rs room)
    (among : rs' ⊆ rs) : Roomy majorVer rs' room :=
  ⟨roomy.1, fun r inside => roomy.2 r (among inside)⟩

/-- A part of an attribute holds what some runs say about its clusters. -/
def Holds (majorVer : Nat) (rs : List RunlistElement) (e : Extent) : Prop :=
  e.pairs.length ≤ 2 ^ 16 ∧ ∃ part, e.pairs = packed majorVer 0 part ++ [0] ∧
    Runs e.lowestVcn part (e.highestVcn + 1) ∧
    ∀ c, e.lowestVcn ≤ c → c ≤ e.highestVcn → lcnAt c part = lcnAt c rs

/-- What a record gets that has room for any one of the runs: the runs that are left behind it are
fewer than before. -/
theorem extent_spec (ends : t.length = 0) (runs : Runs start rs t.vcn) (first : 0 ≤ v)
    (low : start ≤ v) (high : v < t.vcn) {size room : Nat}
    (measured : size = 1 + (packed majorVer 0 (cut v rs)).length ∨ room ≤ size)
    (space : Roomy majorVer (cut v rs) room) :
    ∃ mid rest bytes, mappingPairsBuild majorVer (min size room) (rs ++ [t]) v =
        some (if rest = [] then .ok () else .error .enospc, bytes, some (rest ++ [t])) ∧
      v < mid ∧ stopVcn (some (rest ++ [t])) = mid ∧ Runs mid rest t.vcn ∧
      Holds majorVer rs ⟨v, mid - 1, bytes⟩ ∧ cut mid rs = rest ∧ rest ⊆ cut v rs ∧
      rest.length < (cut v rs).length := by
  obtain ⟨mid, done, rest, built, further, next, own, left, some', fits, clipped, after⟩ :=
    record_spec majorVer ends runs first low high (min size room) fun r inside => by
      obtain ⟨rest, parts⟩ := List.head?_eq_some_iff.mp inside
      have one := space.2 r (by rw [parts]; exact List.mem_cons_self)
      rw [parts, packed, List.length_append] at measured
      omega
  refine ⟨mid, rest, _, built, further, next, left, ⟨(fits.trans (min_le_right _ _)).trans space.1,
    done, rfl, ?_, fun c from' before => ?_⟩, after, ?_, ?_⟩
  · show Runs v done (mid - 1 + 1)
    rw [Int.sub_add_cancel]
    exact own
  · have behind : v ≤ c := from'
    have inside : c ≤ mid - 1 := before
    obtain ⟨l, place⟩ := own.tiles.found behind (by omega)
    rw [← lcnAt_cut runs from', clipped, lcnAt_append, place]
    rfl
  · rw [clipped]
    exact List.subset_append_right done rest
  · have some'' := List.length_pos_of_ne_nil some'
    rw [clipped, List.length_append]
    omega

theorem Runs.lt {stop : Int} (runs : Runs v rs stop) (some' : rs ≠ []) : v < stop := by
  cases rs with
  | nil => exact absurd rfl some'
  | cons r rs =>
    have positive := runs.2.1.positive
    have next := runs.2.2.le
    omega

/-- The loop over new records ends where each of them has room for any one of the runs, and the
records follow each other over all of the clusters. -/
theorem newRecords_spec (ends : t.length = 0) (runs : Runs start rs t.vcn) (first : 0 ≤ start)
    (low : start ≤ v) (high : v < t.vcn) (few : rs.length * 17 < intMax) {rooms : List Nat}
    (enough : (cut v rs).length ≤ rooms.length) (room : ∀ n ∈ rooms, Roomy majorVer (cut v rs) n)
    (listed : List Int) (before : ∀ l ∈ listed, l < v) :
    ∃ extents, newRecords majorVer (rs ++ [t]) rooms listed v = some (.ok extents) ∧
      Follow v extents t.vcn ∧ ∀ e ∈ extents, Holds majorVer rs e := by
  induction rooms generalizing v listed with
  | nil =>
    have none' := List.length_eq_zero_iff.mp (Nat.le_zero.mp enough)
    exact absurd none' (Runs.nonempty (Runs.cut runs low high.le) high)
  | cons curMaxMpSize rooms ih =>
    have short := (length_packed majorVer 0 (cut v rs)).2
    have fewer := length_cut v rs
    obtain ⟨mpSize, size, bound⟩ := getSizeForMappingPairs_spec majorVer ends runs
      (first.trans low) low high intMax
    obtain ⟨mid, rest, bytes, built, further, next, left, extent, after, among, less⟩ :=
      extent_spec majorVer ends runs (first.trans low) low high
        (Or.inl (by omega) : mpSize = _ ∨ curMaxMpSize ≤ mpSize) (room _ List.mem_cons_self)
    rw [newRecords, size, Option.bind_some]
    dsimp only
    rw [if_neg (fun there => (before v there).false), built, Option.bind_some]
    dsimp only
    rw [next]
    by_cases last : rest = []
    · rw [if_pos last]
      have stop : mid = t.vcn := by
        rw [last] at left
        exact left
      refine ⟨_, rfl, ⟨rfl, by dsimp only; omega, ?_⟩, fun e inside => ?_⟩
      · show mid - 1 + 1 = t.vcn
        omega
      · rw [List.mem_singleton.mp inside]
        exact extent
    · rw [if_neg last]
      rw [List.length_cons] at enough
      rw [← after] at less
      obtain ⟨extents, made, follow, each⟩ := ih (low.trans further.le)
        (Runs.lt left last) (by omega)
        (fun n inside => (room n (List.mem_cons_of_mem _ inside)).sublist majorVer (after ▸ among))
        (v :: listed) (List.forall_mem_cons.mpr
          ⟨further, fun l inside => (before l inside).trans further⟩)
      refine ⟨⟨v, mid - 1, bytes⟩ :: extents, by dsimp only; rw [made]; rfl,
        ⟨rfl, by dsimp only; omega, ?_⟩, fun e inside => ?_⟩
      · show Follow (mid - 1 + 1) extents t.vcn
        rw [Int.sub_add_cancel]
        exact follow
      · rcases List.mem_cons.mp inside with rfl | inside
        · exact extent
        · exact each e inside

/-- The loop over the records that there are fills them one after the other, and with each of them
fewer runs are left. -/
theorem oldRecords_spec (ends : t.length = 0) (runs : Runs start rs t.vcn) (low : start ≤ v)
    (first : 0 ≤ v) (high : v < t.vcn) {ss : List RunlistElement} {start' : Int}
    (left : Runs start' ss t.vcn) (low' : start' ≤ v) (same : cut v ss = cut v rs)
    {rooms : List Nat} (room : ∀ n ∈ rooms, Roomy majorVer (cut v rs) n) :
    ∃ extents finished v',
      oldRecords majorVer (rs ++ [t]) rooms (some (ss ++ [t])) v =
        some (.ok (extents, finished, v')) ∧
      Follow v extents v' ∧ (∀ e ∈ extents, Holds majorVer rs e) ∧
      (finished = true → v' = t.vcn) ∧
      (finished = false → v ≤ v' ∧ v' < t.vcn ∧ cut v' rs ⊆ cut v rs ∧
        (cut v' rs).length + rooms.length ≤ (cut v rs).length) := by
  induction rooms generalizing v ss start' with
  | nil =>
    exact ⟨[], false, v, rfl, rfl, fun e inside => (List.not_mem_nil inside).elim,
      fun all => Bool.noConfusion all,
      fun _ => ⟨le_rfl, high, List.Subset.refl _, le_rfl⟩⟩
  | cons expMaxMpSize rooms ih =>
    obtain ⟨mpSize, size, bound⟩ := getSizeForMappingPairs_spec majorVer ends left first low' high
      expMaxMpSize
    obtain ⟨mid, rest, bytes, built, further, next, left', extent, after, among, less⟩ :=
      extent_spec majorVer ends runs first low high
        (show mpSize = _ ∨ expMaxMpSize ≤ mpSize by rw [← same]; omega) (room _ List.mem_cons_self)
    rw [oldRecords, Option.getD_some, size, Option.bind_some]
    dsimp only
    rw [built, Option.bind_some]
    dsimp only
    rw [next]
    by_cases last : rest = []
    · rw [if_pos last]
      have stop : mid = t.vcn := by
        rw [last] at left'
        exact left'
      refine ⟨_, true, mid, rfl, ⟨rfl, by dsimp only; omega, ?_⟩, fun e inside => ?_,
        fun _ => stop, fun more => Bool.noConfusion more⟩
      · show mid - 1 + 1 = mid
        omega
      · rw [List.mem_singleton.mp inside]
        exact extent
    · rw [if_neg last]
      obtain ⟨extents, finished, v', made, follow, each, all, more⟩ :=
        ih (low.trans further.le) (first.trans further.le) (Runs.lt left' last) left' le_rfl
          ((cut_self left' le_rfl).trans after.symm) fun n inside =>
            (room n (List.mem_cons_of_mem _ inside)).sublist majorVer (after ▸ among)
      refine ⟨⟨v, mid - 1, bytes⟩ :: extents, finished, v', by dsimp only; rw [made]; rfl,
        ⟨rfl, by dsimp only; omega, ?_⟩, fun e inside => ?_, all, fun unfinished => ?_⟩
      · show Follow (mid - 1 + 1) extents v'
        rw [Int.sub_add_cancel]
        exact follow
      · rcases List.mem_cons.mp inside with rfl | inside
        · exact extent
        · exact each e inside
      · obtain ⟨later, before, kept, fewer⟩ := more unfinished
        rw [after] at kept fewer
        rw [List.length_cons]
        exact ⟨further.le.trans later, before, List.Subset.trans kept among, by omega⟩

theorem Follow.append {mid stop : Int} {es es' : List Extent} (before : Follow v es mid)
    (behind : Follow mid es' stop) : Follow v (es ++ es') stop := by
  induction es generalizing v with
  | nil =>
    rw [show v = mid from before]
    exact behind
  | cons e es ih => exact ⟨before.1, before.2.1, ih before.2.2⟩

/-- Where the parts of an attribute are. -/
theorem Follow.inside {stop : Int} {extents : List Extent} (follow : Follow v extents stop) :
    v ≤ stop ∧ ∀ e ∈ extents, v ≤ e.lowestVcn ∧ e.lowestVcn ≤ e.highestVcn ∧
      e.highestVcn < stop := by
  induction extents generalizing v with
  | nil => exact ⟨le_of_eq follow, fun e inside => by cases inside⟩
  | cons e es ih =>
    obtain ⟨first, more, rest⟩ := follow
    obtain ⟨last, each⟩ := ih rest
    refine ⟨by omega, fun e' inside => ?_⟩
    rcases List.mem_cons.mp inside with rfl | inside
    · omega
    · have own := each e' inside
      omega

theorem fillRecords_spec (ends : t.length = 0) (runs : Runs start rs t.vcn) (first : 0 ≤ start)
    (low : start ≤ v) (high : v < t.vcn) (few : rs.length * 17 < intMax) {old new : List Nat}
    (enough : (cut v rs).length ≤ old.length + new.length)
    (room : ∀ n ∈ old ++ new, Roomy majorVer (cut v rs) n) :
    ∃ extents, fillRecords majorVer (rs ++ [t]) old new v = some (.ok extents) ∧
      Follow v extents t.vcn ∧ ∀ e ∈ extents, Holds majorVer rs e := by
  obtain ⟨extents, finished, v', filled, follow, each, all, more⟩ :=
    oldRecords_spec majorVer ends runs low (first.trans low) high runs low rfl
      fun n inside => room n (List.mem_append_left new inside)
  rw [fillRecords, filled, Option.bind_some]
  cases finished with
  | true => exact ⟨extents, rfl, all rfl ▸ follow, each⟩
  | false =>
    obtain ⟨further, ahead, among, fewer⟩ := more rfl
    obtain ⟨extents', made, follow', each'⟩ := newRecords_spec majorVer ends runs first
      (low.trans further) ahead few (show (cut v' rs).length ≤ new.length by omega)
      (fun n inside => (room n (List.mem_append_right old inside)).sublist majorVer among)
      (extents.map (·.lowestVcn)) fun l inside => by
        obtain ⟨e, member, rfl⟩ := List.mem_map.mp inside
        have place := follow.inside.2 e member
        exact place.2.1.trans_lt place.2.2
    refine ⟨extents ++ extents', by dsimp only; rw [made]; rfl, follow.append follow',
      fun e inside => ?_⟩
    rcases List.mem_append.mp inside with inside | inside
    · exact each e inside
    · exact each' e inside

/-- The update starts with the record of a cluster that is known. -/
theorem updateRecords_spec (ends : t.length = 0) (runs : Runs start rs t.vcn) (first : 0 ≤ start)
    (low : start ≤ v) (high : v < t.vcn) (few : rs.length * 17 < intMax) {old new : List Nat}
    (base : old ≠ []) {fromVcn : Int} (front : fromVcn = 0 → v = 0)
    (enough : (cut v rs).length ≤ old.length + new.length)
    (room : ∀ n ∈ old ++ new, Roomy majorVer (cut v rs) n) :
    ∃ extents, updateRecords majorVer (rs ++ [t]) old new fromVcn v = some (.ok extents) ∧
      Follow v extents t.vcn ∧ ∀ e ∈ extents, Holds majorVer rs e := by
  have filled := fillRecords_spec majorVer ends runs first low high few enough room
  rw [updateRecords, if_neg base]
  by_cases start' : fromVcn = 0
  · rw [if_pos start']
    rw [front start'] at filled ⊢
    exact filled
  · obtain ⟨l, place⟩ := runs.tiles.found low high
    have known : lcnHole ≤ l := lcnAt_le (fun r inside => (runs.whole r inside).place) place
    have hole : lcnRlNotMapped < lcnHole ∧ lcnEnoent < lcnHole ∧ lcnEinval < lcnHole := by decide
    rw [if_neg start', rlVcnToLcn_eq ends runs.tiles first low, place, Option.some_or,
      Option.bind_some, if_neg (by omega), if_neg (by omega)]
    exact filled

/-- Whatever room the records have, as long as each has room for any one of the runs: the update
ends, the records follow each other over all of the clusters, and every one of them is read as its
part of the runlist. -/
theorem records_restored (ends : t.length = 0) (runs : Runs start rs t.vcn) (first : 0 ≤ start)
    (low : start ≤ v) (high : v < t.vcn) (far : t.vcn < 2 ^ 63) (few : rs.length * 17 < intMax)
    {old new : List Nat} (base : old ≠ []) {fromVcn : Int} (front : fromVcn = 0 → v = 0)
    (enough : (cut v rs).length ≤ old.length + new.length)
    (room : ∀ n ∈ old ++ new, Roomy majorVer (cut v rs) n) :
    ∃ extents, updateRecords majorVer (rs ++ [t]) old new fromVcn v = some (.ok extents) ∧
      Follow v extents t.vcn ∧ ∀ e ∈ extents, ∀ attr, Stored clusterSizeBits e attr →
        ∃ rl, mappingPairsDecompress clusterSizeBits beyond attr = some (.ok rl) ∧
          Restores e rl (rs ++ [t]) := by
  obtain ⟨extents, made, follow, each⟩ :=
    updateRecords_spec majorVer ends runs first low high few base front enough room
  refine ⟨extents, made, follow, fun e inside attr stored => ?_⟩
  obtain ⟨short, part, array, own, same⟩ := each e inside
  have place := follow.inside.2 e inside
  exact restores_stored majorVer beyond stored ends runs first (low.trans place.1) own same
    place.2.2 far array short

end Records

/-- The array of the runs from the fourth cluster on. -/
def threePairs : List UInt8 := [0x21, 7, 235, 3, 1, 5, 0x22, 44, 1, 71, 252, 0]

theorem threeRuns_restored : ∃ rl,
    mappingPairsDecompress 12 0 ⟨true, 3, 314, 0, 0, threePairs ++ [0xff]⟩ = some (.ok rl) ∧
      Restores ⟨3, 315 - 1, threePairs⟩ rl (threeRuns ++ [threeRunsEnd]) :=
  have stored : Stored 12 ⟨3, 315 - 1, threePairs⟩ ⟨true, 3, 314, 0, 0, threePairs ++ [0xff]⟩ :=
    ⟨rfl, rfl, rfl, Nat.zero_le _, ⟨[0xff], rfl⟩, fun front => absurd front (by decide)⟩
  have built : mappingPairsBuild 3 12 (threeRuns ++ [threeRunsEnd]) 3 =
      some (.ok (), threePairs, some [threeRunsEnd]) := rfl
  runs_restored 3 0 (t := threeRunsEnd) rfl threeRuns_runs le_rfl (by decide) (by decide)
    (by decide) built (by decide) stored

theorem threeRuns_records : ∃ extents,
    updateRecords 3 (threeRuns ++ [threeRunsEnd]) [8] [8, 16] 3 3 = some (.ok extents) ∧
      Follow 3 extents 315 ∧ ∀ e ∈ extents, ∀ attr, Stored 12 e attr →
        ∃ rl, mappingPairsDecompress 12 0 attr = some (.ok rl) ∧
          Restores e rl (threeRuns ++ [threeRunsEnd]) :=
  have room : ∀ n ∈ [8] ++ [8, 16], Roomy 3 (cut 3 threeRuns) n := by decide
  records_restored 3 0 (t := threeRunsEnd) rfl threeRuns_runs le_rfl (by decide) (by decide)
    (by decide) (by decide) (by decide) (by decide) (by decide) room

end MappingPairs
