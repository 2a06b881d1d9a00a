import NtfsIsoMounter.DeviceRuns
import NtfsIsoMounter.RunlistMapping
import NtfsIsoMounter.RunlistBytes

/-!
# A file over its runlist

What is written through a runlist is read through it again. It is also read again through the
runlist that `ntfs_attr_map_whole_runlist` makes of the records of the attribute, however the
clusters are divided there.
-/

namespace RunlistFiles

open ByteMaps SectorCache SectorRequests GekkoIo GekkoDevice MappingPairs RunlistBytes

variable {m pages : Nat} [NeZero m] [NeZero pages] {io : DiscInterface (Sector m)}
  {start stop : Nat} {d : Nat → Sector m} {clusterSizeBits : Nat} {t : RunlistElement}
  {dev : NtfsDevice m pages} {rs ds : List RunlistElement} {pos count : Nat}

theorem lcnAt_mem {first last v : Int} {r : RunlistElement} (tiles : Tiles first ds last)
    (among : r ∈ ds) (low : r.vcn ≤ v) (high : v < r.vcn + r.length) :
    lcnAt v ds = some (r.lcnOf v) := by
  obtain ⟨before, behind, rfl⟩ := List.append_of_mem among
  obtain ⟨mid, front, back⟩ := tiles_append.mp tiles
  have place : r.vcn = mid := back.1
  rw [lcnAt_append, (lcnAt_eq_none front).mpr (by omega), Option.none_or, lcnAt,
    if_pos ⟨low, high⟩]

theorem lcnAt_found {v l : Int} (found : lcnAt v rs = some l) :
    ∃ r ∈ rs, r.vcn ≤ v ∧ v < r.vcn + r.length ∧ l = r.lcnOf v := by
  induction rs with
  | nil => cases found
  | cons r rs ih =>
    rw [lcnAt] at found
    split at found
    · rename_i own
      exact ⟨r, List.mem_cons_self, own.1, own.2, (Option.some.inj found).symm⟩
    · obtain ⟨r', among, place⟩ := ih found
      exact ⟨r', List.mem_cons_of_mem r among, place⟩

/-- Runs of which no two share a cluster of the device are apart. -/
theorem apart_of_clear (clear : rs.Pairwise fun r r' => r.lcn < 0 ∨ r'.lcn < 0 ∨
      r.lcn + r.length ≤ r'.lcn ∨ r'.lcn + r'.length ≤ r.lcn) : Apart rs := by
  induction clear with
  | nil => exact fun v w l first => by cases first
  | @cons r rs own rest ih =>
    intro v w l first second known
    have away {u u' : Int} (inside : r.vcn ≤ u ∧ u < r.vcn + r.length) (here : r.lcnOf u = l)
        (found : lcnAt u' rs = some l) : False := by
      obtain ⟨r', among, low, high, there⟩ := lcnAt_found found
      have clear := own r' among
      rw [RunlistElement.lcnOf] at here there
      split at here <;> split at there <;> omega
    rw [lcnAt] at first second
    split at first
    · rename_i inside
      have here := Option.some.inj first
      split at second
      · have there := Option.some.inj second
        rw [RunlistElement.lcnOf] at here there
        split at here <;> omega
      · exact (away inside here second).elim
    · split at second
      · rename_i inside
        exact (away inside (Option.some.inj second) first).elim
      · exact ih v w l first second known

/-- What is read of bytes that have been written: those of holes are lost. -/
def kept (clusterSizeBits : Nat) (rs : List RunlistElement) (pos : Nat) (b : Nat → UInt8)
    (i : Nat) : UInt8 :=
  match place clusterSizeBits rs (pos + i) with
  | none => 0
  | some _ => b i

/-- Bytes that are in the device are read through every list that has the clusters there. -/
theorem read_stored (works : Works io) (memory : Nat → UInt8) (plugged : Plugged start stop d dev)
    (tiles : Tiles 0 ds t.vcn) (inside : Inside clusterSizeBits ds ((stop - start) * m))
    (high : (pos : Int) + count ≤ t.vcn * 2 ^ clusterSizeBits) {b : Nat → UInt8}
    (same : ∀ i < count, place clusterSizeBits ds (pos + i) = place clusterSizeBits rs (pos + i))
    (stored : ∀ i < count, ∀ k : Nat, place clusterSizeBits rs (pos + i) = some (k : Int) →
      contents dev k = b i) (stale : List RunlistElement) (c : Nat → UInt8) :
    ∃ dev', ntfsRlPread io memory clusterSizeBits dev (ds ++ t :: stale) pos count c =
      some (.ok count, fill c 0 count (kept clusterSizeBits rs pos b), dev') := by
  obtain ⟨answer, b', store', read, -, -, ⟨l, le, moved, answers⟩, calm⟩ :=
    ntfsRlPread_spec works.keepsBuffers memory plugged tiles inside high stale c
  refine ⟨{ dev with store := store' }, read.trans ?_⟩
  have ok := calm works
  have whole : l = count := by
    rcases answers with ⟨-, whole⟩ | ⟨k, less, failed⟩
    · exact whole
    · rw [ok, rlErrOut] at failed
      split at failed
      · have few := Except.ok.inj failed
        omega
      · cases failed
  rw [ok, moved, whole]
  refine congrArg (fun b' => some (Except.ok count, b', _)) (fill_congr _ _ fun i less => ?_)
  rw [same i less, kept]
  cases here : place clusterSizeBits rs (pos + i) with
  | none => rfl
  | some a =>
    obtain ⟨k, rfl⟩ := place_nat here
    exact stored i less k here

/-- A write through a runlist is followed by a read through it: every byte is there, but for those
in holes, and no byte beside them has changed. -/
theorem runs_round_trip (works : Works io) (memory : Nat → UInt8)
    (plugged : Plugged start stop d dev) (writable : dev.readOnly = false)
    (unsynced : dev.sync = false) (tiles : Tiles 0 rs t.vcn)
    (inside : Inside clusterSizeBits rs ((stop - start) * m)) (apart : Apart rs)
    (high : (pos : Int) + count ≤ t.vcn * 2 ^ clusterSizeBits) (stale : List RunlistElement)
    (b : Nat → UInt8) :
    ∃ dev', ntfsRlPwrite io memory clusterSizeBits false dev (rs ++ t :: stale) 0 pos count b =
        some (.ok count, dev') ∧
      (∀ a : Nat, (∀ i < count, place clusterSizeBits rs (pos + i) ≠ some (a : Int)) →
        contents dev' a = contents dev a) ∧
      ∀ c, ∃ dev'', ntfsRlPread io memory clusterSizeBits dev' (rs ++ t :: stale) pos count c =
        some (.ok count, fill c 0 count (kept clusterSizeBits rs pos b), dev'') := by
  obtain ⟨dirty, store, ran, plugged', stored, spared⟩ :=
    ntfsRlPwrite_spec works memory plugged writable unsynced tiles inside apart high stale b
  exact ⟨_, ran, spared,
    read_stored works memory plugged' tiles inside high (fun _ _ => rfl) stored stale⟩

/-- Runs in clusters of 512 bytes, with a hole among them. -/
def scattered : List RunlistElement :=
  [⟨0, 10, 2⟩, ⟨2, 14, 2⟩, ⟨4, lcnHole, 2⟩, ⟨6, 18, 2⟩, ⟨8, 2, 2⟩, ⟨10, 26, 2⟩, ⟨12, 30, 2⟩]

def scatteredEnd : RunlistElement := ⟨14, lcnEnoent, 0⟩

theorem scattered_runs : Runs 0 scattered 14 := by
  have whole : ∀ r ∈ scattered, r.Whole := by
    intro r among
    have small : ∀ r ∈ scattered, 0 < r.length ∧ r.length < 2 ^ 63 ∧ -1 ≤ r.lcn ∧
        r.lcn + r.length ≤ 2 ^ 63 := by decide
    obtain ⟨positive, short, place, far⟩ := small r among
    exact ⟨positive, short, place, far⟩
  simp only [scattered, List.forall_mem_cons] at whole
  obtain ⟨one, two, three, four, five, six, seven, -⟩ := whole
  exact ⟨rfl, one, rfl, two, rfl, three, rfl, four, rfl, five, rfl, six, rfl, seven, rfl⟩

theorem scattered_inside : Inside 9 scattered ((63 + 100 - 63) * 512) := by
  unfold Inside
  decide

theorem scattered_apart : Apart scattered := apart_of_clear (by decide)

/-- A device over a disc that works. -/
def blankDevice : NtfsDevice 512 (max 8 4) :=
  openDevice 8 64 63 100 (fun _ _ _ => 0) 0 DeviceRuns.blank

theorem scattered_round_trip : ∃ dev', ntfsRlPwrite ⟨fun _ => .done, fun _ => .done⟩ (fun _ => 0)
      9 false blankDevice (scattered ++ scatteredEnd :: []) 0 (1000 : Nat) (6000 : Nat)
      (fun i => i.toUInt8) = some (.ok 6000, dev') ∧
    (∀ a : Nat, (∀ i < (6000 : Nat), place 9 scattered ((1000 : Nat) + i) ≠ some (a : Int)) →
      contents dev' a = contents blankDevice a) ∧
    ∀ c, ∃ dev'', ntfsRlPread ⟨fun _ => .done, fun _ => .done⟩ (fun _ => 0) 9 dev'
        (scattered ++ scatteredEnd :: []) (1000 : Nat) (6000 : Nat) c =
      some (.ok 6000, fill c 0 6000 (kept 9 scattered 1000 fun i => i.toUInt8), dev'') := by
  have room : 63 + 100 + max 64 32 < 2 ^ 32 := by decide
  obtain ⟨running, -⟩ := DeviceRuns.openDevice_running 8 (fun _ _ _ => 0) 0 DeviceRuns.blank room
  have works : Works (⟨fun _ => .done, fun _ => .done⟩ : DiscInterface (Sector 512)) :=
    fun _ => ⟨rfl, rfl⟩
  have high : ((1000 : Nat) : Int) + (6000 : Nat) ≤ scatteredEnd.vcn * 2 ^ 9 := by decide
  exact runs_round_trip (t := scatteredEnd) works (fun _ => 0) running.plugged rfl rfl
    scattered_runs.tiles scattered_inside scattered_apart high [] _

/-! ## After the runlist has been read again -/

/-- Elements with the clusters at the same places lie in the device as well. -/
theorem Inside.same {total : Int} {size : Nat} (inside : Inside clusterSizeBits rs size)
    (tiles : Tiles 0 ds total)
    (alike : ∀ v, 0 ≤ v → v < total → lcnAt v ds = lcnAt v rs) :
    Inside clusterSizeBits ds size := by
  intro r among
  obtain ⟨low, positive, high⟩ := tiles.mem among
  have ends : r.stop = r.vcn + r.length := rfl
  have own {v : Int} (from' : r.vcn ≤ v) (before : v < r.vcn + r.length) :
      lcnAt v rs = some (r.lcnOf v) :=
    (alike v (by omega) (by omega)).symm.trans (lcnAt_mem tiles among from' before)
  have first : r.lcnOf r.vcn = r.lcn := by
    rw [RunlistElement.lcnOf]
    split <;> omega
  have known : lcnHole ≤ r.lcn :=
    lcnAt_le (fun r' inner => (inside r' inner).1) (first ▸ own le_rfl (by omega))
  refine ⟨known, fun mapped => ?_⟩
  have last : r.lcnOf (r.vcn + r.length - 1) = r.lcn + r.length - 1 := by
    rw [RunlistElement.lcnOf, if_pos mapped]
    omega
  obtain ⟨r', among', from', before, same⟩ :=
    lcnAt_found (own (v := r.vcn + r.length - 1) (by omega) (by omega))
  rw [last, RunlistElement.lcnOf] at same
  split at same
  · rename_i mapped'
    refine le_trans (Int.mul_le_mul_of_nonneg_right ?_ size_pos.le) ((inside r' among').2 mapped')
    omega
  · omega

variable (majorVer : Nat) (beyond : UInt8)

/-- A file is written through its runlist, which is put into records, and the device is closed.
Whoever opens the partition again and reads the records finds the bytes of the file. -/
theorem file_remounted (works : Works io) (memory : Nat → UInt8)
    (plugged : Plugged start stop d dev) (writable : dev.readOnly = false)
    (unsynced : dev.sync = false) (ends : t.length = 0) (runs : Runs 0 rs t.vcn)
    (some' : 0 < t.vcn) (far : t.vcn < 2 ^ 63) (few : rs.length * 17 < intMax)
    (inside : Inside clusterSizeBits rs ((stop - start) * m)) (apart : Apart rs)
    (high : (pos : Int) + count ≤ t.vcn * 2 ^ clusterSizeBits) (b : Nat → UInt8)
    {old new : List Nat} (base : old ≠ []) (enough : rs.length ≤ old.length + new.length)
    (room : ∀ n ∈ old ++ new, Roomy majorVer rs n) {cachePageSize : Nat}
    (within : start + (stop - start) + max cachePageSize 32 < 2 ^ 32) :
    ∃ dev' extents, ntfsRlPwrite io memory clusterSizeBits false dev (rs ++ [t]) 0 pos count b =
        some (.ok count, dev') ∧
      updateRecords majorVer (rs ++ [t]) old new 0 0 = some (.ok extents) ∧
      ∀ lookup, Recorded clusterSizeBits lookup extents t.vcn →
        (∀ e ∈ extents.head?, e.highestVcn ≠ 0 ∨ t.vcn = 1) →
        ∃ rl, mapWholeRunlist clusterSizeBits beyond lookup (extents.length + 1) [] =
            some (none, rl) ∧
          ∀ cachePageCount buffers accessCounter c, ∃ dev'', ntfsRlPread io memory clusterSizeBits
              (openDevice cachePageCount cachePageSize start (stop - start) buffers accessCounter
                (close io dev')) rl pos count c =
            some (.ok count, fill c 0 count (kept clusterSizeBits rs pos b), dev'') := by
  obtain ⟨dirty, store, ran, plugged', stored, -⟩ :=
    ntfsRlPwrite_spec works memory plugged writable unsynced runs.tiles inside apart high [] b
  obtain ⟨extents, made, follow, holds⟩ := updateRecords_spec majorVer ends runs le_rfl le_rfl
    some' few base (fun _ => rfl) ((length_cut 0 rs).trans enough)
    ((cut_self runs le_rfl).symm ▸ room)
  refine ⟨_, extents, ran, made, fun lookup recorded more => ?_⟩
  obtain ⟨rl, mapped, ds, stale, rfl, listed, known, -⟩ :=
    records_mapped majorVer beyond recorded far some' holds follow more
  refine ⟨_, mapped, fun cachePageCount buffers accessCounter c => ?_⟩
  obtain ⟨again, bytes⟩ :=
    DeviceRuns.reopened_contents plugged' works cachePageCount buffers accessCounter within
  have same : ∀ i < count,
      place clusterSizeBits ds (pos + i) = place clusterSizeBits rs (pos + i) := by
    intro i less
    have low : 0 ≤ ((pos : Int) + i) / 2 ^ clusterSizeBits :=
      Int.ediv_nonneg (by omega) size_pos.le
    have below : ((pos : Int) + i) / 2 ^ clusterSizeBits < t.vcn :=
      (Int.ediv_lt_iff_lt_mul size_pos).mpr (by omega)
    rw [place, place, known _ low below]
  have inside' := Inside.same inside listed.tiles known
  rw [← Nat.add_sub_cancel_left (n := start) (m := stop - start)] at inside'
  exact read_stored works memory again listed.tiles inside' high same
    (fun i less k here => (congrFun bytes k).trans (stored i less k here)) stale c

/-- The parts of the runs in records of eight bytes. -/
def scatteredExtents : List Extent :=
  [⟨0, 3, packed 3 0 (scattered.take 2) ++ [0]⟩,
    ⟨4, 7, packed 3 0 ((scattered.drop 2).take 2) ++ [0]⟩,
    ⟨8, 11, packed 3 0 ((scattered.drop 4).take 2) ++ [0]⟩,
    ⟨12, 13, packed 3 0 (scattered.drop 6) ++ [0]⟩]

/-- The file is read by a device with another cache. -/
theorem scattered_remounted : ∃ dev', ntfsRlPwrite ⟨fun _ => .done, fun _ => .done⟩ (fun _ => 0)
      9 false blankDevice (scattered ++ [scatteredEnd]) 0 (1000 : Nat) (6000 : Nat)
      (fun i => i.toUInt8) = some (.ok 6000, dev') ∧
    updateRecords 3 (scattered ++ [scatteredEnd]) [8] [8, 8, 8, 8, 8, 8] 0 0 =
      some (.ok scatteredExtents) ∧
    ∃ rl, mapWholeRunlist 9 0 (recordAt 9 14 scatteredExtents) 5 [] = some (none, rl) ∧
      ∀ c, ∃ dev'', ntfsRlPread ⟨fun _ => .done, fun _ => .done⟩ (fun _ => 0) 9
          (openDevice 4 8 63 100 (fun _ _ _ => 1) 7
            (close ⟨fun _ => .done, fun _ => .done⟩ dev')) rl (1000 : Nat) (6000 : Nat) c =
        some (.ok 6000, fill c 0 6000 (kept 9 scattered 1000 fun i => i.toUInt8), dev'') := by
  have room : 63 + 100 + max 64 32 < 2 ^ 32 := by decide
  obtain ⟨running, -⟩ := DeviceRuns.openDevice_running 8 (fun _ _ _ => 0) 0 DeviceRuns.blank room
  have works : Works (⟨fun _ => .done, fun _ => .done⟩ : DiscInterface (Sector 512)) :=
    fun _ => ⟨rfl, rfl⟩
  have rooms : ∀ n ∈ [8] ++ [8, 8, 8, 8, 8, 8], Roomy 3 scattered n := by decide
  have filled : updateRecords 3 (scattered ++ [scatteredEnd]) [8] [8, 8, 8, 8, 8, 8] 0 0 =
      some (.ok scatteredExtents) := rfl
  have high : ((1000 : Nat) : Int) + (6000 : Nat) ≤ scatteredEnd.vcn * 2 ^ 9 := by decide
  have within : 63 + (63 + 100 - 63) + max 8 32 < 2 ^ 32 := by decide
  obtain ⟨dev', extents, ran, made, whole⟩ := file_remounted (t := scatteredEnd) 3 0 works
    (fun _ => 0) running.plugged rfl rfl rfl scattered_runs (by decide) (by decide) (by decide)
    scattered_inside scattered_apart high (fun i => i.toUInt8) (by decide) (by decide) rooms within
  obtain rfl : scatteredExtents = extents :=
    Except.ok.inj (Option.some.inj (filled.symm.trans made))
  have follow : Follow 0 scatteredExtents 14 :=
    ⟨rfl, by decide, rfl, by decide, rfl, by decide, rfl, by decide, rfl⟩
  obtain ⟨rl, mapped, read⟩ := whole _ follow.recorded fun e first => Or.inl (by
    rw [← Option.some.inj first]
    decide)
  exact ⟨dev', ran, made, rl, mapped, read 4 (fun _ _ _ => 1) 7⟩

end RunlistFiles
