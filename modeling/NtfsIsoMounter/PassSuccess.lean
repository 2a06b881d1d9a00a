import NtfsIsoMounter.RecordLookups

/-!
# When a pass succeeds

A pass over the directories comes to its end once every directory can be looked at,
every content stays below the size of the buffer and every directory behind the first
has its string among the records of its parent.
-/

namespace PassSuccess

open CText SectorPacking SourceTrees DirectoryRecords ImageBuild RecordPasses ContentPasses
  ImageTables RecordLookups

/-! ## Room for the records -/

theorem le_endFrom (pos : Nat) (records : List (List UInt8)) :
    pos ≤ endFrom sectorSize pos records := by
  induction records generalizing pos with
  | nil => exact le_rfl
  | cons record records ih =>
    rw [endFrom]
    have later := ih (pos + gap sectorSize pos record.length + record.length)
    omega

/-- A gap is shorter than the record behind it. -/
theorem gap_le (pos n : Nat) : gap sectorSize pos n ≤ n := by
  rw [gap, fill, sectorSize]
  split <;> omega

theorem endFrom_le (pos : Nat) (records : List (List UInt8)) :
    endFrom sectorSize pos records ≤ pos + 2 * (records.map List.length).sum := by
  induction records generalizing pos with
  | nil => exact Nat.le_add_right _ _
  | cons record records ih =>
    have later := ih (pos + gap sectorSize pos record.length + record.length)
    have short := gap_le pos record.length
    rw [endFrom, List.map_cons, List.sum_cons]
    omega

/-- Records that end below the size of the buffer are all placed. -/
theorem placeAll_some {tempBufSize : Nat} (records : List (List UInt8)) (buf : List UInt8)
    (room : endFrom sectorSize buf.length records < tempBufSize) :
    ∃ out, placeAll tempBufSize records buf = some out := by
  induction records generalizing buf with
  | nil => exact ⟨buf, rfl⟩
  | cons record records ih =>
    rw [endFrom] at room
    have below := lt_of_le_of_lt (le_endFrom _ records) room
    have rounding : (buf.length + 0x7ff) / 0x800 * 0x800 - buf.length =
        fill sectorSize buf.length := by
      simp only [fill, sectorSize]
      omega
    obtain ⟨mid, placed⟩ : ∃ mid, place tempBufSize buf record = some mid := by
      simp only [place, rounding]
      by_cases crossing : buf.length / 0x800 < (buf.length + record.length) / 0x800
      · rw [gap, sectorSize, if_pos crossing] at below
        simp only [if_pos crossing, List.length_append, List.length_replicate]
        exact ⟨_, if_neg (Nat.not_le_of_lt below)⟩
      · rw [gap, sectorSize, if_neg crossing] at below
        simp only [if_neg crossing]
        exact ⟨_, if_neg (Nat.not_le_of_lt below)⟩
    have length : mid.length =
        buf.length + gap sectorSize buf.length record.length + record.length := by
      rw [place_eq placed, List.length_append, List.length_append, List.length_replicate,
        Nat.add_assoc]
    obtain ⟨out, rest⟩ := ih mid (by rw [length]; exact room)
    exact ⟨out, by rw [placeAll, placed]; exact rest⟩

/-! ## One turn -/

section Turn
variable {stat : List UInt8 → Option Stat} {joliet : Bool} {tempBufSize : Nat} {dirs : List Dir}
  {files : List (List FileEntry)}

/-- The records behind the first two find room. -/
theorem placeAll_entries {i : Nat} (own : RecordTime) {up : Record} {rs : List Record}
    (up' : up.ident = [1]) (entries : rs = entriesAt stat joliet dirs files i)
    (room : endFrom sectorSize 80 ((entriesAt stat joliet dirs files i).map Record.bytes) <
      tempBufSize) (first : Nat) :
    ∃ placed, placeAll tempBufSize (rs.map Record.bytes)
      ((dotRecord first own).bytes ++ up.bytes) = some placed := by
  have self : (dotRecord first own).ident = [0] := rfl
  have start : ((dotRecord first own).bytes ++ up.bytes).length = 80 := by
    rw [List.length_append, dot_length self, dotDot_length up']
  apply placeAll_some
  rw [start, entries]
  exact room

theorem buildContent_succeeds {k : Nat} {d : Dir} (here : dirs[k]? = some d)
    (earlier : ∀ j, j ≠ 0 → j < dirs.length → getParent dirs j < j)
    (keys : ∀ j, j ≠ 0 → j < dirs.length → keyAt joliet dirs j ≠ [0])
    (stats : ∀ e ∈ dirs, ∃ s, stat e.path = some s)
    (made : Made stat joliet dirs files k)
    (short : ∀ i ≤ k, ∀ r ∈ freshAt stat joliet dirs files i, Short r.ident)
    (room : endFrom sectorSize 80 ((entriesAt stat joliet dirs files k).map Record.bytes) <
      tempBufSize)
    (found : k ≠ 0 → ∃ r ∈ freshAt stat joliet dirs files (getParent dirs k),
      r.ident = keyAt joliet dirs k) :
    ∃ st, buildContent stat joliet tempBufSize dirs (files.getD k [])
      (passAt stat joliet dirs files k) k d = .ok st := by
  have inside : k < dirs.length := (List.getElem?_eq_some_iff.mp here).1
  obtain ⟨own, hown⟩ := stats d (List.mem_of_getElem? here)
  obtain ⟨entries, hentries⟩ := Option.isSome_iff_exists.mp made.1
  obtain ⟨children, hchildren⟩ := Option.isSome_iff_exists.mp made.2
  have all := entriesAt_of_made hentries hchildren
  have parentInside : getParent dirs k < dirs.length := by
    by_cases first : k = 0
    · rw [first, getParent_zero, ← first]
      exact inside
    · exact (earlier k first inside).trans inside
  obtain ⟨above, habove⟩ := stats _ (List.getElem_mem parentInside)
  have bound : (dirs[getParent dirs k]?.bind fun p => stat p.path) = some above := by
    rw [List.getElem?_eq_getElem parentInside]
    exact habove
  by_cases first : k = 0
  · have root : getParent dirs k = k := by rw [first, getParent_zero]
    have up : (dotDotRecord above.mtime).ident = [1] := rfl
    obtain ⟨placed, hplaced⟩ := placeAll_entries own.mtime up all room
      (passAt stat joliet dirs files k).sectors
    simp only [buildContent, if_pos root, bind_ok, need_ok, pure_bind, pure_ok]
    exact ⟨_, own, hown, above, bound, entries, hentries, children, hchildren, placed, hplaced, rfl⟩
  · have parent := earlier k first inside
    have content : (passAt stat joliet dirs files k).contents[getParent dirs k]? =
        some (packed (recordsAt stat joliet dirs files k (getParent dirs k))) := by
      rw [passAt, List.getElem?_map, List.getElem?_range parent]
      rfl
    obtain ⟨rest, head⟩ := recordsAt_head stat joliet files keys inside.le (getParent dirs k)
    have extent : getExtent (packed (recordsAt stat joliet dirs files k (getParent dirs k))) 0 =
        extentBytes (startAt stat joliet dirs files (getParent dirs k))
          (sizeAt stat joliet dirs files (getParent dirs k)) := by
      rw [head, getExtent_first rfl]
    have up := setExtent_dotDot above.mtime (startAt stat joliet dirs files (getParent dirs k))
      (sizeAt stat joliet dirs files (getParent dirs k))
    rw [← extent] at up
    have moved : Record.ident ⟨startAt stat joliet dirs files (getParent dirs k),
        sizeAt stat joliet dirs files (getParent dirs k), above.mtime, isoDirectory, [1]⟩ = [1] :=
      rfl
    obtain ⟨placed, hplaced⟩ := placeAll_entries own.mtime moved all room
      (passAt stat joliet dirs files k).sectors
    -- the first of the records that have the string
    have kinds : (recordsAt stat joliet dirs files k (getParent dirs k)).map kind =
        (freshAt stat joliet dirs files (getParent dirs k)).map kind := recordsAt_kinds _ _ _ _ _
    have shorts := short_of_kinds kinds (short _ parent.le)
    obtain ⟨r, hr, ident⟩ := found first
    have member : ∃ r ∈ recordsAt stat joliet dirs files k (getParent dirs k),
        r.ident = keyAt joliet dirs k := by
      have listed : keyAt joliet dirs k ∈
          (recordsAt stat joliet dirs files k (getParent dirs k)).map Record.ident := by
        rw [ident_of_kinds kinds, ← ident]
        exact List.mem_map_of_mem hr
      exact List.mem_map.mp listed
    obtain ⟨xs, s, ys, split, other, has⟩ := first_split member
    have walk := findDirRecord_packed (keyAt joliet dirs k) xs ys (split ▸ shorts) other has
    rw [← split] at walk
    have key : keyAt joliet dirs k = strCheck joliet (baseName d.path) := by
      rw [keyAt, here]
      rfl
    rw [key] at walk
    have record : (deref (passAt stat joliet dirs files k).contents[getParent dirs k]?).map some =
        .ok (some (packed (recordsAt stat joliet dirs files k (getParent dirs k)))) := by
      rw [content]
      rfl
    rw [← up] at hplaced
    simp only [buildContent, if_neg parent.ne]
    exact ⟨_, bind_ok.mpr ⟨own, need_ok.mpr hown, bind_ok.mpr ⟨_, record, bind_ok.mpr
      ⟨above, need_ok.mpr bound, bind_ok.mpr ⟨entries, need_ok.mpr hentries, bind_ok.mpr
        ⟨children, need_ok.mpr hchildren, bind_ok.mpr ⟨placed, need_ok.mpr hplaced, bind_ok.mpr
          ⟨_, need_ok.mpr walk, rfl⟩⟩⟩⟩⟩⟩⟩⟩

/-- A pass to which nothing is missing. -/
theorem buildContents_succeeds
    (earlier : ∀ j, j ≠ 0 → j < dirs.length → getParent dirs j < j)
    (keys : ∀ j, j ≠ 0 → j < dirs.length → keyAt joliet dirs j ≠ [0])
    (stats : ∀ e ∈ dirs, ∃ s, stat e.path = some s)
    (made : ∀ i < dirs.length, Made stat joliet dirs files i)
    (shortDirs : ShortDirs joliet dirs)
    (room : ∀ i < dirs.length,
      endFrom sectorSize 80 ((entriesAt stat joliet dirs files i).map Record.bytes) < tempBufSize)
    (found : ∀ j, j ≠ 0 → j < dirs.length →
      ∃ r ∈ freshAt stat joliet dirs files (getParent dirs j), r.ident = keyAt joliet dirs j) :
    buildContents stat joliet tempBufSize dirs files 0 dirs ⟨[], 0⟩ =
      .ok (passAt stat joliet dirs files dirs.length) := by
  have short : ∀ i < dirs.length, ∀ r ∈ freshAt stat joliet dirs files i, Short r.ident :=
    fun i inside => short_fresh (made i inside) (shortDirs i inside)
  have run : ∀ (rest : List Dir) (k : Nat), rest = dirs.drop k →
      ∃ st, buildContents stat joliet tempBufSize dirs files k rest
        (passAt stat joliet dirs files k) = .ok st := by
    intro rest
    induction rest with
    | nil => exact fun k _ => ⟨_, rfl⟩
    | cons d rest ih =>
      intro k split
      have here : dirs[k]? = some d := by
        rw [← List.head?_drop, ← split, List.head?_cons]
      have behind : rest = dirs.drop (k + 1) := by
        rw [← List.drop_drop, ← split, List.drop_succ_cons, List.drop_zero]
      have inside : k < dirs.length := (List.getElem?_eq_some_iff.mp here).1
      have short' : ∀ i ≤ k, ∀ r ∈ freshAt stat joliet dirs files i, Short r.ident :=
        fun i le => short i (lt_of_le_of_lt le inside)
      obtain ⟨st, turn⟩ := buildContent_succeeds here earlier keys stats (made k inside) short'
        (room k inside) fun later => found k later inside
      have next : st = passAt stat joliet dirs files (k + 1) := by
        by_cases first : k = 0
        · have built := buildContent_first here earlier short' turn first
          rw [built, first]
        · exact (buildContent_later here earlier short' turn keys first).1
      rw [next] at turn
      obtain ⟨last, later⟩ := ih (k + 1) behind
      exact ⟨last, bind_ok.mpr ⟨_, turn, later⟩⟩
  obtain ⟨st, ok⟩ := run dirs 0 List.drop_zero.symm
  rw [(buildContents_pass earlier keys short ok).1] at ok
  exact ok

end Turn

end PassSuccess
