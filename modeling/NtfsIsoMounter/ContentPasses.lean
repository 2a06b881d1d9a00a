import NtfsIsoMounter.RecordPasses

/-!
# The two passes over the directories

`buildContent` on bytes does what the records do: after the first `k` directories
the contents are the packed records of each, and the sectors used are those of
the first `k`. A pass that ends has built all of them.
-/

namespace ContentPasses

open ByteOrder CText SectorPacking SourceTrees DirectoryRecords ImageBuild RecordPasses

/-! ## The strings looked for -/

theorem utf8ToUcs2_even (n : Nat) (utf8 : List UInt8) : (utf8ToUcs2 n utf8).length % 2 = 0 := by
  induction n generalizing utf8 with
  | zero => rfl
  | succ n ih =>
    rw [utf8ToUcs2]
    split
    · rfl
    · rw [List.length_append, beBytes_length, Nat.add_mod, ih]

theorem upper_eq_zero {b : UInt8} (zero : upper b = 0) : b = 0 := by
  have all : ∀ b : UInt8, upper b = 0 → b = 0 := by decide +kernel
  exact all b zero

/-- No directory looks for the identifier of `.`. -/
theorem strCheck_ne_dot (joliet : Bool) {name : List UInt8} (plain : 0 ∉ name) :
    strCheck joliet name ≠ [0] := by
  intro same
  cases joliet with
  | true =>
    have even := utf8ToUcs2_even (maxIsoDir / 2) name
    rw [show utf8ToUcs2 (maxIsoDir / 2) name = [0] from same] at even
    cases even
  | false =>
    have mapped : (name.take (maxIsoName - 2)).map upper = [0] := same
    obtain ⟨b, bs, front, zero, -⟩ := List.map_eq_cons_iff.mp mapped
    have inside : b ∈ name := List.mem_of_mem_take (front ▸ List.mem_cons_self)
    rw [upper_eq_zero zero] at inside
    exact plain inside

/-! ## The records of the first directories -/

section Pass
variable (stat : List UInt8 → Option Stat) (joliet : Bool) {dirs : List Dir}
  (files : List (List FileEntry))

theorem builtBelow_succ (k i : Nat) : builtBelow dirs (k + 1) i =
    builtBelow dirs k i ++ if k ≠ i ∧ getParent dirs k = i then [k] else [] := by
  rw [builtBelow, List.range_succ, List.filter_append, builtBelow, List.filter_singleton,
    Bool.cond_decide]

theorem recordsAt_succ (k i : Nat) : recordsAt stat joliet dirs files (k + 1) i =
    if k ≠ i ∧ getParent dirs k = i then
      assign (keyAt joliet dirs k) (startAt stat joliet dirs files k)
        (sizeAt stat joliet dirs files k) (recordsAt stat joliet dirs files k i)
    else recordsAt stat joliet dirs files k i := by
  rw [recordsAt, builtBelow_succ, List.foldl_append]
  split
  · rfl
  · rfl

theorem recordsAt_kinds (k i : Nat) : (recordsAt stat joliet dirs files k i).map kind =
    (freshAt stat joliet dirs files i).map kind := by
  induction k with
  | zero => rfl
  | succ k ih =>
    rw [recordsAt_succ]
    split
    · rw [assign_kinds, ih]
    · exact ih

theorem ident_of_kinds {xs ys : List Record} (same : xs.map kind = ys.map kind) :
    xs.map Record.ident = ys.map Record.ident := by
  have idents := congrArg (List.map (fun k : RecordTime × UInt8 × List UInt8 => k.2.2)) same
  rwa [List.map_map, List.map_map] at idents

theorem short_of_kinds {xs ys : List Record} (same : xs.map kind = ys.map kind)
    (short : ∀ y ∈ ys, Short y.ident) : ∀ x ∈ xs, Short x.ident := by
  intro x hx
  have member : x.ident ∈ ys.map Record.ident := ident_of_kinds same ▸ List.mem_map_of_mem hx
  obtain ⟨y, hy, ident⟩ := List.mem_map.mp member
  exact ident ▸ short y hy

/-- The first record keeps its extent as long as no directory looks for it. -/
theorem recordsAt_head (keys : ∀ j, j ≠ 0 → j < dirs.length → keyAt joliet dirs j ≠ [0]) {k : Nat}
    (inside : k ≤ dirs.length) (i : Nat) :
    ∃ rest, recordsAt stat joliet dirs files k i =
      ⟨startAt stat joliet dirs files i, sizeAt stat joliet dirs files i, timeAt stat dirs i,
        isoDirectory, [0]⟩ :: rest := by
  induction k with
  | zero => exact ⟨_, rfl⟩
  | succ k ih =>
    obtain ⟨rest, same⟩ := ih (by omega)
    rw [recordsAt_succ, same]
    split
    · rename_i child
      have later : k ≠ 0 := by
        rintro rfl
        exact child.1 ((getParent_zero dirs).symm.trans child.2)
      rw [assign, if_neg (keys k later inside).symm]
      exact ⟨_, rfl⟩
    · exact ⟨_, rfl⟩

theorem recordsAt_self (earlier : ∀ j, j ≠ 0 → j < dirs.length → getParent dirs j < j) {k : Nat}
    (inside : k ≤ dirs.length) {i : Nat} (le : k ≤ i + 1) :
    recordsAt stat joliet dirs files k i = freshAt stat joliet dirs files i := by
  induction k with
  | zero => rfl
  | succ k ih =>
    rw [recordsAt_succ, if_neg, ih (by omega) (by omega)]
    rintro ⟨other, parent⟩
    by_cases first : k = 0
    · rw [first, getParent_zero] at parent
      omega
    · have := earlier k first inside
      omega

end Pass

/-! ## One directory -/

section Step
variable {stat : List UInt8 → Option Stat} {joliet : Bool} {dirs : List Dir}
  {files : List (List FileEntry)} {tempBufSize : Nat} {k : Nat} {d : Dir}

theorem timeAt_of_stat {i : Nat} {s : Stat}
    (found : (dirs[i]?.bind fun p => stat p.path) = some s) : timeAt stat dirs i = s.mtime := by
  rw [timeAt, found]
  rfl

/-- The content with its own extent in its first record. -/
theorem content_packed {up : Record} {rs : List Record} {placed : List UInt8} {own : RecordTime}
    (up' : up.ident = [1]) (time : timeAt stat dirs k = own)
    (entries : rs = entriesAt stat joliet dirs files k)
    (short : ∀ r ∈ freshAt stat joliet dirs files k, Short r.ident)
    (ok : placeAll tempBufSize (rs.map Record.bytes)
      ((dotRecord (startAt stat joliet dirs files k) own).bytes ++ up.bytes) = some placed) :
    (placed.length + 0x7ff) / 0x800 * 0x800 = sizeAt stat joliet dirs files k ∧
      setExtent (placed ++ List.replicate
          ((placed.length + 0x7ff) / 0x800 * 0x800 - placed.length) 0) 0
        (extentBytes (startAt stat joliet dirs files k) ((placed.length + 0x7ff) / 0x800 * 0x800)) =
      packed (⟨startAt stat joliet dirs files k, sizeAt stat joliet dirs files k,
        timeAt stat dirs k, isoDirectory, [0]⟩ :: up :: entriesAt stat joliet dirs files k) := by
  have dot : (dotRecord (startAt stat joliet dirs files k) own).ident = [0] := rfl
  obtain ⟨content, size⟩ := placeAll_content dot up' ok
  have length : (packed (dotRecord (startAt stat joliet dirs files k) own :: up :: rs)).length =
      sizeAt stat joliet dirs files k := by
    rw [sizeAt, entries]
    refine packed_length_congr ?_ ?_
    · intro r hr
      rcases List.mem_cons.mp hr with rfl | hr
      · exact short_dot
      · rcases List.mem_cons.mp hr with rfl | hr
        · exact up' ▸ short_dotDot
        · exact short r (List.mem_cons_of_mem _ (List.mem_cons_of_mem _ hr))
    · rw [List.map_cons, List.map_cons, List.map_cons, List.map_cons, up']
      rfl
  rw [length] at size
  refine ⟨size, ?_⟩
  rw [content, size, setExtent_first dot, time, entries]
  rfl

theorem passAt_succ_contents (earlier : ∀ j, j ≠ 0 → j < dirs.length → getParent dirs j < j)
    (inside : k < dirs.length) : (passAt stat joliet dirs files (k + 1)).contents =
      (List.range k).map (fun i => packed (recordsAt stat joliet dirs files (k + 1) i)) ++
        [packed (freshAt stat joliet dirs files k)] := by
  have fresh := recordsAt_self stat joliet files earlier inside (Nat.le_refl (k + 1))
  rw [passAt, List.range_succ, List.map_append, List.map_singleton, fresh]

theorem map_range_set {α : Type} {f g : Nat → α} {k p : Nat} (same : ∀ i < k, i ≠ p → f i = g i)
    (inside : p < k) : (List.range k).map f = ((List.range k).map g).set p (f p) := by
  apply List.ext_getElem?
  intro i
  by_cases small : i < k
  · by_cases here : i = p
    · rw [here, List.getElem?_set_self (by simpa using inside), List.getElem?_map,
        List.getElem?_range inside]
      rfl
    · rw [List.getElem?_set_ne (fun h => here h.symm), List.getElem?_map, List.getElem?_map,
        List.getElem?_range small]
      exact congrArg some (same i small here)
  · rw [List.getElem?_eq_none (by simpa using small), List.getElem?_eq_none (by simpa using small)]

/-- The input directory is built first. -/
theorem passAt_first (earlier : ∀ j, j ≠ 0 → j < dirs.length → getParent dirs j < j)
    (some' : 0 < dirs.length) : passAt stat joliet dirs files 1 =
      ⟨(passAt stat joliet dirs files 0).contents ++ [packed (freshAt stat joliet dirs files 0)],
        ((passAt stat joliet dirs files 0).sectors +
          bytesToSectors (sizeAt stat joliet dirs files 0)) % 2 ^ 32⟩ :=
  congrArg₂ Pass.mk (passAt_succ_contents earlier some') rfl

/-- A later one changes the content of its parent. -/
theorem passAt_later (earlier : ∀ j, j ≠ 0 → j < dirs.length → getParent dirs j < j)
    (inside : k < dirs.length) (later : k ≠ 0) : passAt stat joliet dirs files (k + 1) =
      ⟨(passAt stat joliet dirs files k).contents.set (getParent dirs k)
          (packed (assign (keyAt joliet dirs k) (startAt stat joliet dirs files k)
            (sizeAt stat joliet dirs files k)
            (recordsAt stat joliet dirs files k (getParent dirs k)))) ++
          [packed (freshAt stat joliet dirs files k)],
        ((passAt stat joliet dirs files k).sectors +
          bytesToSectors (sizeAt stat joliet dirs files k)) % 2 ^ 32⟩ := by
  have parent := earlier k later inside
  refine congrArg₂ Pass.mk ((passAt_succ_contents earlier inside).trans ?_) rfl
  have others := map_range_set
    (f := fun i => packed (recordsAt stat joliet dirs files (k + 1) i))
    (g := fun i => packed (recordsAt stat joliet dirs files k i)) (k := k) (p := getParent dirs k)
    (by
      intro i _ other
      rw [recordsAt_succ, if_neg]
      rintro ⟨-, same⟩
      exact other same.symm) parent
  rw [others, recordsAt_succ, if_pos ⟨parent.ne', rfl⟩]
  rfl

theorem pure_ok {a b : Pass} : (pure a : Except Stop Pass) = .ok b ↔ a = b :=
  ⟨Except.ok.inj, congrArg Except.ok⟩

theorem entriesAt_of_made {entries : List (List Record)} {children : List Record}
    (made : (files.getD k []).mapM (fileRecords stat joliet) = some entries)
    (made' : childRecords stat joliet dirs k = some children) :
    entries.flatten ++ children = entriesAt stat joliet dirs files k := by
  rw [entriesAt, fileRecordsAt, childRecordsAt, made, made']
  rfl

variable (here : dirs[k]? = some d)
  (earlier : ∀ j, j ≠ 0 → j < dirs.length → getParent dirs j < j)
  (short : ∀ i ≤ k, ∀ r ∈ freshAt stat joliet dirs files i, Short r.ident) {st : Pass}
  (ok : buildContent stat joliet tempBufSize dirs (files.getD k [])
    (passAt stat joliet dirs files k) k d = .ok st)
include here earlier short ok

theorem buildContent_first (first : k = 0) : st = passAt stat joliet dirs files 1 := by
  have inside : k < dirs.length := (List.getElem?_eq_some_iff.mp here).1
  subst first
  have root := getParent_zero dirs
  simp only [buildContent, if_pos root, bind_ok, need_ok, pure_bind, pure_ok] at ok
  obtain ⟨own, hown, above, habove, entries, hentries, children, hchildren, placed, hplaced,
    rfl⟩ := ok
  have time : timeAt stat dirs 0 = own.mtime := timeAt_of_stat (by rw [here]; exact hown)
  have time' : timeAt stat dirs (getParent dirs 0) = above.mtime := timeAt_of_stat habove
  have up : (dotDotRecord above.mtime).ident = [1] := rfl
  obtain ⟨size, content⟩ := content_packed up time (entriesAt_of_made hentries hchildren)
    (short 0 (Nat.le_refl 0)) hplaced
  have whole : setExtent (setExtent (placed ++ List.replicate
        ((placed.length + 0x7ff) / 0x800 * 0x800 - placed.length) 0) 0 (extentBytes
        (startAt stat joliet dirs files 0) ((placed.length + 0x7ff) / 0x800 * 0x800))) 0x28
      (getExtent (setExtent (placed ++ List.replicate
        ((placed.length + 0x7ff) / 0x800 * 0x800 - placed.length) 0) 0 (extentBytes
        (startAt stat joliet dirs files 0) ((placed.length + 0x7ff) / 0x800 * 0x800))) 0) =
      packed (freshAt stat joliet dirs files 0) := by
    rw [content, getExtent_first rfl, setExtent_second rfl up, freshAt, root, ← time', root]
    rfl
  rw [passAt_first earlier inside, ← whole, ← size]
  rfl

/-- A directory behind the first finds its string in its parent. -/
theorem buildContent_later (keys : ∀ j, j ≠ 0 → j < dirs.length → keyAt joliet dirs j ≠ [0])
    (later : k ≠ 0) : st = passAt stat joliet dirs files (k + 1) ∧
      ∃ r ∈ recordsAt stat joliet dirs files k (getParent dirs k),
        r.ident = keyAt joliet dirs k := by
  have inside : k < dirs.length := (List.getElem?_eq_some_iff.mp here).1
  have parent := earlier k later inside
  simp only [buildContent, if_neg parent.ne, bind_ok, need_ok] at ok
  obtain ⟨own, hown, parentRecord, stored, above, habove, entries, hentries, children, hchildren,
    placed, hplaced, last⟩ := ok
  have content : (passAt stat joliet dirs files k).contents[getParent dirs k]? =
      some (packed (recordsAt stat joliet dirs files k (getParent dirs k))) := by
    rw [passAt, List.getElem?_map, List.getElem?_range parent]
    rfl
  rw [content, deref] at stored
  cases stored
  have time : timeAt stat dirs k = own.mtime := timeAt_of_stat (by rw [here]; exact hown)
  have time' : timeAt stat dirs (getParent dirs k) = above.mtime := timeAt_of_stat habove
  have extent : getExtent (packed (recordsAt stat joliet dirs files k (getParent dirs k))) 0 =
      extentBytes (startAt stat joliet dirs files (getParent dirs k))
        (sizeAt stat joliet dirs files (getParent dirs k)) := by
    obtain ⟨rest, head⟩ := recordsAt_head stat joliet files keys inside.le (getParent dirs k)
    rw [head, getExtent_first rfl]
  have up : setExtent (dotDotRecord above.mtime).bytes 0
      (getExtent (packed (recordsAt stat joliet dirs files k (getParent dirs k))) 0) =
      (⟨startAt stat joliet dirs files (getParent dirs k),
        sizeAt stat joliet dirs files (getParent dirs k), above.mtime, isoDirectory, [1]⟩ :
        Record).bytes := by
    rw [extent, setExtent_dotDot]
  dsimp only at hplaced last
  rw [up] at hplaced
  obtain ⟨size, built⟩ := content_packed rfl time (entriesAt_of_made hentries hchildren)
    (short k (Nat.le_refl k)) hplaced
  have fresh : packed (⟨startAt stat joliet dirs files k, sizeAt stat joliet dirs files k,
      timeAt stat dirs k, isoDirectory, [0]⟩ :: ⟨startAt stat joliet dirs files (getParent dirs k),
        sizeAt stat joliet dirs files (getParent dirs k), above.mtime, isoDirectory, [1]⟩ ::
      entriesAt stat joliet dirs files k) = packed (freshAt stat joliet dirs files k) := by
    rw [freshAt, time']
  rw [fresh] at built
  obtain ⟨pos, found, made⟩ := bind_ok.mp last
  rw [need_ok] at found
  rw [pure_ok] at made
  have own' : keyAt joliet dirs k = strCheck joliet (baseName d.path) := by
    rw [keyAt, here]
    rfl
  rw [← own'] at found
  have shorts := short_of_kinds (recordsAt_kinds stat joliet files k (getParent dirs k))
    (short _ parent.le)
  obtain ⟨member, assigned⟩ := findDirRecord_assign (startAt stat joliet dirs files k)
    (sizeAt stat joliet dirs files k) shorts found
  refine ⟨?_, member⟩
  have first : getExtent (packed (freshAt stat joliet dirs files k)) 0 =
      extentBytes (startAt stat joliet dirs files k) (sizeAt stat joliet dirs files k) :=
    getExtent_first rfl _
  rw [passAt_later earlier inside later, ← made, ← assigned, ← first, ← built, ← size]
  rfl

end Step

/-! ## A whole pass -/

section Run
variable {stat : List UInt8 → Option Stat} {joliet : Bool} {dirs : List Dir}
  {files : List (List FileEntry)} {tempBufSize : Nat}
variable (earlier : ∀ j, j ≠ 0 → j < dirs.length → getParent dirs j < j)
  (keys : ∀ j, j ≠ 0 → j < dirs.length → keyAt joliet dirs j ≠ [0])
include earlier keys

/-- From any place of the list a pass over the directories that follow has built
them, and each has found its string in its parent. -/
theorem buildContents_run (rest : List Dir) {k : Nat} (split : rest <+: dirs.drop k)
    (short : ∀ i < k + rest.length, ∀ r ∈ freshAt stat joliet dirs files i, Short r.ident)
    {st : Pass} (ok : buildContents stat joliet tempBufSize dirs files k rest
      (passAt stat joliet dirs files k) = .ok st) :
    st = passAt stat joliet dirs files (k + rest.length) ∧
      ∀ j, j ≠ 0 → k ≤ j → j < k + rest.length →
        ∃ r ∈ recordsAt stat joliet dirs files j (getParent dirs j),
          r.ident = keyAt joliet dirs j := by
  induction rest generalizing k with
  | nil =>
    cases ok
    exact ⟨rfl, fun j _ low high => absurd low (by simpa using high)⟩
  | cons d rest ih =>
    rw [buildContents] at ok
    obtain ⟨mid, turn, ok⟩ := bind_ok.mp ok
    obtain ⟨beyond, split⟩ := split
    have here : dirs[k]? = some d := by
      rw [← List.head?_drop, ← split, List.cons_append, List.head?_cons]
    have behind : rest <+: dirs.drop (k + 1) := by
      rw [← List.drop_drop, ← split, List.cons_append, List.drop_succ_cons, List.drop_zero]
      exact List.prefix_append rest beyond
    have length : k + (d :: rest).length = k + 1 + rest.length := by
      rw [List.length_cons]
      omega
    rw [length] at short ⊢
    have short' : ∀ i ≤ k, ∀ r ∈ freshAt stat joliet dirs files i, Short r.ident :=
      fun i le => short i (by omega)
    by_cases first : k = 0
    · have built := buildContent_first here earlier short' turn first
      rw [built] at ok
      subst first
      obtain ⟨done, found⟩ := ih behind short ok
      exact ⟨done, fun j later _ high => found j later (by omega) high⟩
    · obtain ⟨built, member⟩ := buildContent_later here earlier short' turn keys first
      rw [built] at ok
      obtain ⟨done, found⟩ := ih behind short ok
      refine ⟨done, fun j later low high => ?_⟩
      rcases Nat.eq_or_lt_of_le low with rfl | low
      · exact member
      · exact found j later low high

/-- A pass over the first directories. -/
theorem buildContents_take {n : Nat} (inside : n ≤ dirs.length)
    (short : ∀ i < n, ∀ r ∈ freshAt stat joliet dirs files i, Short r.ident) {st : Pass}
    (ok : buildContents stat joliet tempBufSize dirs files 0 (dirs.take n) ⟨[], 0⟩ = .ok st) :
    st = passAt stat joliet dirs files n ∧
      ∀ j, j ≠ 0 → j < n →
        ∃ r ∈ recordsAt stat joliet dirs files j (getParent dirs j),
          r.ident = keyAt joliet dirs j := by
  have length : 0 + (dirs.take n).length = n := by
    rw [List.length_take]
    omega
  have run := buildContents_run earlier keys (dirs.take n)
    (by rw [List.drop_zero]; exact List.take_prefix n dirs) (by rw [length]; exact short) ok
  rw [length] at run
  exact ⟨run.1, fun j later low => run.2 j later (Nat.zero_le j) low⟩

/-- A pass over the whole list. -/
theorem buildContents_pass
    (short : ∀ i < dirs.length, ∀ r ∈ freshAt stat joliet dirs files i, Short r.ident) {st : Pass}
    (ok : buildContents stat joliet tempBufSize dirs files 0 dirs ⟨[], 0⟩ = .ok st) :
    st = passAt stat joliet dirs files dirs.length ∧
      ∀ j, j ≠ 0 → j < dirs.length →
        ∃ r ∈ recordsAt stat joliet dirs files j (getParent dirs j),
          r.ident = keyAt joliet dirs j := by
  have whole : dirs.take dirs.length = dirs := List.take_length
  exact buildContents_take earlier keys le_rfl short (by rw [whole]; exact ok)

end Run

section Listing
variable {inDir : List UInt8} {tree : SourceTree}

theorem listDirs_earlier (proper : tree.Proper) :
    ∀ j, j ≠ 0 → j < (listDirs inDir tree).length → getParent (listDirs inDir tree) j < j := by
  intro j later inside
  obtain ⟨p, -, -, earlier⟩ := getParent_spec proper (List.getElem?_eq_getElem inside) later
  exact earlier

theorem listDirs_keys (proper : tree.Proper) (joliet : Bool) :
    ∀ j, j ≠ 0 → j < (listDirs inDir tree).length → keyAt joliet (listDirs inDir tree) j ≠ [0] := by
  intro j later inside
  have here := List.getElem?_eq_getElem inside
  obtain ⟨p, parent, inner, -⟩ := getParent_spec proper here later
  obtain ⟨name, member, path⟩ := Dir.mem_subdirs.mp inner
  obtain ⟨-, plain, text⟩ := (mem_listDirs_proper proper (List.mem_of_getElem? parent)).name member
  have key : keyAt joliet (listDirs inDir tree) j = strCheck joliet name := by
    rw [keyAt, here, Option.map_some, Option.getD_some, path, baseName_createPath plain]
  rw [key]
  exact strCheck_ne_dot joliet text

end Listing

end ContentPasses
