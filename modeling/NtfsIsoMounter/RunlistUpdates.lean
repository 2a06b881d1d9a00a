import NtfsIsoMounter.MergePlaces

/-!
# What a merged runlist says

`ntfs_runlists_merge` searches the place of the new runs and puts them there in one of four ways.
Whichever it is, the list then says about their clusters what they say, and about every other
cluster what it has said before.
-/

namespace MappingPairs

open GekkoIo

/-- The elements of a list, and the one that ends it. -/
structure Listed (rs : List RunlistElement) (t : RunlistElement) : Prop where
  tiles : Tiles 0 rs t.vcn
  known : ∀ r ∈ rs, lcnRlNotMapped ≤ r.lcn
  ends : t.length = 0
  last : t.lcn = lcnRlNotMapped ∨ t.lcn = lcnEnoent

/-- Runs that are to be put into a list, behind elements that are not mapped. -/
structure Source (front ss : List RunlistElement) (st : RunlistElement) (s : Int) : Prop where
  behind : ∃ first, 0 ≤ first ∧ Tiles first front s
  unmapped : ∀ r ∈ front, r.lcn < lcnHole
  runs : ss ≠ []
  mapped : ∀ r ∈ ss, lcnHole ≤ r.lcn
  tiles : Tiles s ss st.vcn
  ends : st.length = 0
  last : st.lcn = lcnRlNotMapped

variable {front ss ds stale stale' : List RunlistElement} {st dt : RunlistElement} {s : Int}

theorem Tiles.mem {start stop : Int} {rs : List RunlistElement} (tiles : Tiles start rs stop)
    {r : RunlistElement} (inside : r ∈ rs) :
    start ≤ r.vcn ∧ 0 < r.length ∧ r.stop ≤ stop := by
  obtain ⟨before, behind, rfl⟩ := List.append_of_mem inside
  obtain ⟨mid, first, second⟩ := tiles_append.mp tiles
  have low := first.le
  have high := second.2.2.le
  have place := second.1
  refine ⟨by omega, second.2.1, ?_⟩
  rw [RunlistElement.stop]
  omega

theorem Source.lt (source : Source front ss st s) : s < st.vcn := by
  have tiles := source.tiles
  cases ss with
  | nil => exact absurd rfl source.runs
  | cons r ss =>
    have positive := tiles.2.1
    have rest := tiles.2.2.le
    omega

theorem Source.first (source : Source front ss st s) : (cell ss 0).vcn = s := by
  have tiles := source.tiles
  cases ss with
  | nil => exact absurd rfl source.runs
  | cons r ss => exact tiles.1

/-- The runs of the source are the elements from the first mapped one to the last. -/
theorem Source.scanned (source : Source front ss st s) (stale : List RunlistElement) :
    scan (fun r => ¬ (r.length ≠ 0 ∧ r.lcn < lcnHole)) (front ++ (ss ++ st :: stale)) 0 =
        front.length ∧
      (∃ x, cell (front ++ (ss ++ st :: stale)) front.length = x ∧ x.vcn = s ∧ x.length ≠ 0) ∧
      scan (·.length = 0) (front ++ (ss ++ st :: stale)) front.length =
        front.length + ss.length ∧
      cell (front ++ (ss ++ st :: stale)) (front.length + ss.length) = st ∧
      (cell (front ++ (ss ++ st :: stale)) (front.length + ss.length - 1)).stop = st.vcn ∧
      lastMapped (front ++ (ss ++ st :: stale)) (front.length + ss.length) - front.length + 1 =
        ss.length := by
  have first := source.first
  have some' := source.runs
  have early := List.length_pos_of_ne_nil some'
  have ended : cell (front ++ (ss ++ st :: stale)) (front.length + ss.length) = st :=
    (cell_behind rfl _ _).trans (cell_at rfl)
  have last : cell (front ++ (ss ++ st :: stale)) (front.length + ss.length - 1) =
      cell ss (ss.length - 1) := by
    rw [Nat.add_sub_assoc early]
    exact (cell_behind rfl _ _).trans (cell_append (Nat.sub_lt early Nat.one_pos))
  have passed : ∀ r ∈ ss, decide (r.length = 0) = false := fun r inside =>
    decide_eq_false (by have positive := (source.tiles.mem inside).2.1; omega)
  refine ⟨?_, ⟨cell ss 0, ?_, first, ?_⟩, ?_, ended, ?_, ?_⟩
  · obtain ⟨x, ss, rfl⟩ := List.exists_cons_of_ne_nil some'
    have mapped := source.mapped x List.mem_cons_self
    refine (scan_at [] front rfl ?_ ?_).trans (Nat.zero_add _)
    · obtain ⟨start, -, tiles⟩ := source.behind
      refine fun r inside => decide_eq_false (not_not.mpr ⟨?_, source.unmapped r inside⟩)
      exact Int.ne_of_gt (tiles.mem inside).2.1
    · exact decide_eq_true (by omega)
  · exact (cell_behind rfl _ 0).trans (cell_append early)
  · obtain ⟨x, ss, rfl⟩ := List.exists_cons_of_ne_nil some'
    have positive := source.tiles.2.1
    exact Int.ne_of_gt positive
  · exact scan_at front ss rfl passed (decide_eq_true source.ends)
  · rw [last]
    exact last_stop source.tiles some'
  · obtain ⟨back, r, rfl⟩ := exists_last some'
    have mapped := source.mapped r (List.mem_append_right back List.mem_cons_self)
    have size : back.length = (back ++ [r]).length - 1 := by simp
    rw [cell_at size] at last
    obtain ⟨n, next⟩ := Nat.exists_eq_succ_of_ne_zero
      (show front.length + (back ++ [r]).length ≠ 0 by omega)
    have below : lcnRlNotMapped < lcnHole := by decide
    rw [next] at ended last ⊢
    rw [Nat.succ_sub_one] at last
    rw [lastMapped, ended, source.last, if_pos below]
    have found : lastMapped (front ++ (back ++ [r] ++ st :: stale)) n = n := by
      cases n with
      | zero => rfl
      | succ n => rw [lastMapped, last, if_neg (by omega)]
    rw [found]
    omega

/-- The runs are put before or behind the first element that reaches past their start. -/
theorem runlistsMerge_at (source : Source front ss st s) {pre rest : List RunlistElement}
    {d : RunlistElement} (passed : ∀ r ∈ pre, r.length ≠ 0 ∧ r.stop ≤ s)
    (stop : d.length = 0 ∨ d.stop > s) (free : d.lcn < 0) {dend : Nat}
    (ended : scan (·.length = 0) (pre ++ d :: rest) pre.length = dend)
    (stale : List RunlistElement) :
    runlistsMerge (pre ++ d :: rest) (front ++ (ss ++ st :: stale)) =
      .ok (
        let finish := d.lcn ≥ lcnRlNotMapped ∧ d.stop ≤ st.vcn
        let src := if finish ∧ d.length = 0 then ss ++ [st] else ss
        if d.lcn < lcnRlNotMapped ∨ d.vcn = s then
          if finish then rlReplace (pre ++ d :: rest) (dend + 1) src pre.length
          else rlInsert (pre ++ d :: rest) (dend + 1) src pre.length
        else if finish then rlAppend (pre ++ d :: rest) (dend + 1) src pre.length
        else rlSplit (pre ++ d :: rest) (dend + 1) src pre.length) := by
  obtain ⟨si, ⟨x, first, place, some'⟩, send, last, back, few⟩ := source.scanned stale
  have di : scan (fun r => r.length = 0 ∨ r.stop > s) (pre ++ d :: rest) 0 = pre.length := by
    refine (scan_at [] pre rfl ?_ (decide_eq_true stop)).trans (Nat.zero_add _)
    exact fun r inside => decide_eq_false (by have own := passed r inside; omega)
  have nonempty : front ++ (ss ++ st :: stale) ≠ [] := by simp
  have nonempty' : pre ++ d :: rest ≠ [] := by simp
  have marker : ¬ st.lcn = lcnEnoent := by
    rw [source.last]
    decide
  have taken : ((front ++ (ss ++ st :: stale)).drop front.length).take ss.length = ss := by
    rw [List.drop_left, List.take_left]
  have taken' : ((front ++ (ss ++ st :: stale)).drop front.length).take (ss.length + 1) =
      ss ++ [st] := by
    rw [List.drop_left, List.append_cons]
    exact List.take_left' (by simp)
  rw [runlistsMerge, if_neg nonempty, if_neg nonempty', si]
  dsimp only
  rw [first, if_neg some', place, di, cell_at rfl, if_neg (by omega), send, last, ended, few, back]
  simp only [marker, false_and, not_false_eq_true, and_true, if_false]
  by_cases more : (d.lcn ≥ lcnRlNotMapped ∧ d.stop ≤ st.vcn) ∧ d.length = 0
  · rw [if_pos more, if_pos more, taken']
  · rw [if_neg more, if_neg more, taken]

/-! ## Into a hole -/

/-- Elements that fill a place with what they say all over it. -/
structure Rest (low high lcn : Int) (rs : List RunlistElement) : Prop where
  tiles : Tiles low rs high
  same : ∀ r ∈ rs, r.lcn = lcn

theorem Rest.lcnAt {low high lcn v : Int} {rs : List RunlistElement} (rest : Rest low high lcn rs)
    (free : lcn < 0) (behind : low ≤ v) (before : v < high) : lcnAt v rs = some lcn := by
  obtain ⟨tiles, same⟩ := rest
  induction rs generalizing low with
  | nil => exact absurd (show low = high from tiles) (by omega)
  | cons r rs ih =>
    have own := same r List.mem_cons_self
    have place := tiles.1
    rw [MappingPairs.lcnAt, RunlistElement.lcnOf, own]
    by_cases inside : v < r.vcn + r.length
    · rw [if_pos ⟨by omega, inside⟩, if_neg (by omega)]
    · rw [if_neg (by omega)]
      exact ih (by omega) tiles.2.2 fun r' inside => same r' (List.mem_cons_of_mem r inside)

/-- The new runs in their hole say what they say, and the rest says what the hole has said. -/
theorem filled {pre post left right : List RunlistElement} {h : RunlistElement} {stop : Int}
    (tiles : Tiles 0 (pre ++ h :: post) stop) (free : h.lcn < 0)
    (runs : Tiles s ss st.vcn) (before : Rest h.vcn s h.lcn left)
    (after : Rest st.vcn h.stop h.lcn right) :
    Tiles 0 (pre ++ (left ++ (ss ++ (right ++ post)))) stop ∧
      ∀ v, lcnAt v (pre ++ (left ++ (ss ++ (right ++ post)))) =
        if s ≤ v ∧ v < st.vcn then lcnAt v ss else lcnAt v (pre ++ h :: post) := by
  obtain ⟨mid, first, second⟩ := tiles_append.mp tiles
  obtain ⟨place, positive, behind⟩ := second
  rw [← place] at first behind
  have low := before.tiles.le
  have high := after.tiles.le
  have inner := runs.le
  have ends : h.stop = h.vcn + h.length := rfl
  refine ⟨tiles_append.mpr ⟨h.vcn, first, tiles_append.mpr ⟨s, before.tiles, tiles_append.mpr
    ⟨st.vcn, runs, tiles_append.mpr ⟨h.stop, after.tiles, behind⟩⟩⟩⟩, fun v => ?_⟩
  have own : lcnAt v (h :: post) = if h.vcn ≤ v ∧ v < h.stop then some h.lcn else
      lcnAt v post := by
    have said : h.lcnOf v = h.lcn := if_neg (by omega)
    rw [lcnAt, said]
    rfl
  rw [lcnAt_append, lcnAt_append, lcnAt_append, lcnAt_append, lcnAt_append, own]
  by_cases inside : s ≤ v ∧ v < st.vcn
  · rw [if_pos inside, (lcnAt_eq_none first).mpr (by omega),
      (lcnAt_eq_none before.tiles).mpr (by omega)]
    obtain ⟨l, found⟩ := runs.found inside.1 inside.2
    rw [found]
    rfl
  · rw [if_neg inside, (lcnAt_eq_none runs).mpr (by omega)]
    by_cases hole : h.vcn ≤ v ∧ v < h.stop
    · rw [if_pos hole]
      by_cases early : v < s
      · rw [before.lcnAt free hole.1 early]
        rfl
      · rw [after.lcnAt free (by omega) hole.2, (lcnAt_eq_none before.tiles).mpr (by omega)]
        rfl
    · rw [if_neg hole, (lcnAt_eq_none before.tiles).mpr (by omega),
        (lcnAt_eq_none after.tiles).mpr (by omega)]
      rfl

theorem edge_tiles {start stop : Int} {rs : List RunlistElement} (tiles : Tiles start rs stop)
    (first : start = 0) : edge rs = stop := by
  rw [edge]
  by_cases none' : rs = []
  · rw [if_pos none']
    rw [none'] at tiles
    exact first.symm.trans tiles
  · rw [if_neg none']
    exact last_stop tiles none'

section Hole

variable {pre post : List RunlistElement} {h : RunlistElement}

/-- An element that says nothing of a place is not joined with one that does. -/
theorem not_mergeable_end {p : RunlistElement} (mapped : lcnHole ≤ p.lcn)
    (last : dt.lcn = lcnRlNotMapped ∨ dt.lcn = lcnEnoent) : rlAreMergeable p dt = false := by
  have codes : lcnHole = -1 ∧ lcnRlNotMapped = -2 ∧ lcnEnoent = -3 := ⟨rfl, rfl, rfl⟩
  rw [rlAreMergeable, if_neg (by omega)]
  split
  · rfl
  · rw [if_neg (by omega)]
    exact decide_eq_false (by omega)

/-- The runs that are joined with those behind them are inside of the list. -/
theorem joins_inside (source : Source front ss st s)
    (last : dt.lcn = lcnRlNotMapped ∨ dt.lcn = lcnEnoent) {right : Bool}
    (join : right = true → post ++ [dt] ≠ [] ∧
      rlAreMergeable (cell ss (ss.length - 1)) (cell (post ++ [dt]) 0) = true) :
    (right = true → post ≠ [] ∧
      rlAreMergeable (cell ss (ss.length - 1)) (cell post 0) = true) ∧
    (post ++ [dt]).drop right.toNat = post.drop right.toNat ++ [dt] ∧
    joinRight right ss (cell (post ++ [dt]) 0) = joinRight right ss (cell post 0) := by
  cases right with
  | false => exact ⟨fun is => absurd is Bool.false_ne_true, rfl, rfl⟩
  | true =>
    obtain ⟨-, mergeable⟩ := join rfl
    cases post with
    | nil =>
      obtain ⟨back, r, rfl⟩ := exists_last source.runs
      have size : back.length = (back ++ [r]).length - 1 := by simp
      have mapped := source.mapped r (List.mem_append_right back List.mem_cons_self)
      rw [cell_at size, List.nil_append] at mergeable
      exact absurd mergeable (by rw [show cell [dt] 0 = dt from rfl, not_mergeable_end mapped last]
                                 exact Bool.false_ne_true)
    | cons q post => exact ⟨fun _ => ⟨List.cons_ne_nil q post, mergeable⟩, rfl, rfl⟩

/-- The element that ends a list stays where it is behind the runs that have been put there. -/
theorem fixEnd_known {placed rest : List RunlistElement}
    (tiles : Tiles 0 (placed ++ rest) dt.vcn) (some' : placed ≠ [])
    (known : ∀ r ∈ rest, lcnRlNotMapped ≤ r.lcn) (stale : List RunlistElement) :
    fixEnd (placed ++ (rest ++ [dt] ++ stale)) placed.length = placed ++ rest ++ dt :: stale := by
  cases rest with
  | nil =>
    rw [List.append_nil] at tiles ⊢
    exact fixEnd_end tiles some' stale
  | cons q rest =>
    have own := known q List.mem_cons_self
    rw [List.append_assoc, List.append_assoc, List.cons_append]
    refine fixEnd_inside ?_ _
    rintro same
    rw [same] at own
    exact absurd own (by decide)

theorem replaced (source : Source front ss st s) (listed : Listed (pre ++ h :: post) dt)
    (start : h.vcn = s) (stop : h.stop = st.vcn) (stale : List RunlistElement) :
    ∃ rs stale', rlReplace (pre ++ h :: ((post ++ [dt]) ++ stale))
        (pre.length + 1 + (post ++ [dt]).length) ss pre.length = rs ++ dt :: stale' ∧
      Alike rs (pre ++ (ss ++ post)) := by
  obtain ⟨left, right, stale', joinL, joinR, placed⟩ :=
    rlReplace_mem pre (post ++ [dt]) stale h source.runs
  obtain ⟨joinR', rest, joined⟩ := joins_inside source listed.last joinR
  have behind := joinRight_alike source.runs joinR'
  have some' := source.runs
  have vcn := cell_joinRight right some' (cell post 0)
  have length := length_joinRight right ss (cell post 0)
  dsimp only at placed
  rw [rest, joined] at placed
  generalize joinRight right ss (cell post 0) = joined at placed behind vcn length
  have before : Alike (joinLeft left pre (cell joined 0) ++ joined.drop left.toNat)
      (pre ++ joined) := joinLeft_alike pre joined
    (List.ne_nil_of_length_pos (length ▸ List.length_pos_of_ne_nil some'))
    fun is => ⟨(joinL is).1, by rw [mergeable_congr vcn.1 vcn.2]; exact (joinL is).2⟩
  have alike : Alike (joinLeft left pre (cell joined 0) ++ joined.drop left.toNat ++
      post.drop right.toNat) (pre ++ (ss ++ post)) := by
    refine (before.before (post.drop right.toNat)).trans ?_
    rw [List.append_assoc]
    exact behind.behind pre
  obtain ⟨mid, first, second⟩ := tiles_append.mp listed.tiles
  have tiles : Tiles 0 (pre ++ (ss ++ post)) dt.vcn := by
    refine tiles_append.mpr ⟨mid, first, tiles_append.mpr ⟨st.vcn, ?_, ?_⟩⟩
    · rw [← second.1, start]
      exact source.tiles
    · rw [← stop, RunlistElement.stop, second.1]
      exact second.2.2
  have more : 0 < dt.vcn := by
    have low := first.le
    have high := second.2.2.le
    have positive := second.2.1
    omega
  refine ⟨_, stale', ?_, alike⟩
  rw [placed, if_neg (by simp)]
  have whole := (alike.1 0 dt.vcn tiles).1
  refine fixEnd_known whole (fun none' => ?_) (fun r inside => listed.known r ?_) stale'
  · have size := congrArg List.length none'
    rw [List.length_append, length_joinLeft, List.length_drop, List.length_nil, length] at size
    have early := List.length_pos_of_ne_nil some'
    cases left with
    | false =>
      rw [Bool.toNat_false] at size
      omega
    | true =>
      have more := List.length_pos_of_ne_nil (joinL rfl).1
      omega
  · exact List.mem_append_right pre (List.mem_cons_of_mem h (List.mem_of_mem_drop inside))

/-- What is behind an element starts where it ends. -/
theorem next_vcn {start : Int} (tiles : Tiles start (h :: post) dt.vcn) :
    (cell (post ++ [dt]) 0).vcn = h.stop := by
  obtain ⟨first, -, behind⟩ := tiles
  rw [RunlistElement.stop, first]
  cases post with
  | nil => exact (show start + h.length = dt.vcn from behind).symm
  | cons q post => exact behind.1

theorem rest_nil {low high : Int} (same : low = high) (lcn : Int) : Rest low high lcn [] :=
  ⟨same, fun r inside => by cases inside⟩

theorem rest_singleton (r : RunlistElement) {low high : Int} (first : r.vcn = low)
    (last : r.stop = high) (some' : low < high) : Rest low high r.lcn [r] := by
  rw [RunlistElement.stop] at last
  refine ⟨⟨first, by omega, show low + r.length = high by omega⟩, fun r' inside => ?_⟩
  rw [List.mem_singleton.mp inside]

theorem inserted (source : Source front ss st s) (listed : Listed (pre ++ h :: post) dt)
    (free : h.lcn < 0) (start : h.vcn = s) (stale : List RunlistElement) :
    ∃ joined stale', rlInsert (pre ++ h :: ((post ++ [dt]) ++ stale))
        (pre.length + 1 + (post ++ [dt]).length) ss pre.length =
          joined ++ ⟨st.vcn, h.lcn, h.stop - st.vcn⟩ :: post ++ dt :: stale' ∧
      Alike joined (pre ++ ss) := by
  have some' := source.runs
  obtain ⟨mid, first, second⟩ := tiles_append.mp listed.tiles
  have place := second.1
  have positive : 0 < (cell ss 0).length := by
    obtain ⟨x, ss, rfl⟩ := List.exists_cons_of_ne_nil some'
    exact source.tiles.2.1
  have aligned : edge pre = (cell ss 0).vcn := by
    rw [edge_tiles first rfl, source.first]
    omega
  obtain ⟨left, stale', joinL, placed⟩ :=
    rlInsert_aligned pre (post ++ [dt]) stale h some' positive aligned fun _ => by simp
  have before := joinLeft_alike pre ss some' joinL
  dsimp only at placed
  generalize joinLeft left pre (cell ss 0) ++ ss.drop left.toNat = joined at placed before
  have tiles : Tiles 0 (pre ++ ss) st.vcn :=
    tiles_append.mpr ⟨mid, first, by rw [← place, start]; exact source.tiles⟩
  have whole := (before.1 0 st.vcn tiles).1
  have more : joined ≠ [] := by
    rintro rfl
    have low := first.le
    have high := source.lt
    exact absurd (show 0 = st.vcn from whole) (by omega)
  have known := listed.known h (List.mem_append_right pre List.mem_cons_self)
  have hole : h.lcn = lcnHole ∨ h.lcn = lcnRlNotMapped := by
    rw [lcnRlNotMapped] at known ⊢
    rw [lcnHole]
    omega
  rw [last_stop whole more, next_vcn second, RunlistElement.shifted, if_pos hole] at placed
  refine ⟨joined, stale', ?_, before⟩
  rw [placed, List.append_assoc, List.append_assoc, List.cons_append]
  rfl

theorem appended (source : Source front ss st s) (listed : Listed (pre ++ h :: post) dt)
    (start : h.vcn < s) (stop : h.stop = st.vcn) (stale : List RunlistElement) :
    ∃ rs stale' left, rlAppend (pre ++ h :: ((post ++ [dt]) ++ stale))
        (pre.length + 1 + (post ++ [dt]).length) ss pre.length = rs ++ dt :: stale' ∧
      Rest h.vcn s h.lcn left ∧ Alike rs (pre ++ (left ++ (ss ++ post))) := by
  obtain ⟨right, stale', joinR, placed⟩ :=
    rlAppend_mem pre (post ++ [dt]) stale h source.runs
  obtain ⟨joinR', rest, joined⟩ := joins_inside source listed.last joinR
  have behind := joinRight_alike source.runs joinR'
  have some' := source.runs
  have vcn := cell_joinRight right some' (cell post 0)
  have length := length_joinRight right ss (cell post 0)
  dsimp only at placed
  rw [rest, joined, vcn.1, source.first] at placed
  generalize joinRight right ss (cell post 0) = joined at placed behind vcn length
  obtain ⟨mid, first, second⟩ := tiles_append.mp listed.tiles
  have hole : Rest h.vcn s h.lcn [{ h with length := s - h.vcn }] :=
    rest_singleton { h with length := s - h.vcn } rfl
      (show h.vcn + (s - h.vcn) = s by omega) start
  have alike : Alike (pre ++ { h with length := s - h.vcn } :: joined ++ post.drop right.toNat)
      (pre ++ ([{ h with length := s - h.vcn }] ++ (ss ++ post))) := by
    rw [List.append_assoc, List.cons_append]
    exact (behind.behind [{ h with length := s - h.vcn }]).behind pre
  have tiles : Tiles 0 (pre ++ ([{ h with length := s - h.vcn }] ++ (ss ++ post))) dt.vcn := by
    refine tiles_append.mpr ⟨mid, first, tiles_append.mpr ⟨s, second.1 ▸ hole.tiles,
      tiles_append.mpr ⟨st.vcn, source.tiles, ?_⟩⟩⟩
    rw [← stop, RunlistElement.stop, second.1]
    exact second.2.2
  refine ⟨_, stale', _, ?_, hole, alike⟩
  rw [placed, if_neg (by simp)]
  refine fixEnd_known (alike.1 0 dt.vcn tiles).1 (by simp)
    (fun r inside => listed.known r ?_) stale'
  exact List.mem_append_right pre (List.mem_cons_of_mem h (List.mem_of_mem_drop inside))

theorem splitted (source : Source front ss st s) (listed : Listed (pre ++ h :: post) dt)
    (stale : List RunlistElement) :
    ∃ stale', rlSplit (pre ++ h :: ((post ++ [dt]) ++ stale))
        (pre.length + 1 + (post ++ [dt]).length) ss pre.length =
      pre ++ { h with length := s - h.vcn } :: ss ++
        ⟨st.vcn, h.lcn, h.stop - st.vcn⟩ :: post ++ dt :: stale' := by
  obtain ⟨mid, first, second⟩ := tiles_append.mp listed.tiles
  obtain ⟨stale', placed⟩ := rlSplit_mem pre (post ++ [dt]) stale h source.runs (by simp)
  rw [source.first, last_stop source.tiles source.runs, next_vcn second] at placed
  refine ⟨stale', ?_⟩
  rw [placed]
  simp only [List.append_assoc, List.cons_append, List.nil_append]

/-- A list after the new runs have been put into one of its holes. -/
theorem filled_listed (source : Source front ss st s) (listed : Listed (pre ++ h :: post) dt)
    (free : h.lcn < 0) (left right : List RunlistElement) {rs : List RunlistElement}
    (before : Rest h.vcn s h.lcn left) (after : Rest st.vcn h.stop h.lcn right)
    (alike : Alike rs (pre ++ (left ++ (ss ++ (right ++ post))))) :
    Listed rs dt ∧ ∀ v, lcnAt v rs =
      if s ≤ v ∧ v < st.vcn then lcnAt v ss else lcnAt v (pre ++ h :: post) := by
  obtain ⟨tiles, same⟩ := filled listed.tiles free source.tiles before after
  obtain ⟨tiles', same'⟩ := alike.1 0 dt.vcn tiles
  have own := listed.known h (List.mem_append_right pre List.mem_cons_self)
  have below : lcnRlNotMapped < lcnHole := by decide
  refine ⟨⟨tiles', fun r inside => ?_, listed.ends, listed.last⟩, fun v => (same' v).trans (same v)⟩
  obtain ⟨r', inside', lcn⟩ := alike.2 r inside
  rw [← lcn]
  rcases List.mem_append.mp inside' with inside' | inside'
  · exact listed.known r' (List.mem_append_left _ inside')
  rcases List.mem_append.mp inside' with inside' | inside'
  · exact before.same r' inside' ▸ own
  rcases List.mem_append.mp inside' with inside' | inside'
  · exact below.le.trans (source.mapped r' inside')
  rcases List.mem_append.mp inside' with inside' | inside'
  · exact after.same r' inside' ▸ own
  · exact listed.known r' (List.mem_append_right pre (List.mem_cons_of_mem h inside'))

theorem merged_hole (source : Source front ss st s) (listed : Listed (pre ++ h :: post) dt)
    (free : h.lcn < 0) (low : h.vcn ≤ s) (high : st.vcn ≤ h.stop)
    (stale stale' : List RunlistElement) :
    ∃ rs stale'', runlistsMerge (pre ++ h :: (post ++ dt :: stale))
        (front ++ (ss ++ st :: stale')) = .ok (rs ++ dt :: stale'') ∧ Listed rs dt ∧
      (∀ v, lcnAt v rs =
        if s ≤ v ∧ v < st.vcn then lcnAt v ss else lcnAt v (pre ++ h :: post)) ∧
      (st.vcn < h.stop →
        ∃ before, rs = before ++ ⟨st.vcn, h.lcn, h.stop - st.vcn⟩ :: post) := by
  obtain ⟨mid, first, second⟩ := tiles_append.mp listed.tiles
  have place := second.1
  have positive := second.2.1
  have longer := source.lt
  have known := listed.known h (List.mem_append_right pre List.mem_cons_self)
  have passed : ∀ r ∈ pre, r.length ≠ 0 ∧ r.stop ≤ s := by
    intro r inside
    have own := first.mem inside
    omega
  have ended : scan (·.length = 0) (pre ++ h :: (post ++ dt :: stale)) pre.length =
      pre.length + (h :: post).length := by
    refine scan_at pre (h :: post) rfl (fun r inside => decide_eq_false ?_)
      (decide_eq_true listed.ends)
    have own := second.mem inside
    omega
  have whole : pre ++ h :: (post ++ dt :: stale) = pre ++ h :: ((post ++ [dt]) ++ stale) := by
    rw [List.append_assoc]
    rfl
  have size : pre.length + (h :: post).length + 1 = pre.length + 1 + (post ++ [dt]).length := by
    rw [List.length_cons, List.length_append, List.length_singleton]
    omega
  rw [runlistsMerge_at source passed (Or.inr (by omega)) free ended stale']
  dsimp only
  rw [if_neg (show ¬ ((h.lcn ≥ lcnRlNotMapped ∧ h.stop ≤ st.vcn) ∧ h.length = 0) by omega), size,
    whole]
  have after (more : st.vcn < h.stop) : Rest st.vcn h.stop h.lcn
      [⟨st.vcn, h.lcn, h.stop - st.vcn⟩] :=
    rest_singleton ⟨st.vcn, h.lcn, _⟩ rfl (show st.vcn + (h.stop - st.vcn) = h.stop by omega) more
  by_cases start : h.vcn = s
  · rw [if_pos (Or.inr start)]
    by_cases finish : h.stop = st.vcn
    · rw [if_pos ⟨known, finish.le⟩]
      obtain ⟨rs, stale'', made, alike⟩ := replaced source listed start finish stale
      obtain ⟨listed', told⟩ := filled_listed source listed free [] [] (rest_nil start h.lcn)
        (rest_nil finish.symm h.lcn) alike
      exact ⟨rs, stale'', by rw [made], listed', told, fun more => by omega⟩
    · rw [if_neg (by omega)]
      obtain ⟨joined, stale'', made, alike⟩ :=
        inserted source listed free start stale
      have whole' : Alike (joined ++ ⟨st.vcn, h.lcn, h.stop - st.vcn⟩ :: post)
          (pre ++ ([] ++ (ss ++ ([⟨st.vcn, h.lcn, h.stop - st.vcn⟩] ++ post)))) := by
        rw [List.nil_append, ← List.append_assoc]
        exact alike.before _
      obtain ⟨listed', told⟩ := filled_listed source listed free [] _ (rest_nil start h.lcn)
        (after (by omega)) whole'
      exact ⟨_, stale'', by rw [made], listed', told, fun _ => ⟨joined, rfl⟩⟩
  · rw [if_neg (by omega)]
    have before : Rest h.vcn s h.lcn [{ h with length := s - h.vcn }] :=
      rest_singleton { h with length := s - h.vcn } rfl
        (show h.vcn + (s - h.vcn) = s by omega) (by omega)
    by_cases finish : h.stop = st.vcn
    · rw [if_pos ⟨known, finish.le⟩]
      obtain ⟨rs, stale'', left, made, before, alike⟩ :=
        appended source listed (by omega) finish stale
      obtain ⟨listed', told⟩ := filled_listed source listed free left [] before
        (rest_nil finish.symm h.lcn) alike
      exact ⟨rs, stale'', by rw [made], listed', told, fun more => by omega⟩
    · rw [if_neg (by omega)]
      obtain ⟨stale'', made⟩ := splitted source listed stale
      have whole' : Alike (pre ++ { h with length := s - h.vcn } :: ss ++
          ⟨st.vcn, h.lcn, h.stop - st.vcn⟩ :: post) (pre ++ ([{ h with length := s - h.vcn }] ++
            (ss ++ ([⟨st.vcn, h.lcn, h.stop - st.vcn⟩] ++ post)))) := by
        simp only [List.append_assoc, List.cons_append, List.nil_append]
        exact Alike.refl _
      obtain ⟨listed', told⟩ :=
        filled_listed source listed free _ _ before (after (by omega)) whole'
      exact ⟨_, stale'', by rw [made], listed', told, fun _ => ⟨_, rfl⟩⟩

end Hole

/-! ## Behind the end -/

/-- The runs behind the end of a list, with an unmapped element where they do not follow it. -/
theorem behind_listed (source : Source front ss st s) (listed : Listed ds dt)
    (gap : List RunlistElement) {rs : List RunlistElement} {t : RunlistElement}
    (between : Rest dt.vcn s lcnRlNotMapped gap) (alike : Alike rs (ds ++ (gap ++ ss)))
    (place : t.vcn = st.vcn) (ends : t.length = 0)
    (last : t.lcn = lcnRlNotMapped ∨ t.lcn = lcnEnoent) :
    Listed rs t ∧ ∀ v, lcnAt v rs =
      if s ≤ v ∧ v < st.vcn then lcnAt v ss
      else if dt.vcn ≤ v ∧ v < s then some lcnRlNotMapped else lcnAt v ds := by
  have tiles : Tiles 0 (ds ++ (gap ++ ss)) t.vcn := tiles_append.mpr ⟨dt.vcn, listed.tiles,
    tiles_append.mpr ⟨s, between.tiles, place ▸ source.tiles⟩⟩
  obtain ⟨tiles', same⟩ := alike.1 0 t.vcn tiles
  have below : lcnRlNotMapped < lcnHole := by decide
  have low := between.tiles.le
  refine ⟨⟨tiles', fun r inside => ?_, ends, last⟩, fun v => ?_⟩
  · obtain ⟨r', inside', lcn⟩ := alike.2 r inside
    rw [← lcn]
    rcases List.mem_append.mp inside' with inside' | inside'
    · exact listed.known r' inside'
    rcases List.mem_append.mp inside' with inside' | inside'
    · exact (between.same r' inside').ge
    · exact below.le.trans (source.mapped r' inside')
  · rw [same, lcnAt_append, lcnAt_append]
    by_cases inside : s ≤ v ∧ v < st.vcn
    · rw [if_pos inside, (lcnAt_eq_none listed.tiles).mpr (by omega),
        (lcnAt_eq_none between.tiles).mpr (by omega)]
      rfl
    · rw [if_neg inside, (lcnAt_eq_none source.tiles).mpr (by omega)]
      split
      · rename_i hole
        rw [(lcnAt_eq_none listed.tiles).mpr (by omega),
          between.lcnAt (by decide) hole.1 hole.2]
        rfl
      · rw [(lcnAt_eq_none between.tiles).mpr (by omega), Option.or_none, Option.or_none]

/-- The element that ends the source is put behind its runs where the list has not been whole. -/
theorem ended_source (source : Source front ss st s) (left : Bool) :
    (ss ++ [st]).drop left.toNat = ss.drop left.toNat ++ [st] := by
  refine List.drop_append_of_le_length ((Bool.toNat_le left).trans ?_)
  exact List.length_pos_of_ne_nil source.runs

theorem Source.head (source : Source front ss st s) :
    0 < (cell ss 0).length ∧ lcnHole ≤ (cell ss 0).lcn := by
  obtain ⟨x, rest, parts⟩ := List.exists_cons_of_ne_nil source.runs
  have tiles := source.tiles
  have mapped := source.mapped
  rw [parts] at tiles mapped ⊢
  exact ⟨tiles.2.1, mapped x List.mem_cons_self⟩

section Behind

variable (source : Source front ss st s) (ds : List RunlistElement) (dt : RunlistElement)
  (stale : List RunlistElement)

include source in
theorem replaced_end : ∃ rs stale',
    rlReplace (ds ++ dt :: stale) (ds.length + 1) (ss ++ [st]) ds.length = rs ++ st :: stale' ∧
      Alike rs (ds ++ ss) := by
  have some' : ss ++ [st] ≠ [] := by simp
  have head : cell (ss ++ [st]) 0 = cell ss 0 :=
    cell_append (List.length_pos_of_ne_nil source.runs)
  obtain ⟨left, right, stale', joinL, joinR, placed⟩ := rlReplace_mem ds [] stale dt some'
  have alone : right = false := by
    cases right with
    | false => rfl
    | true => exact absurd rfl (joinR rfl).1
  rw [head] at joinL
  dsimp only at placed
  rw [alone, if_pos List.drop_nil, joinRight, if_neg Bool.false_ne_true, head,
    ended_source source] at placed
  refine ⟨_, stale', ?_, joinLeft_alike ds ss source.runs joinL⟩
  refine placed.trans ?_
  simp only [List.append_assoc, List.singleton_append, List.drop_nil, List.nil_append]

include source in
theorem appended_end (unmapped : dt.lcn = lcnRlNotMapped) : ∃ stale',
    rlAppend (ds ++ dt :: stale) (ds.length + 1) (ss ++ [st]) ds.length =
      ds ++ ([⟨dt.vcn, lcnRlNotMapped, s - dt.vcn⟩] ++ ss) ++ st :: stale' := by
  have some' : ss ++ [st] ≠ [] := by simp
  have head : cell (ss ++ [st]) 0 = cell ss 0 :=
    cell_append (List.length_pos_of_ne_nil source.runs)
  obtain ⟨right, stale', joinR, placed⟩ := rlAppend_mem ds [] stale dt some'
  have alone : right = false := by
    cases right with
    | false => rfl
    | true => exact absurd rfl (joinR rfl).1
  dsimp only at placed
  rw [alone, if_pos List.drop_nil, joinRight, if_neg Bool.false_ne_true, head, source.first,
    unmapped] at placed
  refine ⟨stale', placed.trans ?_⟩
  simp only [List.append_assoc, List.cons_append, List.drop_nil, List.nil_append]

include source in
theorem inserted_end (listed : Listed ds dt) (whole : dt.lcn = lcnEnoent)
    (aligned : dt.vcn = s) : ∃ rs stale',
    rlInsert (ds ++ dt :: stale) (ds.length + 1) ss ds.length =
        rs ++ { dt with vcn := st.vcn } :: stale' ∧ Alike rs (ds ++ ss) := by
  have start : edge ds = (cell ss 0).vcn := by
    rw [edge_tiles listed.tiles rfl, source.first, aligned]
  have closed : ¬ (dt.lcn = lcnHole ∨ dt.lcn = lcnRlNotMapped) := by
    rw [whole]
    decide
  obtain ⟨left, stale', joinL, placed⟩ := rlInsert_aligned ds [] stale dt source.runs
    source.head.1 start fun hole => absurd hole closed
  have alike := joinLeft_alike ds ss source.runs joinL
  dsimp only at placed
  generalize joinLeft left ds (cell ss 0) ++ ss.drop left.toNat = joined at placed alike
  have tiles : Tiles 0 (ds ++ ss) st.vcn :=
    tiles_append.mpr ⟨dt.vcn, listed.tiles, aligned ▸ source.tiles⟩
  have whole := (alike.1 0 st.vcn tiles).1
  have more : joined ≠ [] := by
    rintro rfl
    have low := listed.tiles.le
    have high := source.lt
    exact absurd (show 0 = st.vcn from whole) (by omega)
  rw [last_stop whole more, RunlistElement.shifted, if_neg closed] at placed
  exact ⟨joined, stale', placed, alike⟩

include source in
theorem inserted_away (listed : Listed ds dt) (whole : dt.lcn = lcnEnoent)
    (away : dt.vcn < s) : ∃ stale',
    rlInsert (ds ++ dt :: stale) (ds.length + 1) ss ds.length =
      ds ++ ([⟨dt.vcn, lcnRlNotMapped, s - dt.vcn⟩] ++ ss) ++
        { dt with vcn := st.vcn } :: stale' := by
  have edge' := edge_tiles listed.tiles rfl
  have first := source.first
  obtain ⟨stale', placed⟩ := rlInsert_away ds [] stale dt source.runs source.head.2 (by omega) whole
  rw [edge', first, last_stop source.tiles source.runs] at placed
  refine ⟨stale', placed.trans ?_⟩
  simp only [List.append_assoc, List.cons_append, List.nil_append]

end Behind

theorem merged_behind (source : Source front ss st s) (listed : Listed ds dt)
    (low : dt.vcn ≤ s) (stale stale' : List RunlistElement) :
    ∃ rs t stale'', runlistsMerge (ds ++ dt :: stale) (front ++ (ss ++ st :: stale')) =
        .ok (rs ++ t :: stale'') ∧ Listed rs t ∧ t.vcn = st.vcn ∧ t.lcn = dt.lcn ∧
      ∀ v, lcnAt v rs =
        if s ≤ v ∧ v < st.vcn then lcnAt v ss
        else if dt.vcn ≤ v ∧ v < s then some lcnRlNotMapped else lcnAt v ds := by
  have codes : lcnHole = -1 ∧ lcnRlNotMapped = -2 ∧ lcnEnoent = -3 := ⟨rfl, rfl, rfl⟩
  have ends := listed.ends
  have stop : dt.stop = dt.vcn := by
    rw [RunlistElement.stop]
    omega
  have longer := source.lt
  have passed : ∀ r ∈ ds, r.length ≠ 0 ∧ r.stop ≤ s := by
    intro r inside
    have own := listed.tiles.mem inside
    omega
  have ended : scan (·.length = 0) (ds ++ dt :: stale) ds.length = ds.length :=
    scan_at ds [] rfl (fun r inside => by cases inside) (decide_eq_true ends)
  have free : dt.lcn < 0 := by have last := listed.last; omega
  have gapped (ne : dt.vcn ≠ s) : Rest dt.vcn s lcnRlNotMapped
      [⟨dt.vcn, lcnRlNotMapped, s - dt.vcn⟩] :=
    rest_singleton ⟨dt.vcn, lcnRlNotMapped, _⟩ rfl
      (show dt.vcn + (s - dt.vcn) = s by omega) (by omega)
  rw [runlistsMerge_at source passed (Or.inl ends) free ended stale']
  dsimp only
  rw [stop]
  rcases listed.last with unmapped | whole
  · have more : (dt.lcn ≥ lcnRlNotMapped ∧ dt.vcn ≤ st.vcn) ∧ dt.length = 0 := by omega
    have same : st.lcn = dt.lcn := source.last.trans unmapped.symm
    rw [if_pos more]
    by_cases aligned : dt.vcn = s
    · obtain ⟨rs, stale'', made, alike⟩ := replaced_end source ds dt stale
      obtain ⟨listed', told⟩ := behind_listed source listed [] (rest_nil aligned _) alike rfl
        source.ends (Or.inl source.last)
      rw [if_pos (Or.inr aligned), if_pos more.1, made]
      exact ⟨rs, st, stale'', rfl, listed', rfl, same, told⟩
    · obtain ⟨stale'', made⟩ := appended_end source ds dt stale unmapped
      obtain ⟨listed', told⟩ := behind_listed source listed _ (gapped aligned) (Alike.refl _) rfl
        source.ends (Or.inl source.last)
      rw [if_neg (by omega), if_pos more.1, made]
      exact ⟨_, st, stale'', rfl, listed', rfl, same, told⟩
  · rw [if_neg (show ¬ ((dt.lcn ≥ lcnRlNotMapped ∧ dt.vcn ≤ st.vcn) ∧ dt.length = 0) by omega),
      if_pos (by omega), if_neg (by omega)]
    by_cases aligned : dt.vcn = s
    · obtain ⟨rs, stale'', made, alike⟩ := inserted_end source ds dt stale listed whole aligned
      obtain ⟨listed', told⟩ := behind_listed source listed [] (rest_nil aligned _) alike
        (t := { dt with vcn := st.vcn }) rfl ends (Or.inr whole)
      rw [made]
      exact ⟨rs, _, stale'', rfl, listed', rfl, rfl, told⟩
    · obtain ⟨stale'', made⟩ := inserted_away source ds dt stale listed whole (by omega)
      obtain ⟨listed', told⟩ := behind_listed source listed _ (gapped aligned) (Alike.refl _)
        (t := { dt with vcn := st.vcn }) rfl ends (Or.inr whole)
      rw [made]
      exact ⟨_, _, stale'', rfl, listed', rfl, rfl, told⟩

/-! ## Wherever the runs are put -/

/-- What a list tells is found by `ntfs_rl_vcn_to_lcn`. -/
theorem Listed.lookup {rs : List RunlistElement} {t : RunlistElement} (listed : Listed rs t)
    (stale : List RunlistElement) {v : Int} (first : 0 ≤ v) :
    rlVcnToLcn (rs ++ t :: stale) v = (lcnAt v rs).or (some t.lcn) := by
  have last := listed.last
  have codes : lcnRlNotMapped = -2 ∧ lcnEnoent = -3 := ⟨rfl, rfl⟩
  rw [rlVcnToLcn_eq listed.ends listed.tiles le_rfl first, if_pos (by omega)]

theorem Source.lookup (source : Source front ss st s) (stale : List RunlistElement) {v : Int}
    (low : s ≤ v) (high : v < st.vcn) :
    rlVcnToLcn (front ++ (ss ++ st :: stale)) v = lcnAt v ss := by
  obtain ⟨start, first, tiles⟩ := source.behind
  have before := tiles.le
  obtain ⟨l, found⟩ := source.tiles.found low high
  rw [← List.append_assoc, rlVcnToLcn_eq source.ends (tiles_append.mpr ⟨s, tiles, source.tiles⟩)
    first (by omega), lcnAt_append, (lcnAt_eq_none tiles).mpr (by omega), found]
  rfl

/-- The clusters of the runs are in one hole of the list, or behind the end of it. -/
def Room (ds : List RunlistElement) (dt : RunlistElement) (s e : Int) : Prop :=
  dt.vcn ≤ s ∨
    ∃ pre h post, ds = pre ++ h :: post ∧ h.lcn < 0 ∧ h.vcn ≤ s ∧ e ≤ RunlistElement.stop h

/-- Runs that have room in a list are put there: about their clusters the list tells what they tell,
between its old end and them it tells that nothing is known, and about every other cluster it
tells what it has told. -/
theorem runs_merged (source : Source front ss st s) (listed : Listed ds dt)
    (room : Room ds dt s st.vcn) (stale stale' : List RunlistElement) :
    ∃ rs t stale'', runlistsMerge (ds ++ dt :: stale) (front ++ (ss ++ st :: stale')) =
        .ok (rs ++ t :: stale'') ∧ Listed rs t ∧ t.lcn = dt.lcn ∧ t.vcn = max dt.vcn st.vcn ∧
      ∀ v, 0 ≤ v → rlVcnToLcn (rs ++ t :: stale'') v =
        if s ≤ v ∧ v < st.vcn then rlVcnToLcn (front ++ (ss ++ st :: stale')) v
        else if dt.vcn ≤ v ∧ v < s then some lcnRlNotMapped
        else rlVcnToLcn (ds ++ dt :: stale) v := by
  have longer := source.lt
  rcases room with behind | ⟨pre, h, post, rfl, free, low, high⟩
  · obtain ⟨rs, t, stale'', made, listed', place, lcn, told⟩ :=
      merged_behind source listed behind stale stale'
    refine ⟨rs, t, stale'', made, listed', lcn, by omega, fun v first => ?_⟩
    rw [listed'.lookup stale'' first, listed.lookup stale first, told, lcn]
    by_cases inside : s ≤ v ∧ v < st.vcn
    · rw [if_pos inside, if_pos inside, source.lookup stale' inside.1 inside.2]
      obtain ⟨l, found⟩ := source.tiles.found inside.1 inside.2
      rw [found]
      rfl
    · rw [if_neg inside, if_neg inside]
      split
      · rfl
      · rfl
  · obtain ⟨rs, stale'', made, listed', told, -⟩ :=
      merged_hole source listed free low high stale stale'
    obtain ⟨mid, -, second⟩ := tiles_append.mp listed.tiles
    have ends := (second.mem List.mem_cons_self).2.2
    rw [List.append_assoc, List.cons_append] at *
    refine ⟨rs, dt, stale'', made, listed', rfl, by omega, fun v first => ?_⟩
    rw [listed'.lookup stale'' first, told]
    by_cases inside : s ≤ v ∧ v < st.vcn
    · rw [if_pos inside, if_pos inside, source.lookup stale' inside.1 inside.2]
      obtain ⟨l, found⟩ := source.tiles.found inside.1 inside.2
      rw [found]
      rfl
    · have whole := listed.lookup stale first
      rw [List.append_assoc, List.cons_append] at whole
      rw [if_neg inside, if_neg inside, if_neg (by omega), whole]

/-- Some clusters of a file, and more that are not known. -/
def halfKnown : List RunlistElement := [⟨0, 100, 10⟩, ⟨10, lcnRlNotMapped, 20⟩]

theorem halfKnown_merged : ∃ rs t stale,
    runlistsMerge (halfKnown ++ ⟨30, lcnEnoent, 0⟩ :: [])
        ([⟨0, lcnRlNotMapped, 12⟩] ++ ([⟨12, 200, 5⟩] ++ ⟨17, lcnRlNotMapped, 0⟩ :: [])) =
        .ok (rs ++ t :: stale) ∧ Listed rs t ∧ t.lcn = lcnEnoent ∧ t.vcn = max 30 17 ∧
      ∀ v, 0 ≤ v → rlVcnToLcn (rs ++ t :: stale) v =
        if 12 ≤ v ∧ v < 17 then rlVcnToLcn
          ([⟨0, lcnRlNotMapped, 12⟩] ++ ([⟨12, 200, 5⟩] ++ ⟨17, lcnRlNotMapped, 0⟩ :: [])) v
        else if 30 ≤ v ∧ v < 12 then some lcnRlNotMapped
        else rlVcnToLcn (halfKnown ++ ⟨30, lcnEnoent, 0⟩ :: []) v :=
  have source : Source [⟨0, lcnRlNotMapped, 12⟩] [⟨12, 200, 5⟩] ⟨17, lcnRlNotMapped, 0⟩ 12 :=
    ⟨⟨0, le_rfl, rfl, by decide, rfl⟩, by decide, by decide, by decide, ⟨rfl, by decide, rfl⟩,
      rfl, rfl⟩
  have listed : Listed halfKnown ⟨30, lcnEnoent, 0⟩ :=
    ⟨⟨rfl, by decide, rfl, by decide, rfl⟩, by decide, rfl, Or.inr rfl⟩
  runs_merged source listed
    (Or.inr ⟨[⟨0, 100, 10⟩], ⟨10, lcnRlNotMapped, 20⟩, [], rfl, by decide, by decide, by decide⟩)
    [] []

end MappingPairs
