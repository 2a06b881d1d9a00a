import NtfsIsoMounter.RunlistLookups
import NtfsIsoMounter.RunlistMerge

/-!
# The places where runs are put

Each of the four functions that put runs into a list joins them with their neighbours where it can.
Two lists are alike when they have the same clusters and say the same about each of them; joined
runs are like the runs that they have been joined from.
-/

namespace MappingPairs

variable {pre post stale src : List RunlistElement} {h p q t : RunlistElement} {i : Nat}

/-! ## Elements in memory -/

theorem cell_at (size : pre.length = i) : cell (pre ++ h :: post) i = h := by
  rw [cell, ← size, List.getD_append_right _ _ _ _ le_rfl, Nat.sub_self]
  rfl

theorem modify_at (size : pre.length = i) (f : RunlistElement → RunlistElement) :
    (pre ++ h :: post).modify i f = pre ++ f h :: post := by
  induction pre generalizing i with
  | nil =>
    subst size
    rfl
  | cons r pre ih =>
    subst size
    exact congrArg (r :: ·) (ih rfl)

theorem scan_at {stops : RunlistElement → Bool} (front pre : List RunlistElement)
    (size : front.length = i) (passed : ∀ r ∈ pre, stops r = false) (stop : stops h = true) :
    scan stops (front ++ (pre ++ h :: post)) i = i + pre.length := by
  have found : (pre ++ h :: post).findIdx stops = pre.length := by
    induction pre with
    | nil => simp [List.findIdx_cons, stop]
    | cons r pre ih =>
      rw [List.cons_append, List.findIdx_cons, passed r List.mem_cons_self,
        ih fun r' inside => passed r' (List.mem_cons_of_mem r inside)]
      rfl
  rw [scan, ← size, List.drop_left, found]

theorem put_split (base : List RunlistElement) (dst : Nat) (xs : List RunlistElement) :
    put base dst xs = base.take dst ++ (xs ++ base.drop (dst + xs.length)) :=
  List.append_assoc _ _ _

theorem rlMm_eq (base : List RunlistElement) (dst from' size : Nat) :
    rlMm base dst from' size = put base dst ((base.drop from').take size) := by
  rw [rlMm]
  split
  · rfl
  · rename_i same
    rcases Nat.eq_zero_or_pos size with none' | some'
    · rw [none', List.take_zero, put, List.append_nil]
      exact (List.take_append_drop dst base).symm
    · have here : dst = from' := by
        by_contra ne
        exact same ⟨ne, some'⟩
      have rest : ((base.drop dst).take size ++ (base.drop dst).drop size).drop
          ((base.drop dst).take size).length = (base.drop dst).drop size := List.drop_left
      rw [List.take_append_drop] at rest
      rw [← here, put_split, ← List.drop_drop, rest, List.take_append_drop,
        List.take_append_drop]

/-- Elements are moved behind the place of others, which are then put in front of them. -/
theorem splice (mem xs : List RunlistElement) (dst : Nat) {moved : List RunlistElement}
    {from' size : Nat} (source : (mem.drop from').take size = moved)
    (room : dst + xs.length + moved.length ≤ mem.length) :
    ∃ stale, put (rlMm mem (dst + xs.length) from' size) dst xs =
      mem.take dst ++ (xs ++ (moved ++ stale)) := by
  have start : (mem.take (dst + xs.length)).length = dst + xs.length := by
    rw [List.length_take]
    omega
  refine ⟨mem.drop (dst + xs.length + moved.length), ?_⟩
  rw [rlMm_eq, source, put_split, put_split mem, List.take_append_of_le_length (by omega),
    List.take_take, Nat.min_eq_left (Nat.le_add_right dst xs.length), List.drop_left' start]

theorem cell_append (early : i < pre.length) : cell (pre ++ post) i = cell pre i :=
  List.getD_append _ _ _ _ early

theorem cell_behind (size : pre.length = i) (post : List RunlistElement) (k : Nat) :
    cell (pre ++ post) (i + k) = cell post k := by
  rw [cell, ← size, List.getD_append_right _ _ _ _ (Nat.le_add_right _ _), Nat.add_sub_cancel_left]
  rfl

/-! ## Lists that are alike -/

/-- A list has the clusters of another one and says the same about each of them. -/
def Alike (rs ss : List RunlistElement) : Prop :=
  (∀ start stop, Tiles start ss stop → Tiles start rs stop ∧ ∀ v, lcnAt v rs = lcnAt v ss) ∧
    ∀ r ∈ rs, ∃ r' ∈ ss, r'.lcn = r.lcn

theorem Alike.refl (rs : List RunlistElement) : Alike rs rs :=
  ⟨fun _ _ tiles => ⟨tiles, fun _ => rfl⟩, fun r inside => ⟨r, inside, rfl⟩⟩

theorem Alike.trans {rs ss ts : List RunlistElement} (first : Alike rs ss) (second : Alike ss ts) :
    Alike rs ts := by
  refine ⟨fun start stop tiles => ?_, fun r inside => ?_⟩
  · obtain ⟨tiles', same'⟩ := second.1 start stop tiles
    obtain ⟨tiles'', same''⟩ := first.1 start stop tiles'
    exact ⟨tiles'', fun v => (same'' v).trans (same' v)⟩
  · obtain ⟨r', inside', same'⟩ := first.2 r inside
    obtain ⟨r'', inside'', same''⟩ := second.2 r' inside'
    exact ⟨r'', inside'', same''.trans same'⟩

theorem Alike.behind {rs ss : List RunlistElement} (alike : Alike rs ss)
    (front : List RunlistElement) : Alike (front ++ rs) (front ++ ss) := by
  refine ⟨fun start stop tiles => ?_, fun r inside => ?_⟩
  · obtain ⟨mid, before, after⟩ := tiles_append.mp tiles
    obtain ⟨tiles', same⟩ := alike.1 mid stop after
    refine ⟨tiles_append.mpr ⟨mid, before, tiles'⟩, fun v => ?_⟩
    rw [lcnAt_append, lcnAt_append, same]
  · rcases List.mem_append.mp inside with inside | inside
    · exact ⟨r, List.mem_append_left ss inside, rfl⟩
    · obtain ⟨r', inside', same⟩ := alike.2 r inside
      exact ⟨r', List.mem_append_right front inside', same⟩

theorem Alike.before {rs ss : List RunlistElement} (alike : Alike rs ss)
    (back : List RunlistElement) : Alike (rs ++ back) (ss ++ back) := by
  refine ⟨fun start stop tiles => ?_, fun r inside => ?_⟩
  · obtain ⟨mid, before, after⟩ := tiles_append.mp tiles
    obtain ⟨tiles', same⟩ := alike.1 start mid before
    refine ⟨tiles_append.mpr ⟨mid, tiles', after⟩, fun v => ?_⟩
    rw [lcnAt_append, lcnAt_append, same]
  · rcases List.mem_append.mp inside with inside | inside
    · obtain ⟨r', inside', same⟩ := alike.2 r inside
      exact ⟨r', List.mem_append_left back inside', same⟩
    · exact ⟨r, List.mem_append_right ss inside, rfl⟩

/-- Two elements are joined where the second one says what the first one would. -/
theorem mergeable_spec (mergeable : rlAreMergeable p q = true) :
    p.stop ≠ q.vcn ∧ p.lcn = lcnRlNotMapped ∧ q.lcn = lcnRlNotMapped ∨
      p.stop = q.vcn ∧ ∀ v, q.lcnOf v = p.lcnOf v := by
  rw [rlAreMergeable] at mergeable
  have places : p.stop = p.vcn + p.length := rfl
  by_cases unmapped : p.lcn = lcnRlNotMapped ∧ q.lcn = lcnRlNotMapped
  · by_cases adjacent : p.stop = q.vcn
    · refine Or.inr ⟨adjacent, fun v => ?_⟩
      rw [RunlistElement.lcnOf, RunlistElement.lcnOf, unmapped.1, unmapped.2]
      rfl
    · exact Or.inl ⟨adjacent, unmapped⟩
  · rw [if_neg unmapped] at mergeable
    by_cases adjacent : p.vcn + p.length = q.vcn
    · rw [if_neg (not_not.mpr adjacent)] at mergeable
      refine Or.inr ⟨adjacent, fun v => ?_⟩
      rw [RunlistElement.lcnOf, RunlistElement.lcnOf]
      by_cases follows : p.lcn ≥ 0 ∧ q.lcn ≥ 0 ∧ p.lcn + p.length = q.lcn
      · rw [if_pos follows.2.1, if_pos follows.1]
        omega
      · rw [if_neg follows] at mergeable
        obtain ⟨first, second⟩ := of_decide_eq_true mergeable
        rw [first, second]
        rfl
    · rw [if_pos adjacent] at mergeable
      cases mergeable

theorem merge_alike (mergeable : rlAreMergeable p q = true) (rest : List RunlistElement) :
    Alike (p.merge q :: rest) (p :: q :: rest) := by
  refine ⟨?_, fun r inside => ?_⟩
  swap
  · rcases List.mem_cons.mp inside with rfl | inside
    · exact ⟨p, List.mem_cons_self, rfl⟩
    · exact ⟨r, List.mem_cons_of_mem p (List.mem_cons_of_mem q inside), rfl⟩
  rintro start stop ⟨first, positive, second, positive', tiles⟩
  have ends : (p.merge q).length = p.length + q.length := rfl
  have same : ∀ v, q.lcnOf v = p.lcnOf v := by
    rcases mergeable_spec mergeable with away | same
    · exact absurd (show p.vcn + p.length = q.vcn by omega) away.1
    · exact same.2
  refine ⟨⟨first, by omega, ?_⟩, fun v => ?_⟩
  · rw [ends, ← Int.add_assoc]
    exact tiles
  · have merged : (p.merge q).lcnOf v = p.lcnOf v := rfl
    have start' : (p.merge q).vcn = p.vcn := rfl
    rw [lcnAt, lcnAt, lcnAt, merged, same, start', ends]
    by_cases inside : p.vcn ≤ v ∧ v < p.vcn + (p.length + q.length)
    · rw [if_pos inside]
      split
      · rfl
      · rw [if_pos (by omega)]
    · rw [if_neg inside, if_neg (by omega), if_neg (by omega)]

theorem exists_last {rs : List RunlistElement} (some' : rs ≠ []) :
    ∃ front r, rs = front ++ [r] :=
  ⟨_, _, (List.dropLast_append_getLast some').symm⟩

/-- The last element of a source, where it is joined with the first one behind it. -/
def joinRight (right : Bool) (src : List RunlistElement) (q : RunlistElement) :
    List RunlistElement :=
  if right then src.modify (src.length - 1) (·.merge q) else src

/-- The last element before a source, where it is joined with the first one of it. -/
def joinLeft (left : Bool) (pre : List RunlistElement) (q : RunlistElement) :
    List RunlistElement :=
  if left then pre.modify (pre.length - 1) (·.merge q) else pre

theorem length_joinRight (right : Bool) (src : List RunlistElement) (q : RunlistElement) :
    (joinRight right src q).length = src.length := by
  rw [joinRight]
  split
  · exact List.length_modify _ _ _
  · rfl

theorem length_joinLeft (left : Bool) (pre : List RunlistElement) (q : RunlistElement) :
    (joinLeft left pre q).length = pre.length := by
  rw [joinLeft]
  split
  · exact List.length_modify _ _ _
  · rfl

theorem joinRight_alike {right : Bool} (some' : src ≠ [])
    (join : right = true → post ≠ [] ∧
      rlAreMergeable (cell src (src.length - 1)) (cell post 0) = true) :
    Alike (joinRight right src (cell post 0) ++ post.drop right.toNat) (src ++ post) := by
  cases right with
  | false => exact Alike.refl _
  | true =>
    obtain ⟨more, mergeable⟩ := join rfl
    obtain ⟨front, r, rfl⟩ := exists_last some'
    obtain ⟨q, post, rfl⟩ := List.exists_cons_of_ne_nil more
    have size : front.length = (front ++ [r]).length - 1 := by simp
    rw [cell_at size] at mergeable
    rw [joinRight, if_pos rfl, modify_at size, List.append_assoc, List.append_assoc]
    exact (merge_alike mergeable post).behind front

/-- An element is joined on its left the same when it is longer. -/
theorem mergeable_congr {q' : RunlistElement} (vcn : q'.vcn = q.vcn) (lcn : q'.lcn = q.lcn) :
    rlAreMergeable p q' = rlAreMergeable p q := by
  rw [rlAreMergeable, rlAreMergeable, vcn, lcn]

variable (pre src) in
theorem joinLeft_alike {left : Bool} (some' : src ≠ [])
    (join : left = true → pre ≠ [] ∧
      rlAreMergeable (cell pre (pre.length - 1)) (cell src 0) = true) :
    Alike (joinLeft left pre (cell src 0) ++ src.drop left.toNat) (pre ++ src) := by
  cases left with
  | false => exact Alike.refl _
  | true =>
    obtain ⟨more, mergeable⟩ := join rfl
    obtain ⟨front, p, rfl⟩ := exists_last more
    obtain ⟨q, src, rfl⟩ := List.exists_cons_of_ne_nil some'
    have size : front.length = (front ++ [p]).length - 1 := by simp
    rw [cell_at size] at mergeable
    rw [joinLeft, if_pos rfl, modify_at size, List.append_assoc, List.append_assoc]
    exact (merge_alike mergeable src).behind front

theorem cell_joinRight (right : Bool) (some' : src ≠ []) (q : RunlistElement) :
    (cell (joinRight right src q) 0).vcn = (cell src 0).vcn ∧
      (cell (joinRight right src q) 0).lcn = (cell src 0).lcn := by
  cases right with
  | false => exact ⟨rfl, rfl⟩
  | true =>
    obtain ⟨front, r, rfl⟩ := exists_last some'
    have size : front.length = (front ++ [r]).length - 1 := by simp
    rw [joinRight, if_pos rfl, modify_at size]
    cases front with
    | nil => exact ⟨rfl, rfl⟩
    | cons f front => exact ⟨rfl, rfl⟩

/-- The last of some elements ends where they end. -/
theorem last_stop {start stop : Int} {rs : List RunlistElement} (tiles : Tiles start rs stop)
    (some' : rs ≠ []) : (cell rs (rs.length - 1)).stop = stop := by
  obtain ⟨front, r, rfl⟩ := exists_last some'
  obtain ⟨mid, -, last⟩ := tiles_append.mp tiles
  have size : front.length = (front ++ [r]).length - 1 := by simp
  have place := last.1
  rw [cell_at size, RunlistElement.stop, place]
  exact last.2.2

theorem modify_front (some' : pre ≠ []) (f : RunlistElement → RunlistElement)
    (rest : List RunlistElement) :
    (pre ++ rest).modify (pre.length - 1) f = pre.modify (pre.length - 1) f ++ rest := by
  obtain ⟨front, p, rfl⟩ := exists_last some'
  have size : front.length = (front ++ [p]).length - 1 := by simp
  rw [modify_at size, List.append_assoc, List.append_assoc]
  exact modify_at size f

theorem joinLeft_front {left : Bool} (join : left = true → pre ≠ []) (q : RunlistElement)
    (rest : List RunlistElement) :
    (if left then (pre ++ rest).modify (pre.length - 1) (·.merge q) else pre ++ rest) =
      joinLeft left pre q ++ rest := by
  cases left with
  | false => rfl
  | true => exact modify_front (join rfl) _ rest

/-- The end of a list that is told to be where the last element ends. -/
def fixEnd (rl : List RunlistElement) (marker : Nat) : List RunlistElement :=
  if (cell rl marker).lcn = lcnEnoent then
    rl.modify marker fun r => { r with vcn := (cell rl (marker - 1)).stop }
  else rl

/-- The end of a list stays where it is. -/
theorem fixEnd_end {start : Int} {rs : List RunlistElement} (tiles : Tiles start rs t.vcn)
    (some' : rs ≠ []) (stale : List RunlistElement) :
    fixEnd (rs ++ t :: stale) rs.length = rs ++ t :: stale := by
  rw [fixEnd]
  split
  · have ends := last_stop tiles some'
    have early := List.length_pos_of_ne_nil some'
    rw [modify_at rfl, cell_append (by omega), ends]
  · rfl

theorem fixEnd_inside {rs : List RunlistElement} (inside : h.lcn ≠ lcnEnoent)
    (rest : List RunlistElement) : fixEnd (rs ++ h :: rest) rs.length = rs ++ h :: rest := by
  rw [fixEnd, cell_at rfl]
  exact if_neg inside

theorem cell_next (some' : post ≠ []) :
    cell (pre ++ h :: (post ++ stale)) (pre.length + 1) = cell post 0 := by
  have size : (pre ++ [h]).length = pre.length + 1 := by simp
  have early := List.length_pos_of_ne_nil some'
  rw [List.append_cons]
  exact (cell_behind size _ 0).trans (cell_append early)

theorem cell_before (some' : pre ≠ []) (rest : List RunlistElement) :
    cell (pre ++ rest) (pre.length - 1) = cell pre (pre.length - 1) :=
  cell_append (Nat.sub_lt (List.length_pos_of_ne_nil some') Nat.one_pos)

/-- What is behind an element, without the first of it where that has been joined. -/
theorem moved_behind (n : Nat) (few : n ≤ post.length) :
    ((pre ++ h :: (post ++ stale)).drop (pre.length + n + 1)).take (post.length - n) =
      post.drop n := by
  have size : (pre ++ [h]).length = pre.length + 1 := by simp
  rw [List.append_cons, show pre.length + n + 1 = (pre ++ [h]).length + n by omega,
    ← List.drop_drop, List.drop_left, List.drop_append_of_le_length few,
    List.take_left' (List.length_drop)]

/-- All of what is from an element on. -/
theorem moved_whole {n : Nat} (size : pre.length = n) (rest : List RunlistElement) :
    ((pre ++ h :: (post ++ rest)).drop n).take (n + 1 + post.length - n) = h :: post := by
  rw [← size, List.drop_left, ← List.cons_append]
  exact List.take_left' (by rw [List.length_cons]; omega)

theorem take_next (rest : List RunlistElement) :
    (pre ++ h :: rest).take (pre.length + 1) = pre ++ [h] := by
  rw [List.append_cons]
  exact List.take_left' (by simp)

variable (pre h post stale) in
/-- A list that grows has its new elements behind those that do not belong to it. -/
theorem realloc_memory (n : Nat) : ∃ new,
    rlRealloc (pre ++ h :: (post ++ stale)) n = pre ++ h :: (post ++ (stale ++ new)) ∧
      new.length = n - (pre ++ h :: (post ++ stale)).length := by
  refine ⟨_, ?_, List.length_replicate (a := (⟨0, 0, 0⟩ : RunlistElement))⟩
  rw [rlRealloc, List.append_assoc, List.cons_append, List.append_assoc]

/-- When the first run of a source is joined with what is in front of its place. -/
theorem left_join {left : Bool} {rest : List RunlistElement}
    (isLeft : (decide (pre.length ≠ 0) &&
      rlAreMergeable (cell (pre ++ rest) (pre.length - 1)) (cell src 0)) = left) :
    left = true → pre ≠ [] ∧ rlAreMergeable (cell pre (pre.length - 1)) (cell src 0) = true := by
  rintro rfl
  obtain ⟨more, mergeable⟩ := Bool.and_eq_true_iff.mp isLeft
  have nonempty : pre ≠ [] :=
    List.ne_nil_of_length_pos (Nat.pos_of_ne_zero (of_decide_eq_true more))
  rw [cell_before nonempty] at mergeable
  exact ⟨nonempty, mergeable⟩

/-- When the last run of a source is joined with what is behind its place, and what it is then. -/
theorem right_join {right : Bool}
    (isRight : (decide (pre.length + 1 < pre.length + 1 + post.length) &&
      rlAreMergeable (cell src (src.length - 1))
        (cell (pre ++ h :: (post ++ stale)) (pre.length + 1))) = right) :
    (right = true → post ≠ [] ∧
      rlAreMergeable (cell src (src.length - 1)) (cell post 0) = true) ∧
    right.toNat ≤ post.length ∧
    (if right then src.modify (src.length - 1)
        (·.merge (cell (pre ++ h :: (post ++ stale)) (pre.length + 1))) else src) =
      joinRight right src (cell post 0) := by
  cases right with
  | false => exact ⟨fun joins => Bool.noConfusion joins, Nat.zero_le _, rfl⟩
  | true =>
    obtain ⟨more, mergeable⟩ := Bool.and_eq_true_iff.mp isRight
    have nonempty : post ≠ [] := by
      rintro rfl
      simp at more
    rw [cell_next nonempty] at mergeable ⊢
    exact ⟨fun _ => ⟨nonempty, mergeable⟩, List.length_pos_of_ne_nil nonempty, rfl⟩

variable (pre h post stale) in
theorem rlReplace_mem (some' : src ≠ []) : ∃ left right stale',
    (left = true → pre ≠ [] ∧ rlAreMergeable (cell pre (pre.length - 1)) (cell src 0) = true) ∧
    (right = true → post ≠ [] ∧
      rlAreMergeable (cell src (src.length - 1)) (cell post 0) = true) ∧
    rlReplace (pre ++ h :: (post ++ stale)) (pre.length + 1 + post.length) src pre.length =
      let joined := joinRight right src (cell post 0)
      let placed := joinLeft left pre (cell joined 0) ++ joined.drop left.toNat
      let rl := placed ++ (post.drop right.toNat ++ stale')
      if post.drop right.toNat = [] then rl else fixEnd rl placed.length := by
  have early := List.length_pos_of_ne_nil some'
  rw [rlReplace]
  generalize isRight : (decide (pre.length + 1 < pre.length + 1 + post.length) &&
    rlAreMergeable (cell src (src.length - 1))
      (cell (pre ++ h :: (post ++ stale)) (pre.length + 1))) = right
  generalize isLeft : (decide (pre.length > 0) &&
    rlAreMergeable (cell (pre ++ h :: (post ++ stale)) (pre.length - 1)) (cell src 0)) = left
  obtain ⟨joinR, fewR, joined⟩ := right_join isRight
  have nonzero : decide (pre.length > 0) = decide (pre.length ≠ 0) :=
    decide_eq_decide.mpr Nat.pos_iff_ne_zero
  rw [nonzero] at isLeft
  have joinL := left_join isLeft
  have size := length_joinRight right src (cell post 0)
  have fewL : left.toNat ≤ src.length := (Bool.toNat_le left).trans early
  dsimp only
  rw [joined]
  generalize isJoined : joinRight right src (cell post 0) = src' at size
  obtain ⟨new, memory, space⟩ := realloc_memory pre post stale h
    (pre.length + 1 + post.length + src.length - 1 - left.toNat - right.toNat)
  rw [memory, joinLeft_front fun is => (joinL is).1]
  have size' := length_joinLeft left pre (cell src' 0)
  generalize isPlaced : joinLeft left pre (cell src' 0) = pre' at size'
  have length : (src'.drop left.toNat).length = src.length - left.toNat := by
    rw [List.length_drop, size]
  obtain ⟨stale', spliced⟩ := splice (pre' ++ h :: (post ++ (stale ++ new)))
    (src'.drop left.toNat) pre.length (size' ▸ moved_behind right.toNat fewR) (by
      simp only [List.length_append, List.length_cons, List.length_drop] at space length ⊢
      omega)
  have left' : pre.length + 1 + post.length - (pre.length + right.toNat + 1) =
      post.length - right.toNat := by omega
  have marker : pre.length + src.length - left.toNat =
      pre.length + (src'.drop left.toNat).length := by omega
  have place : pre.length + (src'.drop left.toNat).length =
      (pre' ++ src'.drop left.toNat).length := by rw [List.length_append, size']
  refine ⟨left, right, stale', joinL, joinR, ?_⟩
  rw [List.take_left' size'] at spliced
  rw [left', marker, spliced, place, isJoined, isPlaced, List.append_assoc]
  by_cases none' : post.drop right.toNat = []
  · have last := congrArg List.length none'
    rw [List.length_drop, List.length_nil] at last
    rw [if_neg (by omega), if_pos none']
  · have more := List.length_pos_of_ne_nil none'
    rw [List.length_drop] at more
    rw [if_neg none', fixEnd]
    refine if_congr (and_iff_right more) rfl rfl

/-- What is behind the place where a list ends does not belong to it. -/
theorem fixEnd_behind (rs stale : List RunlistElement) :
    ∃ stale', fixEnd (rs ++ stale) rs.length = rs ++ stale' := by
  rw [fixEnd]
  split
  · cases stale with
    | nil => exact ⟨[], by simp [List.modify_eq_self]⟩
    | cons r stale => exact ⟨_, modify_at rfl _⟩
  · exact ⟨stale, rfl⟩

variable (pre h post stale) in
theorem rlAppend_mem (some' : src ≠ []) : ∃ right stale',
    (right = true → post ≠ [] ∧
      rlAreMergeable (cell src (src.length - 1)) (cell post 0) = true) ∧
    rlAppend (pre ++ h :: (post ++ stale)) (pre.length + 1 + post.length) src pre.length =
      let joined := joinRight right src (cell post 0)
      let placed := pre ++ { h with length := (cell joined 0).vcn - h.vcn } :: joined
      let rl := placed ++ (post.drop right.toNat ++ stale')
      if post.drop right.toNat = [] then rl else fixEnd rl placed.length := by
  have early := List.length_pos_of_ne_nil some'
  rw [rlAppend]
  generalize isRight : (decide (pre.length + 1 < pre.length + 1 + post.length) &&
    rlAreMergeable (cell src (src.length - 1))
      (cell (pre ++ h :: (post ++ stale)) (pre.length + 1))) = right
  obtain ⟨joinR, fewR, joined⟩ := right_join isRight
  have size := length_joinRight right src (cell post 0)
  dsimp only
  rw [joined]
  generalize isJoined : joinRight right src (cell post 0) = src' at size
  obtain ⟨new, memory, space⟩ := realloc_memory pre post stale h
    (pre.length + 1 + post.length + src.length - right.toNat)
  have moved : ((pre ++ h :: (post ++ (stale ++ new))).drop (pre.length + 1 + right.toNat)).take
      (pre.length + 1 + post.length - pre.length - 1 - right.toNat) = post.drop right.toNat := by
    rw [show pre.length + 1 + right.toNat = pre.length + right.toNat + 1 by omega,
      show pre.length + 1 + post.length - pre.length - 1 - right.toNat =
        post.length - right.toNat by omega]
    exact moved_behind right.toNat fewR
  obtain ⟨stale', spliced⟩ := splice (pre ++ h :: (post ++ (stale ++ new))) src' (pre.length + 1)
    moved (by
      simp only [List.length_append, List.length_cons, List.length_drop] at space ⊢
      omega)
  have marker : pre.length + src.length + 1 = pre.length + 1 + src'.length := by omega
  have first : cell (pre ++ h :: (src' ++ (post.drop right.toNat ++ stale'))) (pre.length + 1) =
      cell src' 0 := cell_next (List.ne_nil_of_length_pos (size ▸ early))
  have place : pre.length + 1 + src'.length =
      (pre ++ { h with length := (cell src' 0).vcn - h.vcn } :: src').length := by
    rw [List.length_append, List.length_cons]
    omega
  rw [take_next, List.append_assoc, List.singleton_append] at spliced
  rw [memory, marker, spliced, first, modify_at rfl, place]
  have whole : pre ++ { h with length := (cell src' 0).vcn - h.vcn } ::
      (src' ++ (post.drop right.toNat ++ stale')) =
      (pre ++ { h with length := (cell src' 0).vcn - h.vcn } :: src') ++
        (post.drop right.toNat ++ stale') := by
    rw [List.append_assoc, List.cons_append]
  rw [whole]
  by_cases none' : post.drop right.toNat = []
  · obtain ⟨stale'', fixed⟩ := fixEnd_behind
      (pre ++ { h with length := (cell src' 0).vcn - h.vcn } :: src') stale'
    refine ⟨right, stale'', joinR, ?_⟩
    rw [isJoined, if_pos none', none', List.nil_append, List.nil_append]
    exact fixed
  · refine ⟨right, stale', joinR, ?_⟩
    rw [isJoined, if_neg none']
    rfl

variable (pre h post stale) in
theorem rlSplit_mem (some' : src ≠ []) (more : post ≠ []) : ∃ stale',
    rlSplit (pre ++ h :: (post ++ stale)) (pre.length + 1 + post.length) src pre.length =
      pre ++ { h with length := (cell src 0).vcn - h.vcn } :: (src ++
        ⟨(cell src (src.length - 1)).stop, h.lcn,
          (cell post 0).vcn - (cell src (src.length - 1)).stop⟩ :: (post ++ stale')) := by
  have early := List.length_pos_of_ne_nil some'
  have behind := List.length_pos_of_ne_nil more
  rw [rlSplit]
  obtain ⟨new, memory, space⟩ := realloc_memory pre post stale h
    (pre.length + 1 + post.length + src.length + 1)
  obtain ⟨stale', spliced⟩ := splice (pre ++ h :: (post ++ (stale ++ new))) src (pre.length + 1)
    (moved_whole rfl _) (by
      simp only [List.length_append, List.length_cons] at space ⊢
      omega)
  have first : cell (pre ++ h :: (src ++ h :: (post ++ stale'))) (pre.length + 1) =
      cell src 0 := cell_next some'
  rw [take_next, List.append_assoc, List.singleton_append, List.cons_append] at spliced
  refine ⟨stale', ?_⟩
  rw [memory, spliced, first, modify_at rfl]
  generalize { h with length := (cell src 0).vcn - h.vcn } = h'
  have size : (pre ++ h' :: src).length = pre.length + src.length + 1 := by
    rw [List.length_append, List.length_cons]
    omega
  have parts (r : RunlistElement) : pre ++ h' :: (src ++ r :: (post ++ stale')) =
      (pre ++ h' :: src) ++ r :: (post ++ stale') := by
    rw [List.append_assoc, List.cons_append]
  have last : cell (pre ++ h' :: (src ++ h :: (post ++ stale'))) (pre.length + src.length) =
      cell src (src.length - 1) := by
    rw [List.append_cons, show pre.length + src.length =
      (pre ++ [h']).length + (src.length - 1) by simp; omega]
    exact (cell_behind rfl _ _).trans (cell_append (Nat.sub_lt early Nat.one_pos))
  rw [last, parts, modify_at size, modify_at size]
  have next (r : RunlistElement) : cell ((pre ++ h' :: src) ++ r :: (post ++ stale'))
      (pre.length + src.length + 2) = cell post 0 := by
    rw [show pre.length + src.length + 2 = (pre ++ h' :: src).length + 1 by omega]
    exact cell_next more
  rw [next, parts]

/-- The cluster behind the elements in front of a place. -/
def edge (pre : List RunlistElement) : Int :=
  if pre = [] then 0 else (cell pre (pre.length - 1)).stop

/-- An element that is moved behind the runs that have been put in front of it. -/
def RunlistElement.shifted (h : RunlistElement) (stop next : Int) : RunlistElement :=
  ⟨stop, h.lcn, if h.lcn = lcnHole ∨ h.lcn = lcnRlNotMapped then next - stop else h.length⟩

theorem modify_shifted {front : List RunlistElement} {stop : Int} (size : front.length = i)
    (open' : h.lcn = lcnHole ∨ h.lcn = lcnRlNotMapped → post ≠ []) (stale' : List RunlistElement) :
    (if (cell (front ++ { h with vcn := stop } :: (post ++ stale')) i).lcn = lcnHole ∨
        (cell (front ++ { h with vcn := stop } :: (post ++ stale')) i).lcn = lcnRlNotMapped then
      (front ++ { h with vcn := stop } :: (post ++ stale')).modify i fun r =>
        { r with length := (cell (front ++ { h with vcn := stop } :: (post ++ stale'))
          (i + 1)).vcn - r.vcn }
    else front ++ { h with vcn := stop } :: (post ++ stale')) =
      front ++ h.shifted stop (cell post 0).vcn :: (post ++ stale') := by
  rw [cell_at size, RunlistElement.shifted]
  dsimp only
  split
  · rename_i inside
    rw [modify_at size, ← size, cell_next (open' inside)]
  · rfl

variable (pre h post stale) in
/-- Runs that start where the elements in front of them end. -/
theorem rlInsert_aligned (some' : src ≠ []) (positive : 0 < (cell src 0).length)
    (aligned : edge pre = (cell src 0).vcn)
    (open' : h.lcn = lcnHole ∨ h.lcn = lcnRlNotMapped → post ≠ []) : ∃ left stale',
    (left = true → pre ≠ [] ∧ rlAreMergeable (cell pre (pre.length - 1)) (cell src 0) = true) ∧
    rlInsert (pre ++ h :: (post ++ stale)) (pre.length + 1 + post.length) src pre.length =
      let placed := joinLeft left pre (cell src 0) ++ src.drop left.toNat
      placed ++ h.shifted (cell placed (placed.length - 1)).stop (cell post 0).vcn ::
        (post ++ stale') := by
  have early := List.length_pos_of_ne_nil some'
  rw [rlInsert]
  generalize isLeft : (decide (pre.length ≠ 0) &&
    rlAreMergeable (cell (pre ++ h :: (post ++ stale)) (pre.length - 1)) (cell src 0)) = left
  have joinL := left_join isLeft
  have fewL : left.toNat ≤ src.length := (Bool.toNat_le left).trans early
  have disc : (if pre.length = 0 then decide ((cell src 0).vcn > 0) else
      decide ((cell src 0).vcn > (cell (pre ++ h :: (post ++ stale)) (pre.length - 1)).vcn +
        if left then (cell (pre ++ h :: (post ++ stale)) (pre.length - 1)).length +
          (cell src 0).length
        else (cell (pre ++ h :: (post ++ stale)) (pre.length - 1)).length)) = false := by
    rw [edge] at aligned
    by_cases none' : pre = []
    · rw [if_pos none'] at aligned
      rw [if_pos (List.length_eq_zero_iff.mpr none')]
      exact decide_eq_false (by omega)
    · have more := List.length_pos_of_ne_nil none'
      rw [if_neg none', RunlistElement.stop] at aligned
      rw [if_neg (by omega), cell_before none']
      refine decide_eq_false ?_
      split
      · omega
      · omega
  dsimp only
  rw [disc, if_neg Bool.false_ne_true]
  simp only [Bool.toNat_false, Nat.add_zero]
  obtain ⟨new, memory, space⟩ := realloc_memory pre post stale h
    (pre.length + 1 + post.length + src.length - left.toNat)
  rw [memory, joinLeft_front fun is => (joinL is).1]
  have size := length_joinLeft left pre (cell src 0)
  generalize isPlaced : joinLeft left pre (cell src 0) = pre' at size
  have length : (src.drop left.toNat).length = src.length - left.toNat := List.length_drop
  obtain ⟨stale', spliced⟩ := splice (pre' ++ h :: (post ++ (stale ++ new)))
    (src.drop left.toNat) pre.length (moved_whole size _) (by
      simp only [List.length_append, List.length_cons, List.length_drop] at space length ⊢
      omega)
  have marker : pre.length + src.length - left.toNat =
      pre.length + (src.drop left.toNat).length := by omega
  have place : (pre' ++ src.drop left.toNat).length =
      pre.length + (src.drop left.toNat).length := by rw [List.length_append, size]
  have nonempty : pre' ++ src.drop left.toNat ≠ [] := by
    refine List.ne_nil_of_length_pos ?_
    cases left with
    | false =>
      rw [place, length, Bool.toNat_false]
      omega
    | true =>
      have more := List.length_pos_of_ne_nil (joinL rfl).1
      omega
  rw [List.take_left' size, ← List.append_assoc pre', List.cons_append] at spliced
  refine ⟨left, stale', joinL, ?_⟩
  rw [marker, spliced, modify_at place, ← place, cell_before nonempty, isPlaced]
  exact modify_shifted rfl open' stale'

variable (pre h post stale) in
/-- Runs that start behind the end of the list, with an unmapped element in front of them. -/
theorem rlInsert_away (some' : src ≠ []) (mapped : lcnHole ≤ (cell src 0).lcn)
    (away : edge pre < (cell src 0).vcn) (last : h.lcn = lcnEnoent) : ∃ stale',
    rlInsert (pre ++ h :: (post ++ stale)) (pre.length + 1 + post.length) src pre.length =
      pre ++ ⟨edge pre, lcnRlNotMapped, (cell src 0).vcn - edge pre⟩ ::
        (src ++ { h with vcn := (cell src (src.length - 1)).stop } :: (post ++ stale')) := by
  have early := List.length_pos_of_ne_nil some'
  rw [rlInsert]
  have left : (decide (pre.length ≠ 0) &&
      rlAreMergeable (cell (pre ++ h :: (post ++ stale)) (pre.length - 1)) (cell src 0)) =
      false := by
    refine Bool.eq_false_iff.mpr fun joins => ?_
    obtain ⟨nonempty, mergeable⟩ := left_join joins rfl
    rw [edge, if_neg nonempty] at away
    rcases mergeable_spec mergeable with unmapped | joined
    · rw [unmapped.2.2, lcnHole, lcnRlNotMapped] at mapped
      omega
    · rw [joined.1] at away
      omega
  rw [left]
  have disc : (if pre.length = 0 then decide ((cell src 0).vcn > 0) else
      decide ((cell src 0).vcn > (cell (pre ++ h :: (post ++ stale)) (pre.length - 1)).vcn +
        (cell (pre ++ h :: (post ++ stale)) (pre.length - 1)).length)) = true := by
    rw [edge] at away
    by_cases none' : pre = []
    · rw [if_pos none'] at away
      rw [if_pos (List.length_eq_zero_iff.mpr none')]
      exact decide_eq_true away
    · have more := List.length_pos_of_ne_nil none'
      rw [if_neg none'] at away
      rw [if_neg (by omega), cell_before none']
      exact decide_eq_true away
  simp only [Bool.false_eq_true, if_false]
  rw [disc]
  simp only [Bool.toNat_false, Bool.toNat_true, Nat.sub_zero, if_true, List.drop_zero]
  obtain ⟨new, memory, space⟩ := realloc_memory pre post stale h
    (pre.length + 1 + post.length + src.length + 1)
  obtain ⟨stale', spliced⟩ := splice (pre ++ h :: (post ++ (stale ++ new))) src (pre.length + 1)
    (moved_whole rfl _) (by
      simp only [List.length_append, List.length_cons] at space ⊢
      omega)
  have marker : pre.length + src.length + 1 = pre.length + 1 + src.length := by omega
  have size : (pre ++ h :: src).length = pre.length + 1 + src.length := by
    rw [List.length_append, List.length_cons]
    omega
  have parts (x r : RunlistElement) : pre ++ x :: (src ++ r :: (post ++ stale')) =
      (pre ++ x :: src) ++ r :: (post ++ stale') := by
    rw [List.append_assoc, List.cons_append]
  have ends : cell (pre ++ h :: (src ++ h :: (post ++ stale'))) (pre.length + 1 + src.length - 1) =
      cell src (src.length - 1) := by
    rw [List.append_cons, show pre.length + 1 + src.length - 1 =
      (pre ++ [h]).length + (src.length - 1) by simp; omega]
    exact (cell_behind rfl _ _).trans (cell_append (Nat.sub_lt early Nat.one_pos))
  have closed : ¬ (h.lcn = lcnHole ∨ h.lcn = lcnRlNotMapped) := by
    rw [last]
    decide
  rw [take_next, List.append_assoc, List.singleton_append, List.cons_append] at spliced
  refine ⟨stale', ?_⟩
  rw [memory, marker, spliced, ends, parts, modify_at size, cell_at size, if_neg closed, ← parts,
    modify_at rfl, cell_next some', edge]
  by_cases none' : pre = []
  · rw [if_neg (by rw [none']; simp), if_pos none']
  · have more := List.length_pos_of_ne_nil none'
    rw [if_pos more, if_neg none', cell_before none']

end MappingPairs
