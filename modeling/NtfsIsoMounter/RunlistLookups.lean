import NtfsIsoMounter.MappingRoundTrip

/-!
# What a runlist says about a cluster

Every element of a runlist tells where its clusters are, or that nothing is known of them. Two
runlists are the same to the callers of `ntfs_rl_vcn_to_lcn` when they say the same about every
cluster, however the clusters are divided into elements.
-/

namespace MappingPairs

/-- Elements that follow each other, whatever they say about their clusters. -/
def Tiles : Int → List RunlistElement → Int → Prop
  | start, [], stop => start = stop
  | start, r :: rs, stop => r.vcn = start ∧ 0 < r.length ∧ Tiles (start + r.length) rs stop

/-- What an element says about one of its clusters. -/
def RunlistElement.lcnOf (r : RunlistElement) (v : Int) : Int :=
  if r.lcn ≥ 0 then r.lcn + (v - r.vcn) else r.lcn

/-- What some elements say about a cluster, where one of them has it. -/
def lcnAt (v : Int) : List RunlistElement → Option Int
  | [] => none
  | r :: rs => if r.vcn ≤ v ∧ v < r.vcn + r.length then some (r.lcnOf v) else lcnAt v rs

section Lookups

variable {start mid stop v : Int} {rs ss : List RunlistElement}

theorem Runs.tiles (runs : Runs start rs stop) : Tiles start rs stop := by
  induction rs generalizing start with
  | nil => exact runs
  | cons r rs ih => exact ⟨runs.1, runs.2.1.positive, ih runs.2.2⟩

theorem Tiles.le (tiles : Tiles start rs stop) : start ≤ stop := by
  induction rs generalizing start with
  | nil => exact le_of_eq tiles
  | cons r rs ih =>
    have positive := tiles.2.1
    have rest := ih tiles.2.2
    omega

theorem tiles_append :
    Tiles start (rs ++ ss) stop ↔ ∃ mid, Tiles start rs mid ∧ Tiles mid ss stop := by
  induction rs generalizing start with
  | nil =>
    constructor
    · exact fun tiles => ⟨start, rfl, tiles⟩
    · rintro ⟨mid, same, tiles⟩
      rw [show start = mid from same]
      exact tiles
  | cons r rs ih =>
    constructor
    · rintro ⟨first, positive, rest⟩
      obtain ⟨mid, inner, outer⟩ := ih.mp rest
      exact ⟨mid, ⟨first, positive, inner⟩, outer⟩
    · rintro ⟨mid, ⟨first, positive, inner⟩, outer⟩
      exact ⟨first, positive, ih.mpr ⟨mid, inner, outer⟩⟩

theorem lcnAt_append (rs ss : List RunlistElement) (v : Int) :
    lcnAt v (rs ++ ss) = (lcnAt v rs).or (lcnAt v ss) := by
  induction rs with
  | nil => rfl
  | cons r rs ih =>
    rw [List.cons_append, lcnAt, lcnAt]
    split
    · rfl
    · exact ih

theorem lcnAt_eq_none (tiles : Tiles start rs stop) :
    lcnAt v rs = none ↔ v < start ∨ stop ≤ v := by
  induction rs generalizing start with
  | nil =>
    have same : start = stop := tiles
    exact ⟨fun _ => by omega, fun _ => rfl⟩
  | cons r rs ih =>
    obtain ⟨first, positive, rest⟩ := tiles
    have next := rest.le
    rw [lcnAt]
    split
    · exact ⟨fun none' => (Option.some_ne_none _ none').elim, fun away => by omega⟩
    · rw [ih rest]
      omega

/-- The clusters between the ends are in one of the elements. -/
theorem Tiles.found (tiles : Tiles start rs stop) (low : start ≤ v) (high : v < stop) :
    ∃ l, lcnAt v rs = some l := by
  refine Option.ne_none_iff_exists'.mp ?_
  rw [Ne, lcnAt_eq_none tiles]
  omega

/-- No cluster is in a place that is not above those of all elements. -/
theorem lcnAt_le {least l : Int} (places : ∀ r ∈ rs, least ≤ r.lcn) (found : lcnAt v rs = some l) :
    least ≤ l := by
  induction rs with
  | nil => cases found
  | cons r rs ih =>
    rw [lcnAt] at found
    split at found
    · have own := places r List.mem_cons_self
      rw [RunlistElement.lcnOf, Option.some.injEq] at found
      split at found <;> omega
    · exact ih (fun r' inside => places r' (List.mem_cons_of_mem r inside)) found

theorem findLcn_cons {r r' : RunlistElement} (some' : r.length ≠ 0) (rest : List RunlistElement) :
    findLcn v (r :: r' :: rest) =
      if v < r'.vcn then some (r.lcnOf v) else findLcn v (r' :: rest) := by
  rw [findLcn, if_neg some']
  rfl

/-- A lookup goes through the elements that have the cluster in them. -/
theorem findLcn_append {t : RunlistElement} (tiles : Tiles start rs t.vcn) (low : start ≤ v)
    (more : List RunlistElement) :
    findLcn v (rs ++ t :: more) = (lcnAt v rs).or (findLcn v (t :: more)) := by
  induction rs generalizing start with
  | nil => rfl
  | cons r rs ih =>
    obtain ⟨first, positive, rest⟩ := tiles
    have next : ∃ r' rs', rs ++ t :: more = r' :: rs' ∧ r'.vcn = start + r.length := by
      cases rs with
      | nil => exact ⟨t, more, rfl, (show start + r.length = t.vcn from rest).symm⟩
      | cons r' rs => exact ⟨r', rs ++ t :: more, rfl, rest.1⟩
    obtain ⟨r', rs', after, place⟩ := next
    rw [List.cons_append, after, findLcn_cons (by omega), lcnAt]
    by_cases inside : v < r.vcn + r.length
    · rw [if_pos (by omega), if_pos (by omega)]
      rfl
    · rw [if_neg (by omega), if_neg (by omega), ← after]
      exact ih rest (by omega)

theorem findLcn_end {t : RunlistElement} (ends : t.length = 0) (more : List RunlistElement) :
    findLcn v (t :: more) = some (if t.lcn < 0 then t.lcn else lcnEnoent) := by
  cases more with
  | nil => exact if_pos ends
  | cons r rs => exact if_pos ends

/-- What `ntfs_rl_vcn_to_lcn` finds from where the runlist starts on. -/
theorem rlVcnToLcn_eq {t : RunlistElement} (ends : t.length = 0) (tiles : Tiles start rs t.vcn)
    (first : 0 ≤ start) (low : start ≤ v) (more : List RunlistElement) :
    rlVcnToLcn (rs ++ t :: more) v =
      (lcnAt v rs).or (some (if t.lcn < 0 then t.lcn else lcnEnoent)) := by
  have found := findLcn_append tiles low more
  rw [findLcn_end ends] at found
  rw [← found]
  cases rs with
  | nil =>
    have same : start = t.vcn := tiles
    exact (if_neg (by omega)).trans (if_neg (by omega))
  | cons r rs =>
    have same := tiles.1
    exact (if_neg (by omega)).trans (if_neg (by omega))

/-- The runs from a cluster on say the same about the clusters behind it. -/
theorem lcnAt_cut {c : Int} (runs : Runs start rs stop) (behind : v ≤ c) :
    lcnAt c (cut v rs) = lcnAt c rs := by
  induction rs generalizing start with
  | nil => rfl
  | cons r rs ih =>
    have place := runs.2.1.place
    rw [cut]
    by_cases past : r.vcn + r.length ≤ v
    · rw [if_pos past, ih runs.2.2, lcnAt, if_neg (by omega)]
    · rw [if_neg past]
      by_cases inside : r.vcn < v
      · have ends : (r.behind v).vcn + (r.behind v).length = r.vcn + r.length := by
          show v + (r.length - (v - r.vcn)) = _
          omega
        have same : (r.behind v).lcnOf c = r.lcnOf c := by
          rw [RunlistElement.lcnOf, RunlistElement.lcnOf, RunlistElement.behind]
          dsimp only
          split <;> omega
        rw [if_pos inside, lcnAt, lcnAt, ends, same]
        refine if_congr ?_ rfl rfl
        show v ≤ c ∧ _ ↔ _
        omega
      · rw [if_neg inside]

end Lookups

end MappingPairs
