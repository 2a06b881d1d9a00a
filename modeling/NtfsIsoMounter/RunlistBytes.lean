import NtfsIsoMounter.GekkoDevice
import NtfsIsoMounter.RunlistLookups

/-!
# The bytes of a runlist

`ntfs_rl_pread` gathers bytes from where a runlist has them on the device, and `ntfs_rl_pwrite`
scatters them there. A hole is read as zeros, and what is written into one is lost. Whatever the
elements are, only the places of the clusters decide which bytes are meant.
-/

namespace RunlistBytes

open ByteMaps SectorCache SectorRequests GekkoIo GekkoDevice MappingPairs

variable {m pages : Nat}

/-! ## `runlist.c` -/

/-- The loop that seeks the run of a position, with how far it has come. -/
def seekRun (clusterSizeBits : Nat) (pos : Int) :
    List RunlistElement → Int → Option (List RunlistElement × Int)
  | [], _ => none
  | r :: rs, ofs =>
    if r.length ≠ 0 ∧ ofs + r.length * 2 ^ clusterSizeBits ≤ pos then
      seekRun clusterSizeBits pos rs (ofs + r.length * 2 ^ clusterSizeBits)
    else some (r :: rs, ofs)

/-- What is returned from `rl_err_out`. -/
def rlErrOut (total : Nat) (err : Errno) : Except Errno Nat :=
  if total ≠ 0 then .ok total else .error err

/-- `min(count, (rl->length << vol->cluster_size_bits) - ofs)` -/
def share (clusterSizeBits : Nat) (r : RunlistElement) (ofs : Int) (count : Nat) :
    Nat :=
  (min (count : Int) (r.length * 2 ^ clusterSizeBits - ofs)).toNat

section Transfers
variable [NeZero m] [NeZero pages] (io : DiscInterface (Sector m)) (memory : Nat → UInt8)
  (clusterSizeBits : Nat)

/-- The loop of `ntfs_rl_pread`. -/
def gather : List RunlistElement → Int → NtfsDevice m pages → Nat → Nat → (Nat → UInt8) →
    Option (Except Errno Nat × (Nat → UInt8) × NtfsDevice m pages)
  | [], _, dev, total, count, b => if count = 0 then some (.ok total, b, dev) else none
  | r :: rs, ofs, dev, total, count, b =>
    if count = 0 then some (.ok total, b, dev)
    else if r.length = 0 then some (rlErrOut total .eio, b, dev)
    else
      let toRead := share clusterSizeBits r ofs count
      if r.lcn < 0 then
        if r.lcn ≠ lcnHole then some (rlErrOut total .eio, b, dev)
        else gather rs 0 dev (total + toRead) (count - toRead) (fill b total toRead fun _ => 0)
      else
        (ntfsPread io memory dev (r.lcn * 2 ^ clusterSizeBits + ofs) toRead
          fun i => b (total + i)).bind fun p =>
            let b := fill b total toRead p.2.1
            match p.1 with
            | .ok bytesRead =>
              -- also where fewer bytes have been read, the next run is taken
              if bytesRead > 0 then
                gather rs 0 p.2.2 (total + bytesRead) (count - bytesRead) b
              else some (rlErrOut total .eio, b, p.2.2)
            | .error err => some (rlErrOut total err, b, p.2.2)

/-- `ntfs_rl_pread` -/
def ntfsRlPread (dev : NtfsDevice m pages) (rl : List RunlistElement) (pos count : Int)
    (b : Nat → UInt8) : Option (Except Errno Nat × (Nat → UInt8) × NtfsDevice m pages) :=
  if rl = [] ∨ pos < 0 ∨ count < 0 then some (.error .einval, b, dev)
  else if count = 0 then some (.ok 0, b, dev)
  else
    (seekRun clusterSizeBits pos rl 0).bind fun p =>
      gather io memory clusterSizeBits p.1 (pos - p.2) dev 0 count.toNat b

/-- The loop of `ntfs_rl_pwrite`. -/
def scatter (readOnly : Bool) (b : Nat → UInt8) : List RunlistElement → Int →
    NtfsDevice m pages → Nat → Nat → Option (Except Errno Nat × NtfsDevice m pages)
  | [], _, dev, total, count => if count = 0 then some (.ok total, dev) else none
  | r :: rs, ofs, dev, total, count =>
    if count = 0 then some (.ok total, dev)
    else if r.length = 0 then some (rlErrOut total .eio, dev)
    else
      let toWrite := share clusterSizeBits r ofs count
      if r.lcn < 0 then
        if r.lcn ≠ lcnHole then some (rlErrOut total .eio, dev)
        else scatter readOnly b rs 0 dev (total + toWrite) (count - toWrite)
      else
        (if readOnly = false then
          ntfsPwrite io memory dev (r.lcn * 2 ^ clusterSizeBits + ofs) toWrite
            fun i => b (total + i)
        else some (((toWrite : Int), none), dev)).bind fun p =>
          let written := p.1.1
          if written > 0 then
            scatter readOnly b rs 0 p.2 (total + written.toNat) (count - written.toNat)
          else if written = -1 then some (rlErrOut total (p.1.2.getD .eio), p.2)
          else some (rlErrOut total .eio, p.2)

/-- `ntfs_rl_pwrite`, with whether the volume is mounted read-only. -/
def ntfsRlPwrite (readOnly : Bool) (dev : NtfsDevice m pages) (rl : List RunlistElement)
    (ofs pos count : Int) (b : Nat → UInt8) :
    Option (Except Errno Nat × NtfsDevice m pages) :=
  if rl = [] ∨ pos < 0 ∨ count < 0 then some (.error .einval, dev)
  else if count = 0 then some (.ok 0, dev)
  else
    (seekRun clusterSizeBits pos rl ofs).bind fun p =>
      scatter io memory clusterSizeBits readOnly b p.1 (pos - p.2) dev 0 count.toNat

end Transfers

/-! ## Where the bytes are -/

/-- Where a byte is on the device; a byte of a hole is nowhere. -/
def place (clusterSizeBits : Nat) (rs : List RunlistElement) (p : Int) : Option Int :=
  match lcnAt (p / 2 ^ clusterSizeBits) rs with
  | some l => if l < 0 then none else some (l * 2 ^ clusterSizeBits + p % 2 ^ clusterSizeBits)
  | none => none

/-- What is read from there. -/
def readByte (f : Nat → UInt8) : Option Int → UInt8
  | none => 0
  | some a => f a.toNat

/-- The runs are holes or lie in a device of so many bytes. -/
def Inside (clusterSizeBits : Nat) (rs : List RunlistElement) (size : Nat) : Prop :=
  ∀ r ∈ rs, lcnHole ≤ r.lcn ∧ (0 ≤ r.lcn → (r.lcn + r.length) * 2 ^ clusterSizeBits ≤ size)

/-- No place on the device belongs to two clusters. -/
def Apart (rs : List RunlistElement) : Prop :=
  ∀ v w l, lcnAt v rs = some l → lcnAt w rs = some l → 0 ≤ l → v = w

section Places
variable {clusterSizeBits : Nat} {r : RunlistElement} {rs front : List RunlistElement} {p : Int}

theorem size_pos {k : Nat} : (0 : Int) < 2 ^ k := by positivity

theorem cluster_inside (low : r.vcn * 2 ^ clusterSizeBits ≤ p)
    (high : p < (r.vcn + r.length) * 2 ^ clusterSizeBits) :
    r.vcn ≤ p / 2 ^ clusterSizeBits ∧ p / 2 ^ clusterSizeBits < r.vcn + r.length :=
  ⟨(Int.le_ediv_iff_mul_le size_pos).mpr low, (Int.ediv_lt_iff_lt_mul size_pos).mpr high⟩

/-- The bytes of a run follow each other on the device. -/
theorem place_run (low : r.vcn * 2 ^ clusterSizeBits ≤ p)
    (high : p < (r.vcn + r.length) * 2 ^ clusterSizeBits) :
    place clusterSizeBits (r :: rs) p =
      if r.lcn < 0 then none
      else some (r.lcn * 2 ^ clusterSizeBits + (p - r.vcn * 2 ^ clusterSizeBits)) := by
  have inside := cluster_inside low high
  have division := Int.mul_ediv_add_emod p (2 ^ clusterSizeBits)
  rw [place, lcnAt, if_pos inside]
  dsimp only
  by_cases hole : r.lcn < 0
  · have own : r.lcnOf (p / 2 ^ clusterSizeBits) = r.lcn := if_neg (by omega)
    rw [own, if_pos hole, if_pos hole]
  · have own : r.lcnOf (p / 2 ^ clusterSizeBits) = r.lcn + (p / 2 ^ clusterSizeBits - r.vcn) :=
      if_pos (by omega)
    rw [own, if_neg hole, if_neg (by omega)]
    refine congrArg some ?_
    rw [Int.add_mul, Int.sub_mul]
    rw [Int.mul_comm] at division
    omega

/-- Behind a run its bytes do not matter. -/
theorem place_behind {start mid : Int} (tiles : Tiles start front mid)
    (behind : mid * 2 ^ clusterSizeBits ≤ p) :
    place clusterSizeBits (front ++ rs) p = place clusterSizeBits rs p := by
  have past := (Int.le_ediv_iff_mul_le (size_pos (k := clusterSizeBits))).mpr behind
  rw [place, lcnAt_append, (lcnAt_eq_none tiles).mpr (Or.inr past), Option.none_or, place]

/-- Bytes of clusters that are apart are apart. -/
theorem place_inj (apart : Apart rs) {q a : Int} (first : place clusterSizeBits rs p = some a)
    (second : place clusterSizeBits rs q = some a) : p = q := by
  have positive := size_pos (k := clusterSizeBits)
  rw [place] at first second
  split at first
  · rename_i l own
    split at second
    · rename_i l' own'
      split at first
      · cases first
      · split at second
        · cases second
        · have restP := Int.emod_nonneg p positive.ne'
          have restQ := Int.emod_nonneg q positive.ne'
          have lessP := Int.emod_lt_of_pos p positive
          have lessQ := Int.emod_lt_of_pos q positive
          have same : l * 2 ^ clusterSizeBits + p % 2 ^ clusterSizeBits =
              l' * 2 ^ clusterSizeBits + q % 2 ^ clusterSizeBits :=
            (Option.some.inj first).trans (Option.some.inj second).symm
          have quotient : l = l' := by
            have left := Int.add_mul_ediv_right (p % 2 ^ clusterSizeBits) l positive.ne'
            have right := Int.add_mul_ediv_right (q % 2 ^ clusterSizeBits) l' positive.ne'
            rw [Int.ediv_eq_zero_of_lt restP lessP, Int.zero_add, Int.add_comm] at left
            rw [Int.ediv_eq_zero_of_lt restQ lessQ, Int.zero_add, Int.add_comm] at right
            rw [← left, ← right, same]
          rw [← quotient] at same own'
          have cluster := apart _ _ l own own' (by omega)
          have divisionP := Int.mul_ediv_add_emod p (2 ^ clusterSizeBits)
          have divisionQ := Int.mul_ediv_add_emod q (2 ^ clusterSizeBits)
          rw [← cluster] at divisionQ
          omega
    · cases second
  · cases first

/-- A place in the device is a number of bytes from its start. -/
theorem place_nat {a : Int} (here : place clusterSizeBits rs p = some a) : ∃ k : Nat, a = k := by
  rw [place] at here
  split at here
  · rename_i l own
    split at here
    · cases here
    · rename_i known
      have rest := Int.emod_nonneg p (size_pos (k := clusterSizeBits)).ne'
      have whole := Int.mul_nonneg (not_lt.mp known)
        (size_pos (k := clusterSizeBits)).le
      rw [← Option.some.inj here]
      exact ⟨_, (Int.toNat_of_nonneg (by omega)).symm⟩
  · cases here

end Places

/-! ## The run of a position -/

section Seeks
variable {clusterSizeBits : Nat}

theorem seekRun_spec {rs : List RunlistElement} {t : RunlistElement} {start pos : Int}
    (tiles : Tiles start rs t.vcn) (low : start * 2 ^ clusterSizeBits ≤ pos)
    (high : pos < t.vcn * 2 ^ clusterSizeBits) (stale : List RunlistElement) :
    ∃ front r rest, rs = front ++ r :: rest ∧ Tiles start front r.vcn ∧
      Tiles r.vcn (r :: rest) t.vcn ∧
      seekRun clusterSizeBits pos (rs ++ t :: stale) (start * 2 ^ clusterSizeBits) =
        some (r :: rest ++ t :: stale, r.vcn * 2 ^ clusterSizeBits) ∧
      r.vcn * 2 ^ clusterSizeBits ≤ pos ∧ pos < (r.vcn + r.length) * 2 ^ clusterSizeBits := by
  induction rs generalizing start with
  | nil =>
    have same : start = t.vcn := tiles
    rw [same] at low
    omega
  | cons r rs ih =>
    obtain ⟨first, positive, behind⟩ := tiles
    by_cases past : start * 2 ^ clusterSizeBits + r.length * 2 ^ clusterSizeBits ≤ pos
    · obtain ⟨front, r', rest, parts, before, left, sought, inside⟩ :=
        ih behind (by rw [Int.add_mul]; exact past)
      refine ⟨r :: front, r', rest, by rw [parts, List.cons_append],
        ⟨first, positive, before⟩, left, ?_, inside⟩
      rw [List.cons_append, seekRun, if_pos ⟨by omega, past⟩, ← Int.add_mul]
      exact sought
    · refine ⟨[], r, rs, rfl, first.symm, ⟨rfl, positive, first ▸ behind⟩, ?_, ?_, ?_⟩
      · rw [List.cons_append, seekRun, if_neg (fun both => past both.2), first]
      · rw [first]
        exact low
      · rw [first, Int.add_mul]
        omega

end Seeks

/-! ## Gathering and scattering -/

section Device
variable [NeZero m] [NeZero pages] {io : DiscInterface (Sector m)} {start stop : Nat}
  {d : Nat → Sector m} {clusterSizeBits : Nat} {t : RunlistElement}

/-- What a run can take of the bytes from one of its own on. -/
theorem share_spec {r : RunlistElement} {p : Int} {count : Nat} (some' : 0 < count)
    (high : p < (r.vcn + r.length) * 2 ^ clusterSizeBits) :
    let n := share clusterSizeBits r (p - r.vcn * 2 ^ clusterSizeBits) count
    0 < n ∧ n ≤ count ∧ p + n ≤ (r.vcn + r.length) * 2 ^ clusterSizeBits ∧
      (n = count ∨ p + n = (r.vcn + r.length) * 2 ^ clusterSizeBits) := by
  dsimp only
  rw [share]
  rw [Int.add_mul] at *
  omega

/-- Elements behind a place start there. -/
theorem head_starts {rs : List RunlistElement} {first last : Int} (tiles : Tiles first rs last) :
    ∀ r ∈ rs.head?, first * 2 ^ clusterSizeBits < (r.vcn + r.length) * 2 ^ clusterSizeBits := by
  intro r among
  cases rs with
  | nil => cases among
  | cons r' rs =>
    obtain ⟨place, more, -⟩ := tiles
    have wide := Int.mul_pos more (size_pos (k := clusterSizeBits))
    rw [← Option.some.inj among, place, Int.add_mul]
    omega

theorem gather_done (rl : List RunlistElement) (memory : Nat → UInt8) (ofs : Int)
    (dev : NtfsDevice m pages) (total : Nat) (b : Nat → UInt8) :
    gather io memory clusterSizeBits rl ofs dev total 0 b = some (.ok total, b, dev) := by
  cases rl with
  | nil => rfl
  | cons r rs => exact if_pos rfl

/-- The bytes of a run lie in the device, where it is no hole. -/
theorem run_place {r : RunlistElement} {size n : Nat} {p : Int}
    (fits : (r.lcn + r.length) * 2 ^ clusterSizeBits ≤ size) (known : 0 ≤ r.lcn)
    (low : r.vcn * 2 ^ clusterSizeBits ≤ p)
    (high : p + n ≤ (r.vcn + r.length) * 2 ^ clusterSizeBits) :
    ∃ a : Nat, r.lcn * 2 ^ clusterSizeBits + (p - r.vcn * 2 ^ clusterSizeBits) = a ∧
      a + n ≤ size := by
  have first := Int.mul_nonneg known (size_pos (k := clusterSizeBits)).le
  rw [Int.add_mul] at fits high
  refine ⟨(r.lcn * 2 ^ clusterSizeBits + (p - r.vcn * 2 ^ clusterSizeBits)).toNat, ?_, ?_⟩
  · omega
  · omega

/-- The bytes from a position on are gathered one run after the other. -/
theorem gather_spec (keeps : KeepsBuffers io) (memory : Nat → UInt8)
    {rs : List RunlistElement} {v p : Int} {dev : NtfsDevice m pages} (total : Nat) {count : Nat}
    {b : Nat → UInt8} (plugged : Plugged start stop d dev) (tiles : Tiles v rs t.vcn)
    (inside : Inside clusterSizeBits rs ((stop - start) * m))
    (low : v * 2 ^ clusterSizeBits ≤ p)
    (first : ∀ r ∈ rs.head?, p < (r.vcn + r.length) * 2 ^ clusterSizeBits)
    (high : p + count ≤ t.vcn * 2 ^ clusterSizeBits) (stale : List RunlistElement) :
    ∃ answer b' store, gather io memory clusterSizeBits (rs ++ t :: stale)
        (p - v * 2 ^ clusterSizeBits) dev total count b =
        some (answer, b', { dev with store := store }) ∧
      Plugged start stop d { dev with store := store } ∧
      contents { dev with store := store } = contents dev ∧
      (∃ l ≤ count, b' = fill b total l
          (fun i => readByte (contents dev) (place clusterSizeBits rs (p + i))) ∧
        (answer = .ok (total + count) ∧ l = count ∨
          ∃ k ≤ l, answer = rlErrOut (total + k) .eio)) ∧
      (Works io → answer = .ok (total + count)) := by
  by_cases none' : count = 0
  · rw [none', gather_done]
    refine ⟨_, _, dev.store, rfl, plugged, rfl, ⟨0, le_rfl, ?_, Or.inl ⟨rfl, rfl⟩⟩, fun _ => rfl⟩
    rw [fill_zero]
  induction rs generalizing v p dev total count b with
  | nil =>
    have same : v = t.vcn := tiles
    rw [same] at low
    omega
  | cons r rs ih =>
    obtain ⟨rfl, positive, behind⟩ := tiles
    obtain ⟨some', few, early, ends⟩ :=
      share_spec (Nat.pos_of_ne_zero none') (first r rfl)
    set n := share clusterSizeBits r (p - r.vcn * 2 ^ clusterSizeBits) count with own
    clear_value n
    obtain ⟨mapped, fits⟩ := inside r List.mem_cons_self
    -- the bytes of this run, and the bytes of the runs behind it
    have near (i : Nat) (less : i < n) : place clusterSizeBits (r :: rs) (p + i) =
        if r.lcn < 0 then none
        else some (r.lcn * 2 ^ clusterSizeBits + (p + i - r.vcn * 2 ^ clusterSizeBits)) :=
      place_run (by omega) (by omega)
    have one : Tiles r.vcn [r] (r.vcn + r.length) := ⟨rfl, positive, rfl⟩
    have far (i : Nat) (all : n ≠ count) : place clusterSizeBits (r :: rs) (p + (n + i : Nat)) =
        place clusterSizeBits rs (p + n + i) := by
      rw [Nat.cast_add, ← Int.add_assoc]
      exact place_behind one (by omega)
    -- what the loop makes of the runs behind this one
    have next {dev' : NtfsDevice m pages} (plugged' : Plugged start stop d dev')
        (same : contents dev' = contents dev) {b₁ : Nat → UInt8}
        (filled : b₁ = fill b total n
          (fun i => readByte (contents dev) (place clusterSizeBits (r :: rs) (p + i)))) :
        ∃ answer b' store, gather io memory clusterSizeBits (rs ++ t :: stale) 0 dev'
            (total + n) (count - n) b₁ = some (answer, b', { dev' with store := store }) ∧
          Plugged start stop d { dev' with store := store } ∧
          contents { dev' with store := store } = contents dev ∧
          (∃ l ≤ count, b' = fill b total l
              (fun i => readByte (contents dev) (place clusterSizeBits (r :: rs) (p + i))) ∧
            (answer = .ok (total + count) ∧ l = count ∨
              ∃ k ≤ l, answer = rlErrOut (total + k) .eio)) ∧
          (Works io → answer = .ok (total + count)) := by
      by_cases all : n = count
      · rw [all, Nat.sub_self, gather_done]
        exact ⟨_, _, dev'.store, rfl, plugged', same, ⟨count, le_rfl, all ▸ filled,
          Or.inl ⟨rfl, rfl⟩⟩, fun _ => rfl⟩
      · have edge : p + n = (r.vcn + r.length) * 2 ^ clusterSizeBits := ends.resolve_left all
        have start' : p + n - (r.vcn + r.length) * 2 ^ clusterSizeBits = 0 := by omega
        have sum : total + n + (count - n) = total + count := by omega
        have first' : ∀ r' ∈ rs.head?, p + n < (r'.vcn + r'.length) * 2 ^ clusterSizeBits := by
          rw [edge]
          exact head_starts behind
        obtain ⟨answer, b', store, ran, plugged'', same', ⟨l, le, moved, answers⟩, works⟩ :=
          @ih (r.vcn + r.length) (p + n) dev' (total + n) (count - n) b₁ plugged' behind
            (fun r' among => inside r' (List.mem_cons_of_mem r among)) edge.ge first' (by omega)
            (by omega)
        rw [start'] at ran
        refine ⟨answer, b', store, ran, plugged'', same'.trans same,
          ⟨n + l, by omega, ?_, ?_⟩, fun calm => ?_⟩
        · rw [moved, filled, same, ← fill_append]
          refine fill_congr _ _ fun i _ => ?_
          rw [far i all]
        · rcases answers with ⟨ok, whole⟩ | ⟨k, less, failed⟩
          · exact Or.inl ⟨ok.trans (congrArg Except.ok sum), by omega⟩
          · exact Or.inr ⟨n + k, by omega, by rw [failed, Nat.add_assoc]⟩
        · exact (works calm).trans (congrArg Except.ok sum)
    rw [List.cons_append, gather, if_neg none', if_neg positive.ne']
    dsimp only
    rw [← own]
    by_cases hole : r.lcn < 0
    · have exact' : r.lcn = lcnHole := by
        have code : lcnHole = -1 := rfl
        omega
      rw [if_pos hole, if_neg (not_not.mpr exact')]
      refine next plugged rfl (fill_congr _ _ fun i less => ?_)
      rw [near i less, if_pos hole]
      rfl
    · obtain ⟨a, at', room⟩ := run_place (n := n) (fits (by omega)) (by omega) low (by omega)
      obtain ⟨answer, b', store, ran, plugged', same, -, ⟨l, le, moved, answers⟩, works⟩ :=
        ntfsPread_spec plugged keeps memory room fun i => b (total + i)
      have bytes (k : Nat) (less : k ≤ n) :
          fill b total k (fun i => contents dev (a + i)) = fill b total k
            (fun i => readByte (contents dev) (place clusterSizeBits (r :: rs) (p + i))) := by
        refine fill_congr _ _ fun i early => ?_
        have target : r.lcn * 2 ^ clusterSizeBits + (p + i - r.vcn * 2 ^ clusterSizeBits) =
            ((a + i : Nat) : Int) := by omega
        rw [near i (by omega), if_neg hole, target]
        rfl
      have whole : fill b total n b' = fill b total l (fun i => contents dev (a + i)) := by
        rw [moved]
        funext i
        unfold fill
        by_cases inner : total ≤ i ∧ i < total + n
        · rw [if_pos inner]
          by_cases read : i < total + l
          · rw [if_pos (by omega), if_pos (by omega), Nat.sub_zero]
          · rw [if_neg (by omega), if_neg (by omega)]
            exact congrArg b (Nat.add_sub_cancel' inner.1)
        · rw [if_neg inner, if_neg (by omega)]
      rw [if_neg hole, at', ran, Option.bind_some]
      dsimp only
      rw [whole]
      rcases answers with ⟨rfl, all⟩ | rfl
      · dsimp only
        rw [if_pos some', all, bytes n le_rfl]
        exact next plugged' same rfl
      · refine ⟨_, _, store, rfl, plugged', same, ⟨l, by omega, bytes l le,
          Or.inr ⟨0, Nat.zero_le l, rfl⟩⟩, fun calm => ?_⟩
        cases works calm

theorem scatter_done (rl : List RunlistElement) (memory : Nat → UInt8) (readOnly : Bool)
    (b : Nat → UInt8) (ofs : Int) (dev : NtfsDevice m pages) (total : Nat) :
    scatter io memory clusterSizeBits readOnly b rl ofs dev total 0 = some (.ok total, dev) := by
  cases rl with
  | nil => rfl
  | cons r rs => exact if_pos rfl

/-- Clusters behind some elements are apart as all of them are. -/
theorem Apart.behind {front rs : List RunlistElement} {v mid stop : Int}
    (apart : Apart (front ++ rs)) (before : Tiles v front mid) (tiles : Tiles mid rs stop) :
    Apart rs := by
  have whole {w l : Int} (own : lcnAt w rs = some l) : lcnAt w (front ++ rs) = some l := by
    have later : mid ≤ w := by
      by_contra early
      rw [(lcnAt_eq_none tiles).mpr (Or.inl (not_le.mp early))] at own
      cases own
    rw [lcnAt_append, (lcnAt_eq_none before).mpr (Or.inr later), Option.none_or, own]
  exact fun w w' l first second known => apart w w' l (whole first) (whole second) known

/-- The bytes from a position on are scattered one run after the other. -/
theorem scatter_spec (works : Works io) (memory : Nat → UInt8) {rs : List RunlistElement}
    {v p : Int} {dev : NtfsDevice m pages} (total : Nat) {count : Nat} (b : Nat → UInt8)
    (plugged : Plugged start stop d dev) (writable : dev.readOnly = false)
    (unsynced : dev.sync = false) (tiles : Tiles v rs t.vcn)
    (inside : Inside clusterSizeBits rs ((stop - start) * m)) (apart : Apart rs)
    (low : v * 2 ^ clusterSizeBits ≤ p)
    (first : ∀ r ∈ rs.head?, p < (r.vcn + r.length) * 2 ^ clusterSizeBits)
    (high : p + count ≤ t.vcn * 2 ^ clusterSizeBits) (stale : List RunlistElement) :
    ∃ dirty store, scatter io memory clusterSizeBits false b (rs ++ t :: stale)
        (p - v * 2 ^ clusterSizeBits) dev total count =
        some (.ok (total + count), { dev with dirty := dirty, store := store }) ∧
      Plugged start stop d { dev with dirty := dirty, store := store } ∧
      (∀ i < count, ∀ a : Nat, place clusterSizeBits rs (p + i) = some (a : Int) →
        contents { dev with store := store } a = b (total + i)) ∧
      ∀ a : Nat, (∀ i < count, place clusterSizeBits rs (p + i) ≠ some (a : Int)) →
        contents { dev with store := store } a = contents dev a := by
  by_cases none' : count = 0
  · rw [none', scatter_done]
    exact ⟨dev.dirty, dev.store, rfl, plugged, fun i wrong => absurd wrong (Nat.not_lt_zero i),
      fun a _ => rfl⟩
  induction rs generalizing v p dev total count with
  | nil =>
    have same : v = t.vcn := tiles
    rw [same] at low
    omega
  | cons r rs ih =>
    obtain ⟨rfl, positive, behind⟩ := tiles
    obtain ⟨some', few, early, ends⟩ :=
      share_spec (Nat.pos_of_ne_zero none') (first r rfl)
    set n := share clusterSizeBits r (p - r.vcn * 2 ^ clusterSizeBits) count with own
    clear_value n
    obtain ⟨mapped, fits⟩ := inside r List.mem_cons_self
    have near (i : Nat) (less : i < n) : place clusterSizeBits (r :: rs) (p + i) =
        if r.lcn < 0 then none
        else some (r.lcn * 2 ^ clusterSizeBits + (p + i - r.vcn * 2 ^ clusterSizeBits)) :=
      place_run (by omega) (by omega)
    have one : Tiles r.vcn [r] (r.vcn + r.length) := ⟨rfl, positive, rfl⟩
    have far (i : Nat) (all : n ≠ count) : place clusterSizeBits (r :: rs) (p + (n + i : Nat)) =
        place clusterSizeBits rs (p + n + i) := by
      rw [Nat.cast_add, ← Int.add_assoc]
      exact place_behind one (by omega)
    -- what the loop makes of the runs behind this one
    have next {dev' : NtfsDevice m pages} (plugged' : Plugged start stop d dev')
        (writable' : dev'.readOnly = false) (unsynced' : dev'.sync = false)
        (stored : ∀ i < n, ∀ a : Nat, place clusterSizeBits (r :: rs) (p + i) = some (a : Int) →
          contents dev' a = b (total + i))
        (spared : ∀ a : Nat,
          (∀ i < n, place clusterSizeBits (r :: rs) (p + i) ≠ some (a : Int)) →
            contents dev' a = contents dev a) :
        ∃ dirty store, scatter io memory clusterSizeBits false b (rs ++ t :: stale) 0 dev'
            (total + n) (count - n) =
            some (.ok (total + count), { dev' with dirty := dirty, store := store }) ∧
          Plugged start stop d { dev' with dirty := dirty, store := store } ∧
          (∀ i < count, ∀ a : Nat, place clusterSizeBits (r :: rs) (p + i) = some (a : Int) →
            contents { dev' with store := store } a = b (total + i)) ∧
          ∀ a : Nat,
            (∀ i < count, place clusterSizeBits (r :: rs) (p + i) ≠ some (a : Int)) →
              contents { dev' with store := store } a = contents dev a := by
      by_cases all : n = count
      · rw [all, Nat.sub_self, scatter_done]
        rw [all] at stored spared
        exact ⟨dev'.dirty, dev'.store, rfl, plugged', stored, spared⟩
      · have edge : p + n = (r.vcn + r.length) * 2 ^ clusterSizeBits := ends.resolve_left all
        have start' : p + n - (r.vcn + r.length) * 2 ^ clusterSizeBits = 0 := by omega
        have sum : total + n + (count - n) = total + count := by omega
        have first' : ∀ r' ∈ rs.head?, p + n < (r'.vcn + r'.length) * 2 ^ clusterSizeBits := by
          rw [edge]
          exact head_starts behind
        obtain ⟨dirty, store, ran, plugged'', stored', spared'⟩ :=
          @ih (r.vcn + r.length) (p + n) dev' (total + n) (count - n) plugged' writable'
            unsynced' behind (fun r' among => inside r' (List.mem_cons_of_mem r among))
            (Apart.behind (show Apart ([r] ++ rs) from apart) one behind) edge.ge first'
            (by omega) (by omega)
        rw [start'] at ran
        rw [sum] at ran
        refine ⟨dirty, store, ran, plugged'', fun i less a here => ?_, fun a away => ?_⟩
        · by_cases inner : i < n
          · rw [spared' a fun j _ there => ?_]
            · exact stored i inner a here
            · rw [← far j all] at there
              have same := place_inj apart here there
              omega
          · obtain ⟨j, rfl⟩ := Nat.exists_eq_add_of_le (not_lt.mp inner)
            rw [far j all] at here
            rw [stored' j (by omega) a here, Nat.add_assoc]
        · rw [spared' a fun j less there => ?_]
          · exact spared a fun i less => away i (by omega)
          · exact away (n + j) (by omega) ((far j all).trans there)
    rw [List.cons_append, scatter, if_neg none', if_neg positive.ne']
    dsimp only
    rw [← own]
    by_cases hole : r.lcn < 0
    · have exact' : r.lcn = lcnHole := by
        have code : lcnHole = -1 := rfl
        omega
      rw [if_pos hole, if_neg (not_not.mpr exact')]
      refine next plugged writable unsynced (fun i less a here => ?_) fun a _ => rfl
      rw [near i less, if_pos hole] at here
      cases here
    · obtain ⟨a, at', room⟩ := run_place (n := n) (fits (by omega)) (by omega) low (by omega)
      obtain ⟨answer, dirty, store, ran, -, -, plugged', answers, calm⟩ :=
        ntfsPwrite_spec plugged works.keepsBuffers memory writable unsynced room
          fun i => b (total + i)
      have target (i : Nat) (less : i < n) : place clusterSizeBits (r :: rs) (p + i) =
          some ((a + i : Nat) : Int) := by
        rw [near i less, if_neg hole]
        refine congrArg some ?_
        omega
      have ok := calm works
      rw [ok] at ran answers
      have moved := (answers.resolve_right fun wrong => by cases wrong.1).2
      rw [if_neg hole, at', if_pos rfl, ran, Option.bind_some]
      have more : (returned (Except.ok n)).1 > 0 := Int.natCast_pos.mpr some'
      have value : (returned (Except.ok n)).1.toNat = n := Int.toNat_natCast n
      dsimp only
      rw [if_pos more, value]
      refine next plugged' writable unsynced (fun i less a' here => ?_) fun a' away => ?_
      · rw [target i less] at here
        have same : a + i = a' := Int.ofNat.inj (Option.some.inj here)
        rw [← same]
        exact (congrFun moved (a + i)).trans (fill_inside _ _ less)
      · refine (congrFun moved a').trans (fill_outside _ _ ?_)
        by_contra within
        refine away (a' - a) (by omega) ?_
        rw [target _ (by omega)]
        refine congrArg some ?_
        omega

/-! ## Whole transfers -/

/-- A read gives the bytes at their places and zeros for holes, as far as it comes. -/
theorem ntfsRlPread_spec (keeps : KeepsBuffers io) (memory : Nat → UInt8)
    {rs : List RunlistElement} {dev : NtfsDevice m pages} (plugged : Plugged start stop d dev)
    (tiles : Tiles 0 rs t.vcn) (inside : Inside clusterSizeBits rs ((stop - start) * m))
    {pos count : Nat} (high : (pos : Int) + count ≤ t.vcn * 2 ^ clusterSizeBits)
    (stale : List RunlistElement) (b : Nat → UInt8) :
    ∃ answer b' store, ntfsRlPread io memory clusterSizeBits dev (rs ++ t :: stale) pos count b =
        some (answer, b', { dev with store := store }) ∧
      Plugged start stop d { dev with store := store } ∧
      contents { dev with store := store } = contents dev ∧
      (∃ l ≤ count, b' = fill b 0 l
          (fun i => readByte (contents dev) (place clusterSizeBits rs (pos + i))) ∧
        (answer = .ok count ∧ l = count ∨ ∃ k ≤ l, answer = rlErrOut k .eio)) ∧
      (Works io → answer = .ok count) := by
  rw [ntfsRlPread, if_neg (by simp)]
  by_cases none' : count = 0
  · rw [none', if_pos (show ((0 : Nat) : Int) = 0 from rfl)]
    refine ⟨_, _, dev.store, rfl, plugged, rfl, ⟨0, le_rfl, ?_, Or.inl ⟨rfl, rfl⟩⟩, fun _ => rfl⟩
    rw [fill_zero]
  · obtain ⟨front, r, rest, rfl, before, left, sought, low, first⟩ :=
      seekRun_spec tiles (show (0 : Int) * 2 ^ clusterSizeBits ≤ pos by omega)
        (show (pos : Int) < t.vcn * 2 ^ clusterSizeBits by omega) stale
    rw [Int.zero_mul] at sought
    rw [if_neg (by omega), sought, Option.bind_some, Int.toNat_natCast]
    obtain ⟨answer, b', store, ran, plugged', same, ⟨l, le, moved, answers⟩, works⟩ :=
      gather_spec keeps memory 0 (b := b) plugged left
        (fun r' among => inside r' (List.mem_append_right front among)) low
        (fun r' among => Option.some.inj among ▸ first) high stale
    simp only [Nat.zero_add] at answers works
    refine ⟨answer, b', store, ran, plugged', same, ⟨l, le, moved.trans ?_, answers⟩, works⟩
    refine fill_congr _ _ fun i _ => ?_
    rw [place_behind before (by omega)]

/-- A write over a device that works changes the bytes at their places and no others. -/
theorem ntfsRlPwrite_spec (works : Works io) (memory : Nat → UInt8) {rs : List RunlistElement}
    {dev : NtfsDevice m pages} (plugged : Plugged start stop d dev)
    (writable : dev.readOnly = false) (unsynced : dev.sync = false) (tiles : Tiles 0 rs t.vcn)
    (inside : Inside clusterSizeBits rs ((stop - start) * m)) (apart : Apart rs)
    {pos count : Nat} (high : (pos : Int) + count ≤ t.vcn * 2 ^ clusterSizeBits)
    (stale : List RunlistElement) (b : Nat → UInt8) :
    ∃ dirty store, ntfsRlPwrite io memory clusterSizeBits false dev (rs ++ t :: stale) 0 pos
        count b = some (.ok count, { dev with dirty := dirty, store := store }) ∧
      Plugged start stop d { dev with dirty := dirty, store := store } ∧
      (∀ i < count, ∀ a : Nat, place clusterSizeBits rs (pos + i) = some (a : Int) →
        contents { dev with store := store } a = b i) ∧
      ∀ a : Nat, (∀ i < count, place clusterSizeBits rs (pos + i) ≠ some (a : Int)) →
        contents { dev with store := store } a = contents dev a := by
  rw [ntfsRlPwrite, if_neg (by simp)]
  by_cases none' : count = 0
  · rw [none', if_pos (show ((0 : Nat) : Int) = 0 from rfl)]
    exact ⟨dev.dirty, dev.store, rfl, plugged, fun i wrong => absurd wrong (Nat.not_lt_zero i),
      fun a _ => rfl⟩
  · obtain ⟨front, r, rest, rfl, before, left, sought, low, first⟩ :=
      seekRun_spec tiles (show (0 : Int) * 2 ^ clusterSizeBits ≤ pos by omega)
        (show (pos : Int) < t.vcn * 2 ^ clusterSizeBits by omega) stale
    rw [Int.zero_mul] at sought
    rw [if_neg (by omega), sought, Option.bind_some, Int.toNat_natCast]
    obtain ⟨dirty, store, ran, plugged', stored, spared⟩ :=
      scatter_spec works memory 0 b plugged writable unsynced left
        (fun r' among => inside r' (List.mem_append_right front among))
        (Apart.behind apart before left) low (fun r' among => Option.some.inj among ▸ first)
        high stale
    have same (i : Nat) : place clusterSizeBits (front ++ r :: rest) (pos + i) =
        place clusterSizeBits (r :: rest) (pos + i) := place_behind before (by omega)
    simp only [Nat.zero_add] at ran stored
    simp only [same]
    exact ⟨dirty, store, ran, plugged', stored, spared⟩

end Device

end RunlistBytes
