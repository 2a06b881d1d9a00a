import NtfsIsoMounter.SectorCache
import NtfsIsoMounter.TurnRuns

/-!
# The sector cache shows one volume

What is seen through the cache is the volume: the sectors of its pages, and those of the disc where
there is no page. The cache is coherent as long as its pages are those of the partition, no page is
there twice, and a page that has not been changed agrees with the disc. No operation but a write
changes the volume, whatever becomes of the calls of the disc, as long as a read of the disc that
fails does not fill a buffer in part.
-/

namespace SectorCoherence

open ByteMaps SectionTables PageOverlays SectorCache TurnRuns

universe u
variable {σ : Type u} {n : Nat}

/-- The sectors as they are seen through the cache. -/
def volume (c : Cache σ n) : Nat → σ := view Entry.holds Entry.cell c.disc.sectors c.entries

/-- A page as `_NTFS_cache_getPage` cuts them: aligned in the partition, and shorter at its end. -/
structure IsPage (start stop perPage : Nat) (e : Entry σ) : Prop where
  aligned : ∃ q, e.sector = start + q * perPage
  inside : e.sector < stop
  count : e.count = min perPage (stop - e.sector)

structure Coherent (c : Cache σ n) : Prop where
  positive : 0 < c.sectorsPerPage
  room : c.endOfPartition + c.sectorsPerPage < 2 ^ 32
  page : ∀ k, (c.entries k).sector ≠ cacheFree →
    IsPage c.startOfPartition c.endOfPartition c.sectorsPerPage (c.entries k)
  free : ∀ k, (c.entries k).sector = cacheFree →
    (c.entries k).count = 0 ∧ (c.entries k).dirty = false
  unique : ∀ j k, (c.entries j).sector ≠ cacheFree →
    (c.entries j).sector = (c.entries k).sector → j = k
  clean : ∀ k, (c.entries k).dirty = false → ∀ i < (c.entries k).count,
    (c.entries k).cache i = c.disc.sectors ((c.entries k).sector + i)

/-! ## Pages of the partition -/

section Base
variable {c : Cache σ n} (positive : 0 < c.sectorsPerPage)
include positive

theorem base_bounds {s : Nat} (low : c.startOfPartition ≤ s) :
    c.startOfPartition ≤ c.base s ∧ c.base s ≤ s ∧ s < c.base s + c.sectorsPerPage := by
  have division := Nat.div_add_mod (s - c.startOfPartition) c.sectorsPerPage
  have rest := Nat.mod_lt (s - c.startOfPartition) positive
  rw [Nat.mul_comm] at division
  rw [Cache.base]
  omega

/-- The page of a sector is the aligned one around it. -/
theorem base_eq_iff {s q : Nat} (low : c.startOfPartition ≤ s) :
    c.startOfPartition + q * c.sectorsPerPage = c.base s ↔
      c.startOfPartition + q * c.sectorsPerPage ≤ s ∧
        s < c.startOfPartition + q * c.sectorsPerPage + c.sectorsPerPage := by
  constructor
  · intro same
    rw [same]
    exact (base_bounds positive low).2
  · rintro ⟨lower, upper⟩
    have quotient : (s - c.startOfPartition) / c.sectorsPerPage = q := by
      refine Nat.div_eq_of_lt_le (by omega) ?_
      rw [Nat.succ_mul]
      omega
    rw [Cache.base, quotient]

end Base

namespace Coherent
variable {c : Cache σ n} (coherent : Coherent c)
include coherent

/-- A page holds the sectors of the partition that belong to it. -/
theorem holds_iff {k : Fin n} {s : Nat} : (c.entries k).holds s = true ↔
    (c.startOfPartition ≤ s ∧ s < c.endOfPartition) ∧ (c.entries k).sector = c.base s := by
  have room := coherent.room
  have positive := coherent.positive
  rw [Entry.holds, Bool.and_eq_true, decide_eq_true_iff, decide_eq_true_iff]
  by_cases free : (c.entries k).sector = cacheFree
  · have empty := (coherent.free k free).1
    rw [empty, free, Nat.add_zero, u32_exact (show cacheFree < 2 ^ 32 by decide)]
    constructor
    · rintro ⟨low, high⟩
      exact absurd high (not_lt.mpr low)
    · rintro ⟨⟨low, high⟩, same⟩
      have bounds := base_bounds positive low
      have value : cacheFree = 4294967295 := rfl
      omega
  · obtain ⟨⟨q, aligned⟩, inside, count⟩ := coherent.page k free
    rw [u32_exact (show (c.entries k).sector + (c.entries k).count < 2 ^ 32 by omega), count]
    constructor
    · rintro ⟨low, high⟩
      have start : c.startOfPartition ≤ s := by omega
      refine ⟨⟨start, by omega⟩, ?_⟩
      rw [aligned, base_eq_iff positive start, ← aligned]
      omega
    · rintro ⟨⟨low, high⟩, same⟩
      rw [same]
      have bounds := base_bounds positive low
      omega

theorem occupied {k : Fin n} {s : Nat} (held : (c.entries k).holds s = true) :
    (c.entries k).sector ≠ cacheFree := by
  intro free
  obtain ⟨⟨low, high⟩, same⟩ := coherent.holds_iff.mp held
  have bounds := base_bounds coherent.positive low
  have room := coherent.room
  have value : cacheFree = 4294967295 := rfl
  omega

/-- The cells of a page that holds a sector reach to that sector. -/
theorem within {k : Fin n} {s : Nat} (held : (c.entries k).holds s = true) :
    (c.entries k).sector ≤ s ∧ s < (c.entries k).sector + (c.entries k).count := by
  obtain ⟨⟨low, high⟩, same⟩ := coherent.holds_iff.mp held
  obtain ⟨-, -, count⟩ := coherent.page k (coherent.occupied held)
  have bounds := base_bounds coherent.positive low
  omega

theorem holds_of_within {k : Fin n} {i : Nat} (inside : i < (c.entries k).count) :
    (c.entries k).holds ((c.entries k).sector + i) = true := by
  have used : (c.entries k).sector ≠ cacheFree := by
    intro free
    have empty := (coherent.free k free).1
    omega
  obtain ⟨-, -, count⟩ := coherent.page k used
  have room := coherent.room
  rw [Entry.holds, Bool.and_eq_true, decide_eq_true_iff, decide_eq_true_iff,
    u32_exact (show (c.entries k).sector + (c.entries k).count < 2 ^ 32 by omega)]
  omega

theorem exclusive : Exclusive Entry.holds c.entries := by
  intro j k i hj hk
  refine coherent.unique j k (coherent.occupied hj) ?_
  rw [(coherent.holds_iff.mp hj).2, (coherent.holds_iff.mp hk).2]

theorem volume_held {k : Fin n} {s : Nat} (held : (c.entries k).holds s = true) :
    volume c s = (c.entries k).cell s := view_held coherent.exclusive held

/-- A page that has not been changed shows what is on the disc. -/
theorem volume_clean {k : Fin n} {s : Nat} (held : (c.entries k).holds s = true)
    (clean : (c.entries k).dirty = false) : volume c s = c.disc.sectors s := by
  obtain ⟨low, high⟩ := coherent.within held
  rw [coherent.volume_held held, Entry.cell, coherent.clean k clean _ (by omega),
    Nat.add_sub_cancel' low]

/-- Outside of the partition the disc itself is seen. -/
theorem volume_outside {s : Nat} (outside : s < c.startOfPartition ∨ c.endOfPartition ≤ s) :
    volume c s = c.disc.sectors s := by
  refine view_bare fun k => Bool.eq_false_iff.mpr fun held => ?_
  have inside := (coherent.holds_iff.mp held).1
  omega

end Coherent

/-! ## Changes that are not seen -/

@[simp] theorem put_self (c : Cache σ n) (k : Fin n) (e : Entry σ) :
    (c.put k e).entries k = e := by
  change Function.update c.entries k e k = e
  rw [Function.update_self]

theorem put_of_ne {c : Cache σ n} {j k : Fin n} (ne : j ≠ k) (e : Entry σ) :
    (c.put k e).entries j = c.entries j := by
  change Function.update c.entries k e j = c.entries j
  rw [Function.update_of_ne ne]

@[simp] theorem access_self (c : Cache σ n) (k : Fin n) :
    (c.access k).entries k = { c.entries k with lastAccess := u32 (c.accessCounter + 1) } :=
  put_self c k _

theorem access_of_ne {c : Cache σ n} {j k : Fin n} (ne : j ≠ k) :
    (c.access k).entries j = c.entries j := put_of_ne ne _

theorem access_holds (c : Cache σ n) (j k : Fin n) (s : Nat) :
    ((c.access k).entries j).holds s = (c.entries j).holds s := by
  by_cases same : j = k
  · rw [same, access_self]
    rfl
  · rw [access_of_ne same]

theorem put_clean {c : Cache σ n} {k : Fin n} {e : Entry σ}
    (clean : e.dirty = true → (c.entries k).dirty = true) (j : Fin n)
    (before : (c.entries j).dirty = false) : ((c.put k e).entries j).dirty = false := by
  by_cases same : j = k
  · rw [same, put_self]
    rw [same] at before
    exact Bool.eq_false_iff.mpr fun dirty => by rw [clean dirty] at before; cases before
  · rw [put_of_ne same]
    exact before

/-- The cache stays coherent and shows the same volume; no page is changed. -/
structure Keeps (c c' : Cache σ n) : Prop where
  coherent : Coherent c'
  start : c'.startOfPartition = c.startOfPartition
  stop : c'.endOfPartition = c.endOfPartition
  volume : volume c' = volume c
  clean : ∀ k, (c.entries k).dirty = false → (c'.entries k).dirty = false

theorem Keeps.trans {c c' c'' : Cache σ n} (keeps : Keeps c c') (keeps' : Keeps c' c'') :
    Keeps c c'' where
  coherent := keeps'.coherent
  start := keeps'.start.trans keeps.start
  stop := keeps'.stop.trans keeps.stop
  volume := keeps'.volume.trans keeps.volume
  clean k before := keeps'.clean k (keeps.clean k before)

namespace Coherent
variable {c : Cache σ n} (coherent : Coherent c)
include coherent

/-- The disc may change behind the pages that have been changed. -/
theorem disc {d : Disc σ} (agree : ∀ i, (∀ k, (c.entries k).holds i = true →
    (c.entries k).dirty = false) → d.sectors i = c.disc.sectors i) :
    Keeps c { c with disc := d } where
  coherent := by
    refine { coherent with clean := fun k clean i inside => ?_ }
    have held := coherent.holds_of_within inside
    have same := agree _ fun j here => (coherent.exclusive j k _ here held) ▸ clean
    exact (coherent.clean k clean i inside).trans same.symm
  start := rfl
  stop := rfl
  volume := by
    funext i
    have base : volume { c with disc := d } i =
        if ∃ k, (c.entries k).holds i = true then volume c i else d.sectors i :=
      view_base coherent.exclusive d.sectors
    rw [base]
    split
    · rfl
    · rename_i bare
      rw [agree i fun k held => absurd ⟨k, held⟩ bare]
      refine (view_bare fun k => Bool.eq_false_iff.mpr fun held => bare ⟨k, held⟩).symm
  clean _ before := before

/-- What is written to the disc is seen where there is no page. -/
theorem store {d : Disc σ} {s m : Nat} {buffer : Nat → σ}
    (bare : ∀ i, s ≤ i → i < s + m → ∀ k, (c.entries k).holds i = false)
    (written : d.sectors = fill c.disc.sectors s m buffer) :
    Coherent { c with disc := d } ∧
      volume { c with disc := d } = fill (volume c) s m buffer := by
  have apart {k : Fin n} {i : Nat} (held : (c.entries k).holds i = true) :
      i < s ∨ s + m ≤ i := by
    by_contra inside
    rw [bare i (by omega) (by omega) k] at held
    exact Bool.false_ne_true held
  refine ⟨{ coherent with clean := fun k clean i inside => ?_ }, funext fun i => ?_⟩
  · have outside := apart (coherent.holds_of_within inside)
    refine (coherent.clean k clean i inside).trans ?_
    change _ = d.sectors _
    rw [written, fill_outside _ _ outside]
  · have base : volume { c with disc := d } i =
        if ∃ k, (c.entries k).holds i = true then volume c i else d.sectors i :=
      view_base coherent.exclusive d.sectors
    rw [base, written]
    split
    · rename_i held
      obtain ⟨k, held⟩ := held
      rw [fill_outside _ _ (apart held)]
    · rename_i nobody
      have seen : volume c i = c.disc.sectors i :=
        view_bare fun k => Bool.eq_false_iff.mpr fun held => nobody ⟨k, held⟩
      rw [fill, fill, seen]

/-- A page is put in the place of another one. -/
theorem put {k : Fin n} {e : Entry σ}
    (page : e.sector ≠ cacheFree →
      IsPage c.startOfPartition c.endOfPartition c.sectorsPerPage e)
    (free : e.sector = cacheFree → e.count = 0 ∧ e.dirty = false)
    (unique : e.sector ≠ cacheFree → ∀ j, j ≠ k → (c.entries j).sector ≠ e.sector)
    (clean : e.dirty = false → ∀ i < e.count, e.cache i = c.disc.sectors (e.sector + i)) :
    Coherent (c.put k e) where
  positive := coherent.positive
  room := coherent.room
  page j := by
    by_cases same : j = k
    · rw [same, put_self]
      exact page
    · rw [put_of_ne same]
      exact coherent.page j
  free j := by
    by_cases same : j = k
    · rw [same, put_self]
      exact free
    · rw [put_of_ne same]
      exact coherent.free j
  unique i j := by
    by_cases first : i = k
    · by_cases second : j = k
      · exact fun _ _ => first.trans second.symm
      · rw [first, put_self, put_of_ne second]
        exact fun used equal => absurd equal.symm (unique used j second)
    · by_cases second : j = k
      · rw [second, put_self, put_of_ne first]
        exact fun used equal => absurd equal (unique (equal ▸ used) i first)
      · rw [put_of_ne first, put_of_ne second]
        exact coherent.unique i j
  clean j := by
    by_cases same : j = k
    · rw [same, put_self]
      exact clean
    · rw [put_of_ne same]
      exact coherent.clean j

theorem volume_put {k : Fin n} {e : Entry σ} (coherent' : Coherent (c.put k e)) (i : Nat) :
    volume (c.put k e) i =
      if e.holds i then e.cell i
      else if (c.entries k).holds i then c.disc.sectors i else volume c i :=
  view_update coherent.exclusive coherent'.exclusive

/-- A page is changed where it is. -/
theorem revise {k : Fin n} {e : Entry σ} (sector : e.sector = (c.entries k).sector)
    (count : e.count = (c.entries k).count)
    (used : e.dirty = true → (c.entries k).sector ≠ cacheFree)
    (clean : e.dirty = false → ∀ i < e.count, e.cache i = c.disc.sectors (e.sector + i)) :
    Coherent (c.put k e) ∧
      ∀ i, volume (c.put k e) i = if (c.entries k).holds i then e.cell i else volume c i := by
  have coherent' : Coherent (c.put k e) := by
    refine coherent.put ?_ ?_ ?_ clean
    · intro other
      obtain ⟨aligned, inside, own⟩ := coherent.page k (sector ▸ other)
      refine ⟨?_, ?_, ?_⟩
      · rw [sector]
        exact aligned
      · rw [sector]
        exact inside
      · rw [sector, count, own]
    · intro none'
      rw [sector] at none'
      refine ⟨count.trans (coherent.free k none').1, ?_⟩
      exact Bool.eq_false_iff.mpr fun dirty => used dirty none'
    · intro other j ne equal
      rw [sector] at other equal
      exact ne (coherent.unique j k (equal ▸ other) equal)
  refine ⟨coherent', fun i => ?_⟩
  have same : e.holds i = (c.entries k).holds i := by
    rw [Entry.holds, Entry.holds, sector, count]
  rw [coherent.volume_put coherent', same]
  split
  · rfl
  · rfl

theorem access (k : Fin n) : Keeps c (c.access k) := by
  obtain ⟨coherent', seen⟩ := coherent.revise (k := k)
    (e := { c.entries k with lastAccess := u32 (c.accessCounter + 1) }) rfl rfl
    (fun dirty none' => by rw [(coherent.free k none').2] at dirty; cases dirty)
    (coherent.clean k)
  refine ⟨{ coherent' with }, rfl, rfl, ?_, put_clean id⟩
  funext i
  refine (seen i).trans ?_
  split
  · rename_i held
    exact (coherent.volume_held held).symm
  · rfl

end Coherent

end SectorCoherence
