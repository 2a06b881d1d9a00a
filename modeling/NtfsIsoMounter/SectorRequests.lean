import NtfsIsoMounter.SectorCoherence

/-!
# Requests to the sector cache

A request that reads gives the sectors of the volume, and one that writes changes those sectors and
no others. Where a call of the disc fails the request fails: what was read is kept out of the cache,
and of a write only the first sectors and one run of sectors of a page or of the disc are behind.
-/

namespace SectorRequests

open ByteMaps SectionTables PageOverlays SectorCache SectorCoherence

universe u
variable {σ : Type u} {n : Nat} {io : DiscInterface σ}

/-- A read of the disc that fails has not moved sectors. -/
def KeepsBuffers (io : DiscInterface σ) : Prop :=
  ∀ i moved, io.readSectors i ≠ .failed (some moved)

/-- No call of the disc fails. -/
def Works (io : DiscInterface σ) : Prop :=
  ∀ i, io.readSectors i = .done ∧ io.writeSectors i = .done

theorem Works.keepsBuffers (works : Works io) : KeepsBuffers io := by
  intro i moved failed
  rw [(works i).1] at failed
  cases failed

/-! ## Calls of the disc -/

theorem write_fills (io : DiscInterface σ) (d : Disc σ) (s m : Nat) (buffer : Nat → σ) :
    ∃ moved, (d.write io s m buffer).2.sectors = fill d.sectors s m moved ∧
      ((d.write io s m buffer).1 = true → moved = buffer) := by
  rw [Disc.write]
  split
  · exact ⟨buffer, rfl, fun _ => rfl⟩
  · refine ⟨fun k => d.sectors (s + k), ?_, fun done => absurd done Bool.false_ne_true⟩
    exact (fill_self d.sectors s m).symm
  · rename_i moved _
    exact ⟨moved, rfl, fun done => absurd done Bool.false_ne_true⟩

theorem write_works (works : Works io) (d : Disc σ) (s m : Nat) (buffer : Nat → σ) :
    (d.write io s m buffer).1 = true := by
  rw [Disc.write, (works d.calls).2]

theorem read_sectors (io : DiscInterface σ) (d : Disc σ) (s m : Nat) (buffer : Nat → σ) :
    (d.read io s m buffer).2.2.sectors = d.sectors := by
  rw [Disc.read]
  split
  · rfl
  · rfl
  · rfl

theorem read_buffer (keeps : KeepsBuffers io) (d : Disc σ) (s m : Nat) (buffer : Nat → σ) :
    (d.read io s m buffer).2.1 =
      if (d.read io s m buffer).1 then fill buffer 0 m (fun k => d.sectors (s + k))
      else buffer := by
  rw [Disc.read]
  split
  · rfl
  · rfl
  · rename_i moved failed
    exact absurd failed (keeps _ moved)

theorem read_works (works : Works io) (d : Disc σ) (s m : Nat) (buffer : Nat → σ) :
    (d.read io s m buffer).1 = true := by
  rw [Disc.read, (works d.calls).1]

/-! ## Pages -/

/-- A page with the sector was found, or no page has it and the one to replace is free if it is
said to be. -/
def Scanned (entries : Fin n → Entry σ) (s : Nat) (ks : List (Fin n)) :
    Fin n ⊕ (Bool × Fin n) → Prop
  | .inl k => (entries k).holds s = true
  | .inr (foundFree, k) => (∀ j ∈ ks, (entries j).holds s = false) ∧
      (foundFree = true → (entries k).sector = cacheFree)

theorem scan_spec (entries : Fin n → Entry σ) (s : Nat) (ks : List (Fin n)) (foundFree : Bool)
    (oldUsed : Fin n) (oldAccess : Nat)
    (free : foundFree = true → (entries oldUsed).sector = cacheFree) :
    Scanned entries s ks (scan entries s ks foundFree oldUsed oldAccess) := by
  induction ks generalizing foundFree oldUsed oldAccess with
  | nil => exact ⟨fun j mem => absurd mem List.not_mem_nil, free⟩
  | cons k ks ih =>
    rw [scan]
    by_cases held : (entries k).holds s = true
    · rw [if_pos held]
      exact held
    · rw [if_neg held]
      have more {r} (tail : Scanned entries s ks r) : Scanned entries s (k :: ks) r := by
        cases r with
        | inl j => exact tail
        | inr r =>
          refine ⟨fun j mem => ?_, tail.2⟩
          rcases List.mem_cons.mp mem with rfl | mem
          · exact Bool.eq_false_iff.mpr held
          · exact tail.1 j mem
      by_cases older : foundFree = false ∧
          ((entries k).sector = cacheFree ∨ (entries k).lastAccess < oldAccess)
      · rw [if_pos older]
        exact more (ih _ _ _ of_decide_eq_true)
      · rw [if_neg older]
        exact more (ih _ _ _ free)

theorem findPage_some {c : Cache σ n} {k : Fin n} {s : Nat} (found : findPage c s = some k) :
    (c.entries k).holds s = true := by
  have both := List.find?_some found
  rw [Bool.and_eq_true] at both
  exact both.2

section Pages
variable {c : Cache σ n} (coherent : Coherent c)
include coherent

/-- A page holds the sectors from one of its own to its end. -/
theorem rest_of_page {k : Fin n} {s : Nat} (held : (c.entries k).holds s = true) :
    sub32 (c.entries k).count (s - (c.entries k).sector) =
        (c.entries k).sector + (c.entries k).count - s ∧
      s < (c.entries k).sector + (c.entries k).count ∧
      ∀ i, s + i < (c.entries k).sector + (c.entries k).count →
        (c.entries k).holds (s + i) = true := by
  obtain ⟨low, high⟩ := coherent.within held
  obtain ⟨-, -, count⟩ := coherent.page k (coherent.occupied held)
  have room := coherent.room
  refine ⟨?_, high, fun i inside => ?_⟩
  · rw [sub32_exact (by omega) (by omega)]
    omega
  · have reached : s + i - (c.entries k).sector < (c.entries k).count := by omega
    have there := coherent.holds_of_within reached
    rwa [Nat.add_sub_cancel' (by omega)] at there

theorem occupied_of_dirty {k : Fin n} (dirty : (c.entries k).dirty = true) :
    (c.entries k).sector ≠ cacheFree := by
  intro free
  rw [(coherent.free k free).2] at dirty
  exact Bool.false_ne_true dirty

theorem writeBack_eq {k : Fin n} (dirty : (c.entries k).dirty = true) :
    c.writeBack io k =
      let e := c.entries k
      let r := c.disc.write io e.sector e.count e.cache
      if r.1 then (true, { c.put k { e with dirty := false } with disc := r.2 })
      else (false, { c with disc := r.2 }) := by
  obtain ⟨⟨q, aligned⟩, -, -⟩ := coherent.page k (occupied_of_dirty coherent dirty)
  have start : ¬ (c.entries k).sector < c.startOfPartition := by omega
  rw [Cache.writeBack]
  simp only [if_neg start, Nat.add_zero, Nat.sub_zero, Nat.zero_add]

variable (io) in
/-- A changed page goes to the disc, or the disc keeps what it can of it. -/
theorem writeBack_spec {k : Fin n} (dirty : (c.entries k).dirty = true) :
    Keeps c (c.writeBack io k).2 ∧
      (c.writeBack io k).2.entries = (if (c.writeBack io k).1 then
        Function.update c.entries k { c.entries k with dirty := false } else c.entries) ∧
      (Works io → (c.writeBack io k).1 = true) := by
  rw [writeBack_eq coherent dirty]
  set e := c.entries k with entry
  obtain ⟨moved, sectors, whole⟩ := write_fills io c.disc e.sector e.count e.cache
  have behind : Keeps c { c with disc := (c.disc.write io e.sector e.count e.cache).2 } := by
    refine coherent.disc fun i unchanged => ?_
    rw [sectors]
    refine fill_outside _ _ ?_
    by_contra inside
    have reached : i - e.sector < (c.entries k).count := by
      rw [← entry]
      omega
    have held := coherent.holds_of_within reached
    rw [← entry, Nat.add_sub_cancel' (by omega)] at held
    rw [unchanged k held] at dirty
    exact Bool.false_ne_true dirty
  refine ⟨?_, ?_, fun works => ?_⟩
  · dsimp only
    split
    · rename_i done
      obtain ⟨coherent', seen⟩ := behind.coherent.revise (k := k)
        (e := { e with dirty := false }) rfl rfl (fun wrong => absurd wrong Bool.false_ne_true) (by
          intro _ i inside
          change e.cache i = (c.disc.write io e.sector e.count e.cache).2.sectors (e.sector + i)
          rw [sectors, whole done, fill_inside _ _ inside])
      refine behind.trans ⟨coherent', rfl, rfl, funext fun i => (seen i).trans ?_,
        put_clean fun wrong => absurd wrong Bool.false_ne_true⟩
      split
      · rename_i held
        exact (behind.coherent.volume_held held).symm
      · rfl
    · exact behind
  · dsimp only
    split
    · rfl
    · rfl
  · dsimp only
    rw [if_pos (write_works works _ _ _ _)]

/-- The page of a sector that no page has is read in the place of one without changes. -/
theorem load_spec (keeps : KeepsBuffers io) {k : Fin n} {s : Nat}
    (clean : (c.entries k).dirty = false) (bare : ∀ j, (c.entries j).holds s = false)
    (low : c.startOfPartition ≤ s) (high : s < c.endOfPartition) :
    Keeps c (c.load io k s).2 ∧
      (∀ j, (c.load io k s).1 = some j → ((c.load io k s).2.entries j).holds s = true) ∧
      (Works io → (c.load io k s).1.isSome = true) := by
  have bounds := base_bounds coherent.positive low
  have room := coherent.room
  have count : c.pageCount (c.base s) = min c.sectorsPerPage (c.endOfPartition - c.base s) := by
    rw [Cache.pageCount, u32_exact (show c.base s + c.sectorsPerPage < 2 ^ 32 by omega)]
    split
    · rw [sub32_exact (by omega) (by omega)]
      omega
    · rw [sub32_exact (by omega) (by omega)]
      omega
  have absent : ∀ j, (c.entries j).sector ≠ c.base s := by
    intro j same
    have held := coherent.holds_iff.mpr ⟨⟨low, high⟩, same⟩
    rw [bare j] at held
    exact Bool.false_ne_true held
  have known (d : Disc σ) (same : d.sectors = c.disc.sectors) : Keeps c { c with disc := d } :=
    coherent.disc fun i _ => congrFun same i
  have sectors := read_sectors io c.disc (c.base s) (c.pageCount (c.base s)) (c.entries k).cache
  have buffer := read_buffer keeps c.disc (c.base s) (c.pageCount (c.base s)) (c.entries k).cache
  rw [Cache.load]
  dsimp only
  split
  · rename_i done
    rw [if_pos done] at buffer
    set d := (c.disc.read io (c.base s) (c.pageCount (c.base s)) (c.entries k).cache).2.2
    set page : Entry σ := ⟨c.base s, c.pageCount (c.base s), (c.entries k).lastAccess, false,
      (c.disc.read io (c.base s) (c.pageCount (c.base s)) (c.entries k).cache).2.1⟩ with new
    have cells : ∀ i < page.count, page.cache i = c.disc.sectors (page.sector + i) := by
      intro i inside
      rw [new, buffer]
      have filled := fill_inside (c.entries k).cache (a := 0)
        (fun i => c.disc.sectors (c.base s + i)) inside
      rwa [Nat.zero_add] at filled
    have coherent' : Coherent (c.put k page) := by
      refine coherent.put (fun _ => ⟨⟨_, rfl⟩, by change c.base s < _; omega, count⟩)
        (fun wrong => ?_) (fun _ j _ => absent j) fun _ => cells
      have value : cacheFree = 4294967295 := rfl
      change c.base s = cacheFree at wrong
      omega
    have seen : volume (c.put k page) = volume c := by
      funext i
      rw [coherent.volume_put coherent']
      split
      · rename_i held
        rw [← put_self c k page] at held
        obtain ⟨⟨low', high'⟩, same⟩ := coherent'.holds_iff.mp held
        obtain ⟨lower, upper⟩ := coherent'.within held
        rw [put_self] at same lower upper
        have nobody : volume c i = c.disc.sectors i := by
          refine view_bare fun j => Bool.eq_false_iff.mpr fun other => ?_
          exact absent j ((coherent.holds_iff.mp other).2.trans same.symm)
        rw [nobody, Entry.cell, cells _ (by omega), Nat.add_sub_cancel' lower]
      · split
        · rename_i held
          exact (coherent.volume_clean held clean).symm
        · rfl
    have put : Keeps c (c.put k page) :=
      ⟨coherent', rfl, rfl, seen, put_clean fun wrong => absurd wrong Bool.false_ne_true⟩
    have read : Keeps c { c.put k page with disc := d } :=
      put.trans (put.coherent.disc fun i _ => congrFun sectors i)
    refine ⟨read.trans (read.coherent.access k), fun j answer => ?_, fun _ => rfl⟩
    cases answer
    rw [access_holds]
    refine read.coherent.holds_iff.mpr ⟨⟨low, high⟩, ?_⟩
    change ((c.put k page).entries k).sector = c.base s
    rw [put_self]
  · rename_i failed
    rw [if_neg failed] at buffer
    have same : c.put k { c.entries k with cache := (c.entries k).cache } = c := by
      rw [Cache.put, Function.update_eq_self]
    refine ⟨?_, fun j wrong => absurd wrong.symm (Option.some_ne_none j), fun works => ?_⟩
    · rw [buffer, same]
      exact known _ sectors
    · exact absurd (read_works works _ _ _ _) failed

/-- A sector of the partition is brought into a page, or the volume stays as it was. -/
theorem getPage_spec [NeZero n] (keeps : KeepsBuffers io) {s : Nat}
    (low : c.startOfPartition ≤ s) (high : s < c.endOfPartition) :
    Keeps c (getPage io c s).2 ∧
      (∀ k, (getPage io c s).1 = some k → ((getPage io c s).2.entries k).holds s = true) ∧
      (Works io → (getPage io c s).1.isSome = true) := by
  have scanned := scan_spec c.entries s (List.finRange n) false 0 0xFFFFFFFF
    fun wrong => absurd wrong Bool.false_ne_true
  rw [getPage, if_neg (not_lt.mpr low)]
  generalize scan c.entries s (List.finRange n) false 0 0xFFFFFFFF = result at scanned
  cases result with
  | inl k =>
    refine ⟨coherent.access k, fun j answer => ?_, fun _ => rfl⟩
    cases answer
    exact (access_holds c k k s).trans scanned
  | inr victim =>
    obtain ⟨foundFree, k⟩ := victim
    obtain ⟨nobody, free⟩ := scanned
    have bare : ∀ j, (c.entries j).holds s = false := fun j => nobody j (List.mem_finRange j)
    dsimp only
    by_cases changed : foundFree = false ∧ (c.entries k).dirty = true
    · rw [if_pos changed]
      obtain ⟨kept, entries, works⟩ := writeBack_spec io coherent changed.2
      split
      · rename_i done
        rw [if_pos done] at entries
        have written : ∀ j, ((c.writeBack io k).2.entries j).holds s = false ∧
            (((c.writeBack io k).2.entries k).dirty = false) := by
          intro j
          rw [entries, Function.update_self]
          refine ⟨?_, rfl⟩
          by_cases same : j = k
          · rw [same, Function.update_self]
            exact bare k
          · rw [Function.update_of_ne same]
            exact bare j
        obtain ⟨kept', answer, works'⟩ := load_spec kept.coherent keeps (written k).2
          (fun j => (written j).1) (kept.start ▸ low) (kept.stop ▸ high)
        exact ⟨kept.trans kept', answer, works'⟩
      · rename_i failed
        refine ⟨kept, fun j wrong => absurd wrong.symm (Option.some_ne_none j), fun all => ?_⟩
        exact absurd (works all) failed
    · rw [if_neg changed]
      refine load_spec coherent keeps ?_ bare low high
      cases found : foundFree with
      | true => exact (coherent.free k (free found)).2
      | false => exact Bool.eq_false_iff.mpr fun dirty => changed ⟨found, dirty⟩

theorem findPage_none {s : Nat} (absent : findPage c s = none) (k : Fin n) :
    (c.entries k).holds s = false := by
  refine Bool.eq_false_iff.mpr fun held => ?_
  refine List.find?_eq_none.mp absent k (List.mem_finRange k) ?_
  rw [held, Bool.and_true, decide_eq_true (coherent.occupied held)]

/-- No page has one of the sectors that follow in the same page. -/
theorem bare_ahead {s i : Nat} (low : c.startOfPartition ≤ s)
    (bare : ∀ k, (c.entries k).holds s = false) (after : s ≤ i)
    (before : i < c.base s + c.sectorsPerPage) (k : Fin n) : (c.entries k).holds i = false := by
  refine Bool.eq_false_iff.mpr fun held => ?_
  obtain ⟨⟨low', high⟩, page⟩ := coherent.holds_iff.mp held
  have bounds := base_bounds coherent.positive low
  have same : c.base s = c.base i :=
    (base_eq_iff coherent.positive low').mpr ⟨bounds.2.1.trans after, before⟩
  have here := coherent.holds_iff.mpr ⟨⟨low, lt_of_le_of_lt after high⟩, page.trans same.symm⟩
  rw [bare k] at here
  exact Bool.false_ne_true here

end Pages

/-! ## Reads -/

/-- What a read comes to: the first sectors are there, all of them if it does not fail. -/
structure Reads (io : DiscInterface σ) (c : Cache σ n) (sector numSectors pos : Nat)
    (dest : Nat → σ) (r : Bool × (Nat → σ) × Cache σ n) : Prop where
  keeps : Keeps c r.2.2
  sectors : ∃ m ≤ numSectors, r.2.1 = fill dest pos m (fun i => volume c (sector + i)) ∧
    (r.1 = true → m = numSectors)
  works : Works io → r.1 = true

theorem readLoop_spec [NeZero n] (keeps : KeepsBuffers io) {c : Cache σ n} (coherent : Coherent c)
    {turns sector numSectors : Nat} (fuel : numSectors < turns) (low : c.startOfPartition ≤ sector)
    (high : sector + numSectors ≤ c.endOfPartition) (pos : Nat) (dest : Nat → σ) :
    ∃ r, readLoop io turns c sector numSectors pos dest = some r ∧
      Reads io c sector numSectors pos dest r := by
  induction turns generalizing c sector numSectors pos dest with
  | zero => exact absurd fuel (Nat.not_lt_zero _)
  | succ turns ih =>
    rw [readLoop]
    by_cases finished : numSectors = 0
    · rw [if_pos finished]
      refine ⟨_, rfl, ⟨coherent, rfl, rfl, rfl, fun _ => id⟩,
        ⟨0, Nat.zero_le _, ?_, fun _ => finished.symm⟩, fun _ => rfl⟩
      rw [fill_zero]
    · rw [if_neg finished]
      obtain ⟨kept, answer, works⟩ :=
        getPage_spec coherent keeps low (show sector < c.endOfPartition by omega)
      rcases got : getPage io c sector with ⟨none | k, c'⟩
      · rw [got] at kept works
        refine ⟨_, rfl, kept, ⟨0, Nat.zero_le _, ?_, fun wrong => absurd wrong Bool.false_ne_true⟩,
          fun all => absurd (works all) Bool.false_ne_true⟩
        rw [fill_zero]
      · rw [got] at kept answer
        replace kept : Keeps c c' := kept
        have held : (c'.entries k).holds sector = true := answer k rfl
        obtain ⟨rest, inside, there⟩ := rest_of_page kept.coherent held
        have within := (kept.coherent.within held).1
        have start := kept.start
        have stop := kept.stop
        have room := kept.coherent.room
        dsimp only
        rw [rest]
        set m := min ((c'.entries k).sector + (c'.entries k).count - sector) numSectors with some'
        have block : fill dest pos m
            (fun i => (c'.entries k).cache (sector - (c'.entries k).sector + i)) =
              fill dest pos m (fun i => volume c (sector + i)) := by
          refine fill_congr _ _ fun i early => ?_
          have own : sector + i - (c'.entries k).sector = sector - (c'.entries k).sector + i := by
            omega
          rw [← kept.volume, kept.coherent.volume_held (there i (by omega)), Entry.cell, own]
        rw [u32_exact (show sector + m < 2 ^ 32 by omega), block]
        obtain ⟨r, ran, read⟩ := ih kept.coherent (show numSectors - m < turns by omega)
          (show c'.startOfPartition ≤ sector + m by omega) (by omega) (pos + m)
          (fill dest pos m fun i => volume c (sector + i))
        refine ⟨r, ran, kept.trans read.keeps, ?_, read.works⟩
        obtain ⟨m', le, dest', whole⟩ := read.sectors
        refine ⟨m + m', by omega, ?_, fun ok => by have := whole ok; omega⟩
        rw [dest', kept.volume, ← fill_append]
        simp only [Nat.add_assoc]

/-! ## Writes -/

section Direct
variable {c : Cache σ n} (coherent : Coherent c)
include coherent

/-- The pages are passed over as long as they are not there. -/
theorem reach_spec {sector numSectors turns secsToWrite sec : Nat}
    (high : sector + numSectors ≤ c.endOfPartition)
    (fuel : numSectors + 1 < secsToWrite + turns) (running : 0 < turns) (moved : sec < secsToWrite)
    (span : secsToWrite ≤ numSectors + c.sectorsPerPage)
    (edge : ∃ q, sector + secsToWrite = c.startOfPartition + q * c.sectorsPerPage)
    (bare : ∀ i, sector ≤ i → i < sector + secsToWrite → ∀ k, (c.entries k).holds i = false) :
    ∃ r, reach c sector numSectors turns secsToWrite sec = some r ∧ 0 < r ∧
      ∀ i, sector ≤ i → i < sector + r → ∀ k, (c.entries k).holds i = false := by
  have positive := coherent.positive
  have room := coherent.room
  induction turns generalizing secsToWrite sec with
  | zero => exact absurd running (Nat.not_lt_zero _)
  | succ turns ih =>
    rw [reach, u32_exact (show sector + secsToWrite < 2 ^ 32 by omega)]
    cases found : findPage c (sector + secsToWrite) with
    | some k =>
      refine ⟨_, if_pos rfl, by omega, fun i after before => bare i after (by omega)⟩
    | none =>
      rw [if_neg (by rw [Option.isSome_none]; exact Bool.false_ne_true)]
      by_cases far : secsToWrite > numSectors
      · exact ⟨_, if_pos far, by omega, bare⟩
      · rw [if_neg far]
        obtain ⟨q, aligned⟩ := edge
        have start : c.startOfPartition ≤ sector + secsToWrite := by omega
        have own : c.base (sector + secsToWrite) = sector + secsToWrite := by
          rw [aligned]
          exact ((base_eq_iff positive (by omega)).mpr (by omega)).symm
        refine ih (by omega) (by omega) (by omega) (by omega) ⟨q + 1, ?_⟩ fun i after before => ?_
        · rw [Nat.succ_mul]
          omega
        · by_cases early : i < sector + secsToWrite
          · exact bare i after early
          · exact bare_ahead coherent start (findPage_none coherent found) (by omega) (by omega)

/-- From a sector without a page some sectors go to the disc, none of which has a page. -/
theorem directCount_spec {sector numSectors : Nat} (low : c.startOfPartition ≤ sector)
    (high : sector + numSectors ≤ c.endOfPartition) (some' : 0 < numSectors)
    (bare : ∀ k, (c.entries k).holds sector = false) :
    ∃ m, directCount c sector numSectors = some m ∧ 0 < m ∧ m ≤ numSectors ∧
      ∀ i, sector ≤ i → i < sector + m → ∀ k, (c.entries k).holds i = false := by
  have positive := coherent.positive
  have room := coherent.room
  have division := Nat.div_add_mod (sector - c.startOfPartition) c.sectorsPerPage
  have rest := Nat.mod_lt (sector - c.startOfPartition) positive
  have page : ∀ i, sector ≤ i → i < sector + (c.sectorsPerPage -
      (sector - c.startOfPartition) % c.sectorsPerPage) → ∀ k, (c.entries k).holds i = false := by
    intro i after before
    refine bare_ahead coherent low bare after ?_
    rw [Nat.mul_comm] at division
    rw [Cache.base]
    omega
  have count : ∃ w, (if c.sectorsPerPage - (sector - c.startOfPartition) % c.sectorsPerPage <
        numSectors then reach c sector numSectors (numSectors + 1)
          (c.sectorsPerPage - (sector - c.startOfPartition) % c.sectorsPerPage) 0
      else some (c.sectorsPerPage - (sector - c.startOfPartition) % c.sectorsPerPage)) = some w ∧
      0 < w ∧ ∀ i, sector ≤ i → i < sector + w → ∀ k, (c.entries k).holds i = false := by
    split
    · refine reach_spec coherent high (by omega) (by omega) (by omega) (by omega)
        ⟨(sector - c.startOfPartition) / c.sectorsPerPage + 1, ?_⟩ page
      rw [Nat.succ_mul]
      rw [Nat.mul_comm] at division
      omega
    · exact ⟨_, rfl, by omega, page⟩
  obtain ⟨w, counted, more, free⟩ := count
  rw [directCount]
  dsimp only
  rw [counted, Option.map_some, u32_exact (show sector + min w numSectors < 2 ^ 32 by omega),
    if_neg (by omega)]
  exact ⟨_, rfl, by omega, by omega, fun i after before => free i after (by omega)⟩

end Direct

/-- What a write comes to: the first sectors are there, all of them if it does not fail, and of
those behind them some may be spoilt. -/
structure Writes (io : DiscInterface σ) (c : Cache σ n) (sector numSectors : Nat) (src : Nat → σ)
    (r : Bool × Cache σ n) : Prop where
  coherent : Coherent r.2
  start : r.2.startOfPartition = c.startOfPartition
  stop : r.2.endOfPartition = c.endOfPartition
  sectors : ∃ m l moved, m + l ≤ numSectors ∧
    volume r.2 = fill (fill (volume c) sector m src) (sector + m) l moved ∧
    (r.1 = true → m = numSectors)
  works : Works io → r.1 = true

/-- Sectors that are written come before those of the rest of the write. -/
theorem Writes.after {c c' : Cache σ n} {sector m numSectors : Nat} {src : Nat → σ}
    {r : Bool × Cache σ n}
    (writes : Writes io c' (sector + m) (numSectors - m) (fun i => src (m + i)) r)
    (le : m ≤ numSectors) (start : c'.startOfPartition = c.startOfPartition)
    (stop : c'.endOfPartition = c.endOfPartition)
    (volume' : volume c' = fill (volume c) sector m src) : Writes io c sector numSectors src r where
  coherent := writes.coherent
  start := writes.start.trans start
  stop := writes.stop.trans stop
  sectors := by
    obtain ⟨m', l, moved, inside, behind, whole⟩ := writes.sectors
    refine ⟨m + m', l, moved, by omega, ?_, fun ok => by have := whole ok; omega⟩
    rw [behind, volume', fill_append, Nat.add_assoc]
  works := writes.works

/-- A page takes the sectors of a write that belong to it. -/
theorem fill_page {c : Cache σ n} (coherent : Coherent c) {k : Fin n} {sector m : Nat}
    {src : Nat → σ} {e : Entry σ} (held : (c.entries k).holds sector = true)
    (inside : sector + m ≤ (c.entries k).sector + (c.entries k).count)
    (own : e.sector = (c.entries k).sector) (count : e.count = (c.entries k).count)
    (dirty : e.dirty = true)
    (cells : e.cache = fill (c.entries k).cache (sector - (c.entries k).sector) m src) :
    Coherent (c.put k e) ∧ volume (c.put k e) = fill (volume c) sector m src := by
  obtain ⟨low, high⟩ := coherent.within held
  obtain ⟨coherent', seen⟩ := coherent.revise (k := k) (e := e) own count
    (fun _ => coherent.occupied held) fun wrong => by rw [dirty] at wrong; cases wrong
  refine ⟨coherent', funext fun i => ?_⟩
  rw [seen]
  by_cases here : (c.entries k).holds i = true
  · have within := coherent.within here
    rw [if_pos here, Entry.cell, own, cells]
    by_cases written : sector ≤ i ∧ i < sector + m
    · have moved : i - (c.entries k).sector - (sector - (c.entries k).sector) = i - sector := by
        omega
      rw [fill, fill, if_pos (by omega), if_pos written, moved]
    · rw [fill_outside _ _ (by omega), fill_outside _ _ (by omega), coherent.volume_held here,
        Entry.cell]
  · rw [if_neg here]
    refine (fill_outside _ _ ?_).symm
    by_contra written
    obtain ⟨-, -, there⟩ := rest_of_page coherent held
    have wrong := there (i - sector) (by omega)
    rw [Nat.add_sub_cancel' (by omega)] at wrong
    exact here wrong

variable (io) in
theorem writeLoop_spec {c : Cache σ n} (coherent : Coherent c) {turns sector numSectors : Nat}
    (fuel : numSectors < turns) (low : c.startOfPartition ≤ sector)
    (high : sector + numSectors ≤ c.endOfPartition) (src : Nat → σ) :
    ∃ r, writeLoop io turns c sector numSectors src = some r ∧
      Writes io c sector numSectors src r := by
  have room := coherent.room
  induction turns generalizing c sector numSectors src with
  | zero => exact absurd fuel (Nat.not_lt_zero _)
  | succ turns ih =>
    rw [writeLoop]
    by_cases finished : numSectors = 0
    · rw [if_pos finished]
      refine ⟨_, rfl, coherent, rfl, rfl, ⟨0, 0, src, Nat.zero_le _, ?_, fun _ => finished.symm⟩,
        fun _ => rfl⟩
      rw [fill_zero, fill_zero]
    · rw [if_neg finished]
      cases found : findPage c sector with
      | some k =>
        have accessed := coherent.access k
        have held : ((c.access k).entries k).holds sector = true :=
          (access_holds c k k sector).trans (findPage_some found)
        obtain ⟨rest, inside, -⟩ := rest_of_page accessed.coherent held
        dsimp only
        rw [rest]
        set m := min (((c.access k).entries k).sector + ((c.access k).entries k).count - sector)
          numSectors with some'
        obtain ⟨coherent', volume'⟩ := fill_page accessed.coherent (m := m)
          (e := { (c.access k).entries k with
            cache := fill ((c.access k).entries k).cache
              (sector - ((c.access k).entries k).sector) m src
            dirty := true }) held (by omega) rfl rfl rfl rfl
        rw [u32_exact (show sector + m < 2 ^ 32 by omega)]
        obtain ⟨r, ran, writes⟩ := ih coherent' (show numSectors - m < turns by omega)
          (show c.startOfPartition ≤ sector + m by omega)
          (show sector + m + (numSectors - m) ≤ c.endOfPartition by omega)
          (fun i => src (m + i)) room
        refine ⟨r, ran, writes.after (by omega) rfl rfl ?_⟩
        rw [volume', accessed.volume]
      | none =>
        obtain ⟨m, counted, more, le, bare⟩ := directCount_spec coherent low high (by omega)
          (findPage_none coherent found)
        dsimp only
        rw [counted, Option.bind_some, u32_exact (show sector + m < 2 ^ 32 by omega)]
        obtain ⟨moved, sectors, whole⟩ := write_fills io c.disc sector m src
        obtain ⟨coherent', volume'⟩ := coherent.store bare sectors
        split
        · rename_i done
          rw [whole done] at volume'
          obtain ⟨r, ran, writes⟩ := ih coherent' (show numSectors - m < turns by omega)
            (show c.startOfPartition ≤ sector + m by omega)
            (show sector + m + (numSectors - m) ≤ c.endOfPartition by omega)
            (fun i => src (m + i)) room
          exact ⟨r, ran, writes.after le rfl rfl volume'⟩
        · rename_i failed
          refine ⟨_, rfl, coherent', rfl, rfl, ⟨0, m, moved, by omega, ?_,
            fun wrong => absurd wrong Bool.false_ne_true⟩,
            fun works => absurd (write_works works _ _ _ _) failed⟩
          rw [fill_zero, volume', Nat.add_zero]

/-! ## Flushing -/

section Flush
variable {c : Cache σ n} (coherent : Coherent c)
include coherent

variable (io) in
theorem flushPages_spec (ks : List (Fin n)) :
    Keeps c (flushPages io ks c).2 ∧
      ((flushPages io ks c).1 = true → ∀ k ∈ ks,
        ((flushPages io ks c).2.entries k).dirty = false) ∧
      (Works io → (flushPages io ks c).1 = true) := by
  induction ks generalizing c with
  | nil =>
    exact ⟨⟨coherent, rfl, rfl, rfl, fun _ => id⟩, fun _ k mem => absurd mem List.not_mem_nil,
      fun _ => rfl⟩
  | cons k ks ih =>
    rw [flushPages]
    by_cases dirty : (c.entries k).dirty = true
    · rw [if_pos dirty]
      obtain ⟨kept, entries, works⟩ := writeBack_spec io coherent dirty
      dsimp only
      split
      · rename_i done
        rw [if_pos done] at entries
        obtain ⟨kept', clean, works'⟩ := ih kept.coherent
        refine ⟨kept.trans kept', fun ok j mem => ?_, works'⟩
        rcases List.mem_cons.mp mem with rfl | mem
        · exact kept'.clean j (by rw [entries, Function.update_self])
        · exact clean ok j mem
      · rename_i failed
        exact ⟨kept, fun wrong => absurd wrong Bool.false_ne_true,
          fun all => absurd (works all) failed⟩
    · rw [if_neg dirty]
      obtain ⟨kept, clean, works⟩ := ih coherent
      refine ⟨kept, fun ok j mem => ?_, works⟩
      rcases List.mem_cons.mp mem with rfl | mem
      · exact kept.clean j (Bool.eq_false_iff.mpr dirty)
      · exact clean ok j mem

/-- Without a changed page the disc is the volume. -/
theorem settled_disc (clean : ∀ k, (c.entries k).dirty = false) :
    c.disc.sectors = volume c := by
  funext i
  rcases held_or_bare Entry.holds c.entries i with ⟨k, held⟩ | bare
  · exact (coherent.volume_clean held (clean k)).symm
  · exact (view_bare bare).symm

variable (io) in
/-- A flush does not change the volume; where it succeeds no page is changed any more. -/
theorem flush_spec : Keeps c (flush io c).2 ∧
    ((flush io c).1 = true → ∀ k, ((flush io c).2.entries k).dirty = false) ∧
    (Works io → (flush io c).1 = true) := by
  obtain ⟨kept, clean, works⟩ := flushPages_spec io coherent (List.finRange n)
  exact ⟨kept, fun ok k => clean ok k (List.mem_finRange k), works⟩

/-- Where a flush succeeds the disc is the volume. -/
theorem flush_disc (ok : (flush io c).1 = true) : (flush io c).2.disc.sectors = volume c := by
  obtain ⟨kept, clean, -⟩ := flush_spec io coherent
  rw [← kept.volume]
  exact settled_disc kept.coherent (clean ok)

end Flush

/-- Without pages the disc itself is seen. -/
theorem vacant {c : Cache σ n} (positive : 0 < c.sectorsPerPage)
    (room : c.endOfPartition + c.sectorsPerPage < 2 ^ 32)
    (empty : ∀ k, (c.entries k).sector = cacheFree ∧ (c.entries k).count = 0 ∧
      (c.entries k).dirty = false) : Coherent c ∧ volume c = c.disc.sectors := by
  refine ⟨⟨positive, room, fun k used => absurd (empty k).1 used, fun k _ => (empty k).2,
    fun j _ used => absurd (empty j).1 used, fun k _ i inside => ?_⟩, funext fun i => view_bare ?_⟩
  · rw [(empty k).2.1] at inside
    exact absurd inside (Nat.not_lt_zero i)
  · intro k
    rw [Entry.holds, (empty k).1, (empty k).2.1, Nat.add_zero,
      u32_exact (show cacheFree < 2 ^ 32 by decide)]
    by_cases low : cacheFree ≤ i
    · rw [decide_eq_false (not_lt.mpr low), Bool.and_false]
    · rw [decide_eq_false low, Bool.false_and]

end SectorRequests
