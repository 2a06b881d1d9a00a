import NtfsIsoMounter.GekkoIo
import NtfsIsoMounter.SectorRuns

/-!
# The device is an array of bytes

A read of bytes gives those of the volume under the device. A write changes those bytes and no
others, although it goes by whole sectors. Where it fails, bytes of the sectors it takes part in may
be spoilt, and no others.
-/

namespace GekkoDevice

open ByteMaps CellBlocks SectionTables SectorCache SectorCoherence SectorRequests SectorRuns GekkoIo

variable {m pages : Nat} {io : DiscInterface (Sector m)}

/-- The sectors under a device. -/
def sectors : Store m pages → Nat → Sector m
  | .cached cache => volume cache
  | .direct disc => disc.sectors

/-- The sectors that are on the disc. -/
def onDisc : Store m pages → Nat → Sector m
  | .cached cache => cache.disc.sectors
  | .direct disc => disc.sectors

/-- No page of a cache is changed. -/
def Settled : Store m pages → Prop
  | .cached cache => ∀ k, (cache.entries k).dirty = false
  | .direct _ => True

/-- The bytes of the partition. -/
def contents [NeZero m] (dev : NtfsDevice m pages) (a : Nat) : UInt8 :=
  cells (sectors dev.store) (dev.startSector * m + a)

/-- The disc is as it was outside of the partition, and a cache is coherent. -/
def StoreFits (start stop : Nat) (d : Nat → Sector m) : Store m pages → Prop
  | .cached cache => Mounted start stop d cache
  | .direct disc => ∀ i, i < start ∨ stop ≤ i → disc.sectors i = d i

/-- A device with a partition of a disc. -/
structure Plugged (start stop : Nat) (d : Nat → Sector m) (dev : NtfsDevice m pages) : Prop where
  starts : dev.startSector = start
  small : stop < 2 ^ 32
  store : StoreFits start stop d dev.store

variable {start stop : Nat} {d : Nat → Sector m}

section Sectors
variable {dev : NtfsDevice m pages} (plugged : Plugged start stop d dev)
include plugged

theorem readsectors_spec [NeZero pages] (keeps : KeepsBuffers io) {s k : Nat} (low : start ≤ s)
    (high : s + k ≤ stop) (buffer : Nat → Sector m) :
    ∃ ok dest store, readsectors io dev s k buffer = some (ok, dest, { dev with store := store }) ∧
      Plugged start stop d { dev with store := store } ∧ sectors store = sectors dev.store ∧
      (Settled dev.store → Settled store) ∧
      (∃ l ≤ k, dest = fill buffer 0 l (fun i => sectors dev.store (s + i)) ∧ (ok = true → l = k)) ∧
      (Works io → ok = true) := by
  obtain ⟨starts, small, fits⟩ := plugged
  rw [readsectors]
  generalize dev.store = store at fits
  cases store with
  | cached cache =>
    obtain ⟨r, ran, read⟩ := SectorRuns.readSectors_spec fits keeps low high buffer
    refine ⟨r.1, r.2.1, .cached r.2.2, ?_, ⟨starts, small, Mounted.keeps fits read.keeps⟩,
      read.keeps.volume, fun settled k => read.keeps.clean k (settled k), read.sectors,
      read.works⟩
    dsimp only
    rw [ran, Option.map_some]
  | direct disc =>
    have same := read_sectors io disc s k buffer
    have dest := read_buffer keeps disc s k buffer
    refine ⟨_, _, _, rfl, ⟨starts, small, fun i away => ?_⟩, same, fun _ => trivial, ?_,
      fun works => read_works works disc s k buffer⟩
    · exact (congrFun same i).trans (fits i away)
    · by_cases ok : (disc.read io s k buffer).1 = true
      · rw [if_pos ok] at dest
        exact ⟨k, le_rfl, dest, fun _ => rfl⟩
      · rw [if_neg ok] at dest
        refine ⟨0, Nat.zero_le k, ?_, fun wrong => absurd wrong ok⟩
        rw [fill_zero, dest]

variable (io) in
theorem writesectors_spec {s k : Nat} (low : start ≤ s) (high : s + k ≤ stop)
    (buffer : Nat → Sector m) :
    ∃ ok store, writesectors io dev s k buffer = some (ok, { dev with store := store }) ∧
      Plugged start stop d { dev with store := store } ∧
      (∃ moved, sectors store = fill (sectors dev.store) s k moved ∧ (ok = true → moved = buffer)) ∧
      (Works io → ok = true) := by
  obtain ⟨starts, small, fits⟩ := plugged
  rw [writesectors]
  generalize dev.store = store at fits
  cases store with
  | cached cache =>
    obtain ⟨r, ran, writes, later⟩ := SectorRuns.writeSectors_spec io fits low high buffer
    refine ⟨r.1, .cached r.2, ?_, ⟨starts, small, later⟩, ?_, writes.works⟩
    · dsimp only
      rw [ran, Option.map_some]
    · obtain ⟨j, l, moved, inside, behind, whole⟩ := writes.sectors
      cases ok : r.1 with
      | true =>
        have all := whole ok
        have none' : l = 0 := by omega
        rw [none', fill_zero, all] at behind
        exact ⟨buffer, behind, fun _ => rfl⟩
      | false =>
        refine ⟨_, fill_of_agree fun i away => ?_, fun wrong => absurd wrong Bool.false_ne_true⟩
        change volume r.2 i = volume cache i
        rw [behind, fill_outside _ _ (by omega), fill_outside _ _ (by omega)]
  | direct disc =>
    obtain ⟨moved, same, whole⟩ := write_fills io disc s k buffer
    refine ⟨_, _, rfl, ⟨starts, small, fun i away => ?_⟩, ⟨moved, same, whole⟩, fun works =>
      write_works works disc s k buffer⟩
    rw [same, fill_outside _ _ (by omega)]
    exact fits i away

end Sectors

/-! ## Spans of sectors -/

section Spans
variable [NeZero m]

/-- The sectors of some bytes: all of the bytes are in them and some of the last sector. -/
theorem secCount_spec {o count : Nat} (more : 0 < count)
    (small : (o % m + count + (m - 1)) / m < 2 ^ 32) :
    0 < secCount m (o % m) count ∧ o % m + count ≤ secCount m (o % m) count * m ∧
      (secCount m (o % m) count - 1) * m < o % m + count := by
  have positive := Nat.pos_of_neZero m
  have rest := Nat.mod_lt o positive
  rw [secCount]
  split
  · rw [u32_exact small]
    have division := Nat.div_add_mod (o % m + count + (m - 1)) m
    have rest' := Nat.mod_lt (o % m + count + (m - 1)) positive
    rw [Nat.mul_comm] at division
    refine ⟨Nat.div_pos (by omega) positive, by omega, ?_⟩
    rw [Nat.sub_mul, Nat.one_mul]
    omega
  · rw [Nat.one_mul, Nat.sub_self, Nat.zero_mul]
    omega

/-- Bytes of the partition are in sectors of the partition. -/
theorem span_within {dev : NtfsDevice m pages} (plugged : Plugged start stop d dev) {o count : Nat}
    (more : 0 < count) (inside : o + count ≤ (stop - start) * m) :
    secStart dev o = start + o / m ∧
      start + o / m + secCount m (o % m) count ≤ stop ∧ 0 < secCount m (o % m) count ∧
      o % m + count ≤ secCount m (o % m) count * m ∧
      (secCount m (o % m) count - 1) * m < o % m + count := by
  have positive := Nat.pos_of_neZero m
  have small := plugged.small
  have division := Nat.div_add_mod' o m
  have room : 0 < stop - start := by
    refine Nat.pos_of_ne_zero fun none' => ?_
    rw [none', Nat.zero_mul] at inside
    omega
  have last : ∀ n, (n - 1) * m < o % m + count → 0 < n → o / m + n ≤ stop - start := by
    intro n short some'
    have before : (o / m + (n - 1)) * m < (stop - start) * m := by
      rw [Nat.add_mul]
      omega
    have := Nat.lt_of_mul_lt_mul_right before
    omega
  have quotient : (o % m + count + (m - 1)) / m ≤ stop - start := by
    refine (Nat.le_add_left _ _).trans (last _ ?_ (Nat.div_pos (by omega) positive))
    have whole := Nat.div_add_mod' (o % m + count + (m - 1)) m
    rw [Nat.sub_mul, Nat.one_mul]
    omega
  obtain ⟨some', cover, short⟩ := secCount_spec (m := m) (o := o) more (by omega)
  have within := last _ short some'
  refine ⟨?_, by omega, some', cover, short⟩
  rw [secStart, plugged.starts, u32_exact (show o / m < 2 ^ 32 by omega),
    u32_exact (show start + o / m < 2 ^ 32 by omega)]

/-- Bytes that start and end with a sector are all of theirs. -/
theorem secs_exact {o count secs : Nat} (first : o % m = 0) (last : count % m = 0)
    (cover : o % m + count ≤ secs * m) (short : (secs - 1) * m < o % m + count) :
    secs * m = count := by
  have factor := Nat.div_mul_cancel (Nat.dvd_of_mod_eq_zero last)
  rw [first, Nat.zero_add, ← factor] at cover short
  have upper := Nat.le_of_mul_le_mul_right cover (Nat.pos_of_neZero m)
  have lower := Nat.lt_of_mul_lt_mul_right short
  have exact : count / m = secs := by omega
  rw [← exact, factor]

/-- A byte in none of the sectors of some bytes is not in the sectors that are stored for them. -/
theorem spared_sectors {o count secs a : Nat} (some' : 0 < secs)
    (short : (secs - 1) * m < o % m + count)
    (away : (a / m + 1) * m ≤ o ∨ o + count ≤ a / m * m) :
    a < o / m * m ∨ o / m * m + secs * m ≤ a := by
  have positive := Nat.pos_of_neZero m
  have division := Nat.div_add_mod' o m
  have place := Nat.div_add_mod' a m
  rcases away with below | above
  · have block := (Nat.le_div_iff_mul_le positive).mpr below
    have edge := Nat.mul_le_mul_right m block
    rw [Nat.add_mul] at edge
    have rest := Nat.mod_lt a positive
    omega
  · have past : (o / m + (secs - 1)) * m < a / m * m := by
      rw [Nat.add_mul]
      omega
    have block := Nat.lt_of_mul_lt_mul_right past
    have edge := Nat.mul_le_mul_right m (show o / m + secs ≤ a / m by omega)
    rw [Nat.add_mul] at edge
    omega

/-- Bytes of sectors from a sector on are those of the partition. -/
theorem cells_from {dev : NtfsDevice m pages} (plugged : Plugged start stop d dev) (q : Nat) :
    cells (fun i => sectors dev.store (start + q + i)) = fun a => contents dev (q * m + a) := by
  rw [cells_shift]
  funext a
  rw [contents, plugged.starts, Nat.add_mul, Nat.add_assoc]

/-- A store of sectors is one of the bytes of the partition. -/
theorem contents_fill {dev : NtfsDevice m pages} (plugged : Plugged start stop d dev)
    {store : Store m pages} {q k : Nat} {moved : Nat → Sector m}
    (behind : sectors store = fill (sectors dev.store) (start + q) k moved) :
    contents { dev with store := store } =
      fill (contents dev) (q * m) (k * m) (cells moved) := by
  funext a
  have seen := fill_shift (cells (sectors dev.store)) (start * m) (q * m) (k * m) (cells moved) a
  rw [← Nat.add_mul, ← cells_fill, ← behind] at seen
  rw [contents, plugged.starts, seen]
  unfold contents
  rw [plugged.starts]

theorem contents_congr (dev : NtfsDevice m pages) {store : Store m pages}
    (alike : sectors store = sectors dev.store) :
    contents { dev with store := store } = contents dev := by
  funext a
  unfold contents
  rw [alike]

end Spans

/-! ## Reads -/

section Reads
variable [NeZero m] [NeZero pages] {dev : NtfsDevice m pages}
  (plugged : Plugged start stop d dev)
include plugged

/-- A read of bytes gives those of the partition and leaves them as they are. -/
theorem readbytes_spec (keeps : KeepsBuffers io) (memory : Nat → UInt8) {offset count : Nat}
    (inside : offset + count ≤ (stop - start) * m) (buf : Nat → UInt8) :
    ∃ answer buf' store,
      readbytes io memory dev offset count buf = some (answer, buf', { dev with store := store }) ∧
      Plugged start stop d { dev with store := store } ∧
      contents { dev with store := store } = contents dev ∧ (Settled dev.store → Settled store) ∧
      (∃ l ≤ count, buf' = fill buf 0 l (fun i => contents dev (offset + i)) ∧
        (answer = .ok count ∧ l = count ∨ answer = .error .eio)) ∧
      (Works io → answer = .ok count) := by
  rw [readbytes, if_neg (by omega)]
  by_cases none' : count = 0
  · rw [if_pos none', none']
    refine ⟨_, _, dev.store, rfl, plugged, rfl, id, ⟨0, le_rfl, ?_, Or.inl ⟨rfl, rfl⟩⟩,
      fun _ => rfl⟩
    rw [fill_zero]
  · rw [if_neg none']
    obtain ⟨first, within, some', cover, short⟩ := span_within plugged (by omega) inside
    have division := Nat.div_add_mod' offset m
    dsimp only
    rw [Int.toNat_natCast, first]
    set secs := secCount m (offset % m) count
    by_cases straight : offset % m = 0 ∧ count % m = 0
    · rw [if_pos straight]
      obtain ⟨ok, dest, store, ran, plugged', alike, calm, ⟨l, le, moved, whole⟩, works⟩ :=
        readsectors_spec plugged keeps (Nat.le_add_right start (offset / m)) within (blocks buf)
      have all := secs_exact straight.1 straight.2 cover short
      have bytes : cells dest = fill buf 0 (l * m) (fun i => contents dev (offset + i)) := by
        rw [moved, cells_fill, cells_blocks, cells_from plugged, Nat.zero_mul]
        rw [straight.1, Nat.add_zero] at division
        rw [division]
      refine ⟨_, _, store, by rw [ran]; rfl, plugged', contents_congr dev alike, calm,
        ⟨l * m, all ▸ Nat.mul_le_mul_right m le, bytes, ?_⟩, fun all => if_pos (works all)⟩
      cases answered : ok with
      | true =>
        rw [whole answered]
        exact Or.inl ⟨rfl, all⟩
      | false => exact Or.inr rfl
    · rw [if_neg straight]
      obtain ⟨ok, dest, store, ran, plugged', alike, calm, ⟨l, le, moved, whole⟩, works⟩ :=
        readsectors_spec plugged keeps (Nat.le_add_right start (offset / m)) within (blocks memory)
      rw [ran, Option.map_some]
      cases answered : ok with
      | true =>
        refine ⟨_, _, store, rfl, plugged', contents_congr dev alike, calm,
          ⟨count, le_rfl, ?_, Or.inl ⟨rfl, rfl⟩⟩, fun _ => rfl⟩
        refine fill_congr _ _ fun i early => ?_
        have inner := fill_inside memory (a := 0) (fun a => contents dev (offset / m * m + a))
          (show offset % m + i < secs * m by omega)
        rw [moved, whole answered, cells_fill, cells_blocks, cells_from plugged, Nat.zero_mul,
          ← Nat.zero_add (offset % m + i), inner, ← Nat.add_assoc, division]
      | false =>
        refine ⟨_, _, store, rfl, plugged', contents_congr dev alike, calm,
          ⟨0, Nat.zero_le _, ?_, Or.inr rfl⟩,
          fun all => absurd (answered ▸ works all) Bool.false_ne_true⟩
        rw [fill_zero]

end Reads

/-! ## Writes -/

section Writes
variable [NeZero m] [NeZero pages] {dev : NtfsDevice m pages}
  (plugged : Plugged start stop d dev)
include plugged

theorem readEdge_spec (keeps : KeepsBuffers io) {q : Nat} (within : start + q < stop) (place : Nat)
    (buffer : Nat → UInt8) :
    ∃ ok buffer' store, readEdge io dev (start + q) place buffer =
        some (ok, buffer', { dev with store := store }) ∧
      Plugged start stop d { dev with store := store } ∧ sectors store = sectors dev.store ∧
      (ok = true → buffer' = fill buffer (place * m) m (fun a => contents dev (q * m + a))) ∧
      (Works io → ok = true) := by
  obtain ⟨ok, dest, store, ran, plugged', alike, calm, ⟨l, le, moved, whole⟩, works⟩ :=
    readsectors_spec plugged keeps (Nat.le_add_right start q) (show start + q + 1 ≤ stop by omega)
      (blocks fun i => buffer (place * m + i))
  refine ⟨ok, _, store, by rw [readEdge, ran]; rfl, plugged', alike, fun done => ?_, works⟩
  refine fill_congr _ _ fun i early => ?_
  have inner := fill_inside (fun i => buffer (place * m + i)) (a := 0)
    (fun a => contents dev (q * m + a)) (show i < 1 * m by omega)
  rw [moved, whole done, cells_fill, cells_blocks, cells_from plugged, Nat.zero_mul,
    ← Nat.zero_add i, inner, Nat.zero_add]

/-- What is in front of the bytes in their first sector is read. -/
theorem head_spec (keeps : KeepsBuffers io) (memory : Nat → UInt8) {offset : Nat}
    (within : start + offset / m < stop) :
    ∃ ok buffer store, (if offset % m ≠ 0 then
        readEdge io dev (start + offset / m) 0 memory else some (true, memory, dev)) =
        some (ok, buffer, { dev with store := store }) ∧
      Plugged start stop d { dev with store := store } ∧ sectors store = sectors dev.store ∧
      (ok = true → ∀ i < offset % m, buffer i = contents dev (offset / m * m + i)) ∧
      (Works io → ok = true) := by
  split
  · obtain ⟨ok, buffer, store, ran, plugged', alike, moved, works⟩ :=
      readEdge_spec plugged keeps within 0 memory
    refine ⟨ok, buffer, store, ran, plugged', alike, fun done i early => ?_, works⟩
    have rest := Nat.mod_lt offset (Nat.pos_of_neZero m)
    rw [moved done, fill, Nat.zero_mul, if_pos (by omega), Nat.sub_zero]
  · exact ⟨_, _, dev.store, rfl, plugged, rfl, fun _ i early => by omega, fun _ => rfl⟩

/-- What is behind the bytes in their last sector is read. -/
theorem tail_spec (keeps : KeepsBuffers io) {first : Nat → UInt8} {offset count secs : Nat}
    (within : start + offset / m + secs ≤ stop) (some' : 0 < secs)
    (short : (secs - 1) * m < offset % m + count)
    (front : ∀ i < offset % m, first i = contents dev (offset / m * m + i)) :
    ∃ ok buffer store, (if (offset % m + count) % m ≠ 0 then
        readEdge io dev (start + offset / m + (secs - 1)) (secs - 1) first
        else some (true, first, dev)) = some (ok, buffer, { dev with store := store }) ∧
      Plugged start stop d { dev with store := store } ∧ sectors store = sectors dev.store ∧
      (ok = true → ∀ i < secs * m, i < offset % m ∨ offset % m + count ≤ i →
        buffer i = contents dev (offset / m * m + i)) ∧
      (Works io → ok = true) := by
  have last : (secs - 1) * m + m = secs * m := by
    rw [← Nat.succ_mul]
    congr 1
    omega
  split
  · obtain ⟨ok, buffer, store, ran, plugged', alike, moved, works⟩ :=
      readEdge_spec plugged keeps (q := offset / m + (secs - 1)) (by omega) (secs - 1) first
    rw [← Nat.add_assoc] at ran
    refine ⟨ok, buffer, store, ran, plugged', alike, fun done i early edge => ?_, works⟩
    rw [moved done, fill]
    split
    · have place : (offset / m + (secs - 1)) * m + (i - (secs - 1) * m) = offset / m * m + i := by
        rw [Nat.add_mul]
        omega
      rw [place]
    · exact front i (by omega)
  · rename_i whole
    refine ⟨_, _, dev.store, rfl, plugged, rfl, fun _ i early edge => ?_, fun _ => rfl⟩
    have full : secs * m ≤ offset % m + count := by
      have factor := Nat.div_mul_cancel (Nat.dvd_of_mod_eq_zero (not_not.mp whole))
      rw [← factor] at short ⊢
      have lower := Nat.lt_of_mul_lt_mul_right short
      exact Nat.mul_le_mul_right m (by omega)
    exact front i (by omega)

/-- The sectors are read where the bytes do not fill them, so that only the bytes change. -/
theorem writeBuffered_spec (keeps : KeepsBuffers io) (memory : Nat → UInt8)
    {offset count secs : Nat}
    (within : start + offset / m + secs ≤ stop) (some' : 0 < secs)
    (cover : offset % m + count ≤ secs * m) (short : (secs - 1) * m < offset % m + count)
    (buf : Nat → UInt8) :
    ∃ ok store, writeBuffered io memory dev (start + offset / m) (offset % m) secs count buf =
        some (ok, { dev with store := store }) ∧
      Plugged start stop d { dev with store := store } ∧
      (∃ moved, contents { dev with store := store } =
        fill (contents dev) (offset / m * m) (secs * m) moved) ∧
      (ok = true →
        contents { dev with store := store } = fill (contents dev) offset count buf) ∧
      (Works io → ok = true) := by
  have small := plugged.small
  have division := Nat.div_add_mod' offset m
  have kept {store : Store m pages} (alike : sectors store = sectors dev.store) :
      ∃ moved, contents { dev with store := store } =
        fill (contents dev) (offset / m * m) (secs * m) moved :=
    ⟨_, fill_of_agree fun i _ => congrFun (contents_congr dev alike) i⟩
  obtain ⟨ok₁, first, store₁, ran₁, plugged₁, alike₁, front, works₁⟩ :=
    head_spec plugged keeps memory (show start + offset / m < stop by omega)
  rw [writeBuffered, ran₁, Option.bind_some]
  cases answered₁ : ok₁ with
  | false =>
    exact ⟨false, store₁, rfl, plugged₁, kept alike₁, fun wrong => absurd wrong Bool.false_ne_true,
      fun all => absurd (answered₁ ▸ works₁ all) Bool.false_ne_true⟩
  | true =>
    have unmoved := contents_congr dev alike₁
    obtain ⟨ok₂, buffer, store₂, ran₂, plugged₂, alike₂, edges, works₂⟩ :=
      tail_spec plugged₁ keeps within some' short (by rw [unmoved]; exact front answered₁)
    have alike := alike₂.trans alike₁
    rw [if_neg fun wrong => Bool.false_ne_true wrong.symm,
      u32_exact (show start + offset / m + (secs - 1) < 2 ^ 32 by omega), ran₂, Option.bind_some]
    cases answered₂ : ok₂ with
    | false =>
      exact ⟨false, store₂, rfl, plugged₂, kept alike,
        fun wrong => absurd wrong Bool.false_ne_true,
        fun all => absurd (answered₂ ▸ works₂ all) Bool.false_ne_true⟩
    | true =>
      obtain ⟨ok, store, ran, plugged', ⟨moved, behind, whole⟩, works⟩ :=
        writesectors_spec io plugged₂ (Nat.le_add_right start (offset / m)) within
          (blocks (fill buffer (offset % m) count buf))
      have written : contents { dev with store := store } =
          fill (contents dev) (offset / m * m) (secs * m) (cells moved) := by
        have stored := contents_fill plugged₂ behind
        rw [show contents _ = contents dev from contents_congr dev alike] at stored
        exact stored
      refine ⟨ok, store, ran, plugged', ⟨_, written⟩, fun done => ?_, works⟩
      rw [written, whole done, cells_blocks]
      funext a
      by_cases near : offset / m * m ≤ a ∧ a < offset / m * m + secs * m
      · rw [fill, if_pos near, fill, fill]
        by_cases own : offset ≤ a ∧ a < offset + count
        · have place : a - offset / m * m - offset % m = a - offset := by omega
          rw [if_pos (by omega), if_pos own, place]
        · rw [if_neg (by omega), if_neg own, edges answered₂ _ (by omega) (by omega), unmoved,
            Nat.add_sub_cancel' near.1]
      · rw [fill_outside _ _ (by omega), fill_outside _ _ (by omega)]

omit plugged [NeZero m] [NeZero pages] in
theorem Plugged.marked (plugged : Plugged start stop d dev) (dirty sync : Bool) :
    Plugged start stop d { dev with dirty := dirty, sync := sync } :=
  ⟨plugged.starts, plugged.small, plugged.store⟩

/-- A write that does not fail changes its bytes only, and one that fails no byte of a sector it
has no part in. -/
theorem writebytes_spec (keeps : KeepsBuffers io) (memory : Nat → UInt8)
    (writable : dev.readOnly = false) {offset count : Nat}
    (inside : offset + count ≤ (stop - start) * m) (buf : Nat → UInt8) :
    ∃ answer dirty store, writebytes io memory dev offset count buf =
        some (answer, { dev with dirty := dirty, store := store }) ∧
      (dev.dirty = true → dirty = true) ∧
      Plugged start stop d { dev with dirty := dirty, store := store } ∧
      (answer = .ok count ∧
          contents { dev with store := store } = fill (contents dev) offset count buf ∨
        answer = .error .eio ∧ ∀ a, (a / m + 1) * m ≤ offset ∨ offset + count ≤ a / m * m →
          contents { dev with store := store } a = contents dev a) ∧
      (Works io → answer = .ok count) := by
  rw [writebytes, if_neg (writable ▸ Bool.false_ne_true), if_neg (by omega)]
  by_cases none' : count = 0
  · rw [if_pos (by omega), none']
    refine ⟨_, dev.dirty, dev.store, rfl, id, plugged, Or.inl ⟨rfl, ?_⟩, fun _ => rfl⟩
    rw [fill_zero]
  · rw [if_neg (by omega)]
    obtain ⟨first, within, some', cover, short⟩ := span_within plugged (by omega) inside
    have division := Nat.div_add_mod' offset m
    dsimp only
    rw [Int.toNat_natCast, Int.toNat_natCast, first]
    set secs := secCount m (offset % m) count
    have sent : ∃ ok store, (if offset % m = 0 ∧ count % m = 0 then
          writesectors io dev (start + offset / m) secs (blocks buf)
        else writeBuffered io memory dev (start + offset / m) (offset % m) secs count buf) =
          some (ok, { dev with store := store }) ∧
        Plugged start stop d { dev with store := store } ∧
        (∃ moved, contents { dev with store := store } =
          fill (contents dev) (offset / m * m) (secs * m) moved) ∧
        (ok = true →
          contents { dev with store := store } = fill (contents dev) offset count buf) ∧
        (Works io → ok = true) := by
      split
      · rename_i straight
        obtain ⟨ok, store, ran, plugged', ⟨moved, behind, whole⟩, works⟩ :=
          writesectors_spec io plugged (Nat.le_add_right start (offset / m)) within
            (blocks buf)
        have stored := contents_fill plugged behind
        refine ⟨ok, store, ran, plugged', ⟨_, stored⟩, fun done => ?_, works⟩
        have all := secs_exact straight.1 straight.2 cover short
        have low : offset / m * m = offset := by omega
        rw [stored, whole done, cells_blocks, all, low]
      · exact writeBuffered_spec plugged keeps memory within some' cover short buf
    obtain ⟨ok, store, ran, plugged', ⟨moved, near⟩, written, works⟩ := sent
    rw [ran, Option.map_some]
    cases answered : ok with
    | true =>
      exact ⟨_, true, store, rfl, fun _ => rfl, plugged'.marked true dev.sync,
        Or.inl ⟨rfl, written answered⟩, fun _ => rfl⟩
    | false =>
      refine ⟨_, dev.dirty, store, rfl, id, plugged', Or.inr ⟨rfl, fun a away => ?_⟩,
        fun all => absurd (answered ▸ works all) Bool.false_ne_true⟩
      rw [near, fill_outside _ _ (spared_sectors some' short away)]

end Writes

/-! ## `device.c` -/

section Calls
variable [NeZero m] [NeZero pages] {dev : NtfsDevice m pages}
  (plugged : Plugged start stop d dev)
include plugged

omit plugged in
theorem preadLoop_done {turns : Nat} (fuel : 0 < turns) (memory : Nat → UInt8) (pos total : Nat)
    (b : Nat → UInt8) :
    preadLoop io memory pos turns dev total 0 b = some (.ok total, b, dev) := by
  obtain ⟨turns, rfl⟩ := Nat.exists_eq_succ_of_ne_zero fuel.ne'
  rw [preadLoop, if_pos rfl]

omit plugged in
theorem pwriteLoop_done {turns : Nat} (fuel : 0 < turns) (memory : Nat → UInt8) (pos total : Nat)
    (b : Nat → UInt8) :
    pwriteLoop io memory pos b turns dev total 0 = some (.ok total, dev) := by
  obtain ⟨turns, rfl⟩ := Nat.exists_eq_succ_of_ne_zero fuel.ne'
  rw [pwriteLoop, if_pos rfl]

theorem ntfsPread_spec (keeps : KeepsBuffers io) (memory : Nat → UInt8) {pos count : Nat}
    (inside : pos + count ≤ (stop - start) * m) (b : Nat → UInt8) :
    ∃ answer b' store,
      ntfsPread io memory dev pos count b = some (answer, b', { dev with store := store }) ∧
      Plugged start stop d { dev with store := store } ∧
      contents { dev with store := store } = contents dev ∧ (Settled dev.store → Settled store) ∧
      (∃ l ≤ count, b' = fill b 0 l (fun i => contents dev (pos + i)) ∧
        (answer = .ok count ∧ l = count ∨ answer = .error .eio)) ∧
      (Works io → answer = .ok count) := by
  rw [ntfsPread, if_neg (by omega), Int.toNat_natCast, Int.toNat_natCast]
  by_cases none' : count = 0
  · rw [none', preadLoop_done (Nat.succ_pos 0)]
    refine ⟨_, _, dev.store, rfl, plugged, rfl, id, ⟨0, le_rfl, ?_, Or.inl ⟨rfl, rfl⟩⟩,
      fun _ => rfl⟩
    rw [fill_zero]
  · have start' : (fun i => b (0 + i)) = b := funext fun i => congrArg b (Nat.zero_add i)
    obtain ⟨answer, buf', store, ran, plugged', same, calm, ⟨l, le, moved, answers⟩, works⟩ :=
      readbytes_spec plugged keeps memory inside b
    rw [preadLoop, if_neg none', Nat.add_zero, start', ran, Option.bind_some]
    have bytes : fill b 0 count buf' = fill b 0 l (fun i => contents dev (pos + i)) := by
      funext i
      rw [fill, Nat.sub_zero]
      by_cases read : i < count
      · rw [if_pos (by omega), moved]
      · rw [if_neg (by omega), fill_outside _ _ (by omega)]
    dsimp only
    rw [bytes]
    rcases answers with ⟨rfl, all⟩ | rfl
    · dsimp only
      rw [if_pos (by omega), Nat.zero_add, Nat.sub_self, preadLoop_done (Nat.pos_of_ne_zero none')]
      exact ⟨_, _, store, rfl, plugged', same, calm, ⟨l, le, rfl, Or.inl ⟨rfl, all⟩⟩, fun _ => rfl⟩
    · exact ⟨_, _, store, rfl, plugged', same, calm, ⟨l, le, rfl, Or.inr rfl⟩, fun all => by
        cases works all⟩

/-- A device that is not marked for it is not synced by a write. -/
theorem ntfsPwrite_spec (keeps : KeepsBuffers io) (memory : Nat → UInt8)
    (writable : dev.readOnly = false) (unsynced : dev.sync = false) {pos count : Nat}
    (inside : pos + count ≤ (stop - start) * m) (b : Nat → UInt8) :
    ∃ answer dirty store, ntfsPwrite io memory dev pos count b =
        some (returned answer, { dev with dirty := dirty, store := store }) ∧
      (0 < count → dirty = true) ∧ (count = 0 → dirty = dev.dirty ∧ store = dev.store) ∧
      Plugged start stop d { dev with dirty := dirty, store := store } ∧
      (answer = .ok count ∧
          contents { dev with store := store } = fill (contents dev) pos count b ∨
        answer = .error .eio ∧ ∀ a, (a / m + 1) * m ≤ pos ∨ pos + count ≤ a / m * m →
          contents { dev with store := store } a = contents dev a) ∧
      (Works io → answer = .ok count) := by
  rw [ntfsPwrite, if_neg (by omega)]
  by_cases none' : count = 0
  · rw [if_pos (by omega), none']
    refine ⟨.ok 0, dev.dirty, dev.store, rfl, fun wrong => absurd wrong (lt_irrefl 0),
      fun _ => ⟨rfl, rfl⟩, plugged, Or.inl ⟨rfl, ?_⟩, fun _ => rfl⟩
    rw [fill_zero]
  · have start' : (fun i => b (0 + i)) = b := funext fun i => congrArg b (Nat.zero_add i)
    obtain ⟨answer, dirty, store, ran, marked, plugged', answers, works⟩ :=
      writebytes_spec (plugged.marked true dev.sync) keeps memory writable inside b
    rw [if_neg (by omega), if_neg (writable ▸ Bool.false_ne_true), Int.toNat_natCast,
      Int.toNat_natCast, pwriteLoop, if_neg none', Nat.add_zero, start', ran, Option.bind_some]
    refine ⟨answer, dirty, store, ?_, fun _ => marked rfl, fun zero => absurd zero none', plugged',
      answers, works⟩
    rcases answers with ⟨rfl, -⟩ | ⟨rfl, -⟩
    · dsimp only
      rw [if_pos (by omega), Nat.zero_add, Nat.sub_self,
        pwriteLoop_done (Nat.pos_of_ne_zero none'), Option.map_some]
      dsimp only
      rw [if_neg (fun synced => absurd synced.1 (unsynced ▸ Bool.false_ne_true))]
    · dsimp only
      rw [if_neg (not_not.mpr rfl), Option.map_some]
      dsimp only
      rw [if_neg (fun synced => absurd synced.1 (unsynced ▸ Bool.false_ne_true))]

variable (io) in
omit [NeZero m] [NeZero pages] in
/-- A sync marks the device as clean, also where it fails. -/
theorem sync_spec (writable : dev.readOnly = false) :
    ∃ answer store,
      GekkoIo.sync io dev = (answer, { dev with dirty := false, sync := false, store := store }) ∧
      Plugged start stop d { dev with store := store } ∧ sectors store = sectors dev.store ∧
      (answer = .ok () ∧ Settled store ∨ answer = .error .eio) ∧ (Works io → answer = .ok ()) := by
  obtain ⟨starts, small, fits⟩ := plugged
  rw [GekkoIo.sync, if_neg (writable ▸ Bool.false_ne_true)]
  generalize dev.store = store at fits
  cases store with
  | cached cache =>
    obtain ⟨kept, clean, works⟩ := flush_spec io (Mounted.coherent fits)
    refine ⟨_, .cached (flush io cache).2, rfl, ⟨starts, small, Mounted.keeps fits kept⟩,
      kept.volume, ?_, fun all => if_pos (works all)⟩
    cases done : (flush io cache).1 with
    | true => exact Or.inl ⟨rfl, clean done⟩
    | false => exact Or.inr rfl
  | direct disc =>
    exact ⟨_, .direct disc, rfl, ⟨starts, small, fits⟩, rfl, Or.inl ⟨rfl, trivial⟩, fun _ => rfl⟩

omit [NeZero m] [NeZero pages] in
/-- Without a changed page the bytes are those on the disc. -/
theorem settled_onDisc (settled : Settled dev.store) : onDisc dev.store = sectors dev.store := by
  have fits := plugged.store
  generalize dev.store = store at settled fits
  cases store with
  | cached cache => exact settled_disc (Mounted.coherent fits) settled
  | direct disc => rfl

end Calls

end GekkoDevice
