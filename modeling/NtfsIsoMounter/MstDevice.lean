import NtfsIsoMounter.MstRecords
import NtfsIsoMounter.DeviceRuns

/-!
# Records on a device

Records that are written to a device are read from it again as they were left in the buffer they
were written from. The device itself holds them in their protected form.
-/

namespace MstDevice

open ByteMaps CellBlocks SectorCache SectorRequests GekkoIo GekkoDevice MstFixups MstRecords

/-! ## Buffers of records -/

section Buffers
variable {bksize : Nat} {b : Nat → UInt8}

theorem recordAt_putRecord (b : Nat → UInt8) (base : Nat) (w : Nat → Word) :
    recordAt (putRecord b base w) base = w := by
  have own : (fun a => putRecord b base w (base + a)) = cells w := by
    funext a
    rw [putRecord, if_neg (by omega), Nat.add_sub_cancel_left]
  rw [recordAt, own, blocks_cells]

/-- A record that is changed in its own words only leaves the other bytes as they are. -/
theorem putRecord_other {base a : Nat} {w : Nat → Word}
    (own : ∀ l, bksize / 2 ≤ l → w l = recordAt b base l) (even : bksize % 2 = 0)
    (away : a < base ∨ base + bksize ≤ a) : putRecord b base w a = b a := by
  rw [putRecord]
  split
  · rfl
  · rename_i behind
    have late : bksize / 2 ≤ (a - base) / 2 := by omega
    rw [cells, own _ late, recordAt, blocks]
    congr 1
    change base + ((a - base) / 2 * 2 + (a - base) % 2) = a
    omega

theorem recordAt_congr {c : Nat → UInt8} {base l : Nat}
    (same : ∀ a, base + 2 * l ≤ a → a < base + 2 * l + 2 → c a = b a) :
    recordAt c base l = recordAt b base l := by
  funext j
  have low := j.isLt
  exact same _ (by omega) (by omega)

/-- Buffers with the same words of records are the same. -/
theorem eq_of_records {c : Nat → UInt8} {count : Nat} (even : bksize % 2 = 0) (some' : 0 < bksize)
    (same : ∀ k < count, ∀ l < bksize / 2,
      recordAt c (k * bksize) l = recordAt b (k * bksize) l) {a : Nat}
    (early : a < count * bksize) : c a = b a := by
  have division := Nat.div_add_mod' a bksize
  have rest := Nat.mod_lt a some'
  have record := (Nat.div_lt_iff_lt_mul some').mpr early
  have word := congrFun (same _ record (a % bksize / 2) (by omega)) (Fin.ofNat 2 (a % bksize))
  have place : a / bksize * bksize + (a % bksize / 2 * 2 + a % bksize % 2) = a := by omega
  change c (_ + (_ + a % bksize % 2)) = b (_ + (_ + a % bksize % 2)) at word
  rwa [place] at word

/-- The records behind a record are not changed with it. -/
theorem recordAt_later {i k : Nat} {w : Nat → Word}
    (own : ∀ l, bksize / 2 ≤ l → w l = recordAt b (i * bksize) l) (even : bksize % 2 = 0)
    (behind : i < k) :
    recordAt (putRecord b (i * bksize) w) (k * bksize) = recordAt b (k * bksize) := by
  have past := Nat.mul_le_mul_right bksize (Nat.succ_le_of_lt behind)
  rw [Nat.succ_mul] at past
  funext l
  exact recordAt_congr fun a low _ => putRecord_other own even (by omega)

/-- A loop over records changes each of them by itself. -/
theorem overRecords_spec (f : (Nat → Word) → Nat → Word) (even : bksize % 2 = 0) {n i : Nat}
    (own : ∀ k, i ≤ k → k < i + n → ∀ l, bksize / 2 ≤ l →
      f (recordAt b (k * bksize)) l = recordAt b (k * bksize) l) :
    (∀ a, a < i * bksize ∨ (i + n) * bksize ≤ a → overRecords f bksize n i b a = b a) ∧
      ∀ k, i ≤ k → k < i + n → ∀ l < bksize / 2,
        recordAt (overRecords f bksize n i b) (k * bksize) l = f (recordAt b (k * bksize)) l := by
  induction n generalizing i b with
  | zero => exact ⟨fun _ _ => rfl, fun k low high => by omega⟩
  | succ n ih =>
    have next : (i + 1) * bksize = i * bksize + bksize := Nat.succ_mul i bksize
    have ends : (i + 1 + n) * bksize = (i + (n + 1)) * bksize := by
      congr 1
      omega
    have first := own i le_rfl (by omega)
    have later {k : Nat} (behind : i < k) := recordAt_later first even behind
    obtain ⟨outside, inside⟩ :=
      ih (i := i + 1) (b := putRecord b (i * bksize) (f (recordAt b (i * bksize))))
        fun k low high => by
          rw [later low]
          exact own k (by omega) (by omega)
    have past := Nat.mul_le_mul_right bksize (show i + 1 ≤ i + (n + 1) by omega)
    rw [overRecords]
    refine ⟨fun a away => ?_, fun k low high l early => ?_⟩
    · rw [outside a (by omega), putRecord_other first even (by omega)]
    · by_cases same : k = i
      · have here : recordAt (overRecords f bksize n (i + 1)
          (putRecord b (i * bksize) (f (recordAt b (i * bksize))))) (i * bksize) l = _ :=
        recordAt_congr fun a _ high => outside a (by omega)
        rw [same, here, recordAt_putRecord]
      · rw [inside k (by omega) (by omega) l early, later (by omega)]

/-- Only the words of a record change when it is prepared. -/
theorem written_late {w : Nat → Word} (fits : Fits w bksize) (some' : 0 < bksize) {l : Nat}
    (late : bksize / 2 ≤ l) : written w bksize l = w l := by
  have first := fits.first
  have size := fits.count
  exact written_other fits (fun k inside => by rw [dataPos]; omega) (by omega)

/-- Records that may be written are all prepared. -/
theorem prepare_eq (even : bksize % 2 = 0) (some' : 0 < bksize) {n i : Nat}
    (fits : ∀ k, i ≤ k → k < i + n → Fits (recordAt b (k * bksize)) bksize) :
    prepare bksize n i b = (i + n, overRecords (fun w => written w bksize) bksize n i b) := by
  induction n generalizing i b with
  | zero => rfl
  | succ n ih =>
    have first := fits i le_rfl (by omega)
    rw [prepare, preWriteFixup_eq first, overRecords]
    dsimp only
    rw [ih fun k low high => by
      rw [recordAt_later (fun l => written_late first some') even low]
      exact fits k (by omega) (by omega)]
    congr 1
    omega

end Buffers

/-! ## The device -/

section Device
variable {m pages : Nat} [NeZero m] [NeZero pages] {io : DiscInterface (Sector m)}
  {start stop : Nat} {d : Nat → Sector m} {dev : NtfsDevice m pages}

/-- The buffer that records are left in when they have been written. -/
def leftIn (bksize count : Nat) (b : Nat → UInt8) : Nat → UInt8 :=
  overRecords postWriteFixup bksize count 0
    (overRecords (fun w => written w bksize) bksize count 0 b)

section Left
variable {bksize count : Nat} {b : Nat → UInt8} (sized : bksize % 512 = 0) (some' : 0 < bksize)
  (fits : ∀ k < count, Fits (recordAt b (k * bksize)) bksize)
include sized some' fits

/-- What goes to the device are the records in their protected form. -/
theorem prepared_record {k : Nat} (inside : k < count) {l : Nat} (early : l < bksize / 2) :
    recordAt (overRecords (fun w => written w bksize) bksize count 0 b) (k * bksize) l =
      written (recordAt b (k * bksize)) bksize l :=
  (overRecords_spec (fun w => written w bksize) (by omega) fun k _ high _ late =>
    written_late (fits k (by omega)) some' late).2 k (Nat.zero_le k) (by omega) l early

/-- What is left in the buffer are the records, but for their arrays. -/
theorem leftIn_record {k : Nat} (inside : k < count) {l : Nat} (early : l < bksize / 2) :
    recordAt (leftIn bksize count b) (k * bksize) l =
      postWriteFixup (written (recordAt b (k * bksize)) bksize) l := by
  have fits' {k : Nat} (inside : k < count) :
      Fits (recordAt (overRecords (fun w => written w bksize) bksize count 0 b) (k * bksize))
        bksize :=
    (fits k inside).written.congr fun i low =>
      prepared_record sized some' fits inside (by omega)
  have left := (overRecords_spec (n := count) (i := 0)
    (b := overRecords (fun w => written w bksize) bksize count 0 b) postWriteFixup
    (show bksize % 2 = 0 by omega) fun k _ high _ late =>
      postWriteFixup_late (fits' (show k < count by omega)) late).2
  rw [leftIn, left k (Nat.zero_le k) (by omega) l early]
  exact postWriteFixup_congr (fits k inside).written some'
    (fun _ early => prepared_record sized some' fits inside early) early

end Left

omit [NeZero m] [NeZero pages] in
/-- Whole records are counted. -/
theorem blocks_written {count bksize : Nat} (some' : 0 < count) (more : 0 < bksize)
    (b : Nat → UInt8) (dev : NtfsDevice m pages) :
    (if (returned (.ok (count * bksize))).1 ≤ 0 then (returned (.ok (count * bksize)), b, dev)
      else (((returned (.ok (count * bksize))).1 / bksize, (returned (.ok (count * bksize))).2), b,
        dev)) = (((count : Int), none), b, dev) := by
  have positive := Nat.mul_pos some' more
  have value : (returned (.ok (count * bksize))).1 = ((count * bksize : Nat) : Int) := rfl
  have quotient : ((count * bksize : Nat) : Int) / (bksize : Int) = count := by
    rw [← Int.natCast_div, Nat.mul_div_cancel _ more]
  rw [value, if_neg (by omega), quotient]
  rfl

/-- Records that are written are read again as they were left, and no other byte changes. -/
theorem records_round_trip (plugged : Plugged start stop d dev) (works : Works io)
    (memory : Nat → UInt8) (writable : dev.readOnly = false) (unsynced : dev.sync = false)
    {pos count bksize : Nat} (some' : 0 < count) (power : bksize &&& (bksize - 1) = 0)
    (sized : bksize % 512 = 0) (more : 0 < bksize)
    (inside : pos + count * bksize ≤ (stop - start) * m) {b : Nat → UInt8}
    (fits : ∀ k < count, Fits (recordAt b (k * bksize)) bksize) :
    ∃ b' dev', ntfsMstPwrite io memory dev pos count bksize b =
        some (((count : Int), none), b', dev') ∧
      (∀ k < count, ∀ l < bksize / 2, recordAt b' (k * bksize) l =
          postWriteFixup (written (recordAt b (k * bksize)) bksize) l) ∧
      (∀ a, a < pos ∨ pos + count * bksize ≤ a → contents dev' a = contents dev a) ∧
      ∀ c, ∃ c' dev'', ntfsMstPread io memory dev' pos count bksize c =
        some (.ok count, c', dev'') ∧ ∀ a < count * bksize, c' a = b' a := by
  have even : bksize % 2 = 0 := by omega
  obtain ⟨answer, dirty, store, ran, -, -, plugged', answers, works'⟩ :=
    ntfsPwrite_spec plugged works.keepsBuffers memory writable unsynced inside
      (overRecords (fun w => written w bksize) bksize count 0 b)
  obtain rfl := works' works
  have stored : contents { dev with store := store } = fill (contents dev) pos (count * bksize)
      (overRecords (fun w => written w bksize) bksize count 0 b) := by
    rcases answers with ⟨-, stored⟩ | ⟨wrong, -⟩
    · exact stored
    · cases wrong
  refine ⟨leftIn bksize count b, { dev with dirty := dirty, store := store }, ?_,
    fun k early l => leftIn_record sized more fits early, fun a away => ?_, fun c => ?_⟩
  · rw [ntfsMstPwrite, if_neg (by omega), if_neg (by omega), Int.toNat_natCast,
      prepare_eq even more fun k _ high => fits k (by omega), Nat.zero_add]
    dsimp only
    rw [if_neg (by omega), ran, Option.map_some]
    exact congrArg some (blocks_written some' more (leftIn bksize count b) _)
  · change contents { dev with store := store } a = contents dev a
    rw [stored, fill_outside _ _ away]
  · obtain ⟨answer, c₁, store', ran', -, -, -, ⟨read, -, moved, answers'⟩, works''⟩ :=
      ntfsPread_spec plugged' works.keepsBuffers memory inside c
    obtain rfl := works'' works
    have all : read = count * bksize := by
      rcases answers' with ⟨-, all⟩ | wrong
      · exact all
      · cases wrong
    have bytes : ∀ a < count * bksize,
        c₁ a = overRecords (fun w => written w bksize) bksize count 0 b a := by
      intro a early
      have inner := fill_inside (contents dev) (a := pos)
        (overRecords (fun w => written w bksize) bksize count 0 b) early
      rw [moved, all, fill, if_pos (by omega), Nat.sub_zero]
      change contents { dev with store := store } (pos + a) = _
      rw [stored, inner]
    have record {k : Nat} (early : k < count) : ∀ l < bksize / 2,
        recordAt c₁ (k * bksize) l = written (recordAt b (k * bksize)) bksize l := by
      intro l low
      rw [← prepared_record sized more fits early low]
      refine recordAt_congr fun a _ high => bytes a ?_
      have past := Nat.mul_le_mul_right bksize (Nat.succ_le_of_lt early)
      rw [Nat.succ_mul] at past
      omega
    have accepted {k : Nat} (early : k < count) := postReadFixup_congr (fits k early).written more
      (record early) (intact_written (fits k early))
    have own : ∀ k, 0 ≤ k → k < 0 + count → ∀ l, bksize / 2 ≤ l →
        (postReadFixup (recordAt c₁ (k * bksize)) bksize).2 l = recordAt c₁ (k * bksize) l := by
      intro k _ high l late
      have fits' := (fits k (by omega)).written.congr fun i low =>
        record (show k < count by omega) i (by omega)
      rw [accepted (by omega)]
      dsimp only
      exact postWriteFixup_late fits' late
    obtain ⟨-, read'⟩ := overRecords_spec (fun w => (postReadFixup w bksize).2)
      even own
    refine ⟨overRecords (fun w => (postReadFixup w bksize).2) bksize count 0 c₁,
      { dev with dirty := dirty, store := store' }, ?_,
      fun _ => eq_of_records even more fun k low l word => ?_⟩
    · rw [ntfsMstPread, if_neg (by omega), ← Nat.cast_mul, ran', Option.map_some]
      dsimp only
      rw [Nat.mul_div_cancel _ more]
    · rw [read' k (Nat.zero_le k) (by omega) l word, leftIn_record sized more fits low word,
        accepted low]
      dsimp only
      exact postWriteFixup_congr (fits k low).written more (record low) word

end Device

/-- A word has bytes. -/
theorem word_bytes : NeZero 2 := ⟨two_ne_zero⟩

/-- Records of 1024 bytes, each with the header of a file record and numbers behind it. -/
def fileWords (i : Nat) : Word :=
  if i % 512 < 4 then fileRecord (i % 512) else cpuToLe16 i

def fileBytes : Nat → UInt8 := @cells UInt8 2 word_bytes fileWords

theorem recordAt_fileBytes (k : Nat) :
    recordAt fileBytes (k * 1024) = fun i => fileWords (k * 512 + i) := by
  have shifted := @cells_shift UInt8 2 word_bytes fileWords (k * 512)
  rw [Nat.mul_assoc] at shifted
  rw [recordAt, fileBytes, ← shifted, blocks_cells]

theorem fileBytes_fits : ∀ k < 3, Fits (recordAt fileBytes (k * 1024)) 1024 := by
  intro k _
  refine fileRecord_fits.congr fun i low => ?_
  have place : (k * 512 + i) % 512 = i := by omega
  rw [recordAt_fileBytes]
  show (if (k * 512 + i) % 512 < 4 then _ else _) = _
  rw [place, if_pos low]

/-- Three records are written and read. -/
theorem fileBytes_round_trip : ∃ b' dev',
    ntfsMstPwrite ⟨fun _ => .done, fun _ => .done⟩ (fun _ => 0)
      (openDevice 8 64 63 100 (fun _ _ _ => 0) 0 DeviceRuns.blank) (4096 : Nat) (3 : Nat) 1024
      fileBytes = some ((((3 : Nat) : Int), none), b', dev') ∧
    (∀ k < 3, ∀ l < 1024 / 2, recordAt b' (k * 1024) l =
      postWriteFixup (written (recordAt fileBytes (k * 1024)) 1024) l) ∧
    (∀ a, a < 4096 ∨ 4096 + 3 * 1024 ≤ a → contents dev' a =
      contents (openDevice 8 64 63 100 (fun _ _ _ => 0) 0 DeviceRuns.blank) a) ∧
    ∀ c, ∃ c' dev'', ntfsMstPread ⟨fun _ => .done, fun _ => .done⟩ (fun _ => 0) dev' (4096 : Nat)
      (3 : Nat) 1024 c = some (.ok 3, c', dev'') ∧ ∀ a < 3 * 1024, c' a = b' a := by
  have room : 63 + 100 + max 64 32 < 2 ^ 32 := by decide
  obtain ⟨running, -⟩ := DeviceRuns.openDevice_running 8 (fun _ _ _ => 0) 0 DeviceRuns.blank room
  have works : Works (⟨fun _ => .done, fun _ => .done⟩ : DiscInterface (Sector 512)) :=
    fun _ => ⟨rfl, rfl⟩
  have inside : 4096 + 3 * 1024 ≤ (63 + 100 - 63) * 512 := by decide
  have some' : 0 < 3 := by decide
  exact records_round_trip running.plugged works (fun _ => 0) rfl rfl some'
    (show 1024 &&& (1024 - 1) = 0 by decide) (by decide) (by decide) inside fileBytes_fits

end MstDevice
