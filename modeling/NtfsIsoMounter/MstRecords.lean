import NtfsIsoMounter.MstFixups

/-!
# What the protection of a record is worth

A record that is protected and read back is the record that was written. Blocks of different writes
of a record are found out as long as there are fewer writes than update sequence numbers, so that
what is accepted is one of the records that were written.
-/

namespace MstRecords

open GekkoIo MstFixups

/-! ## Numbers -/

theorem le16_lt (w : Word) : le16 w < 2 ^ 16 := by
  have low := UInt8.toNat_lt (w 0)
  have high := UInt8.toNat_lt (w 1)
  rw [le16]
  omega

theorem le16_cpuToLe16 {n : Nat} (small : n < 2 ^ 16) : le16 (cpuToLe16 n) = n := by
  have low : (cpuToLe16 n 0).toNat = n % 256 := UInt8.toNat_ofNat' ..
  have high : (cpuToLe16 n 1).toNat = n / 256 % 256 := UInt8.toNat_ofNat' ..
  rw [le16, low, high]
  omega

/-- The numbers go round from 1 to 0xfffe. -/
theorem le16_nextUsn (usn : Word) : le16 (nextUsn usn) =
    if le16 usn = 0 ∨ 0xfffe ≤ le16 usn then 1 else le16 usn + 1 := by
  have small := le16_lt usn
  rw [nextUsn, le16_cpuToLe16]
  · split
    · rename_i edge
      rw [if_pos (by omega)]
    · split
      · omega
      · omega
  · split
    · decide
    · omega

/-- The numbers of successive writes. -/
theorem le16_iterate (usn : Word) (t : Nat) : le16 (nextUsn^[t + 1] usn) =
    (le16 (nextUsn usn) - 1 + t) % 0xfffe + 1 ∧ 0 < le16 (nextUsn usn) ∧
      le16 (nextUsn usn) ≤ 0xfffe := by
  have small := le16_lt usn
  have first := le16_nextUsn usn
  have range : 0 < le16 (nextUsn usn) ∧ le16 (nextUsn usn) ≤ 0xfffe := by
    rw [first]
    split
    · omega
    · omega
  refine ⟨?_, range⟩
  induction t with
  | zero =>
    rw [Function.iterate_one]
    omega
  | succ t ih =>
    rw [Function.iterate_succ_apply', le16_nextUsn, ih]
    split
    · omega
    · omega

theorem iterate_ne {usn : Word} {s t : Nat} (ne : s ≠ t) (early : s < 0xfffe)
    (early' : t < 0xfffe) : nextUsn^[s + 1] usn ≠ nextUsn^[t + 1] usn := by
  intro same
  have first := le16_iterate usn s
  have second := le16_iterate usn t
  rw [same] at first
  omega

/-! ## Loops -/

theorem dataPos_injective : Function.Injective dataPos := by
  intro j k same
  rw [dataPos, dataPos] at same
  omega

theorem intact_iff {b : Nat → Word} {usn : Word} {n j : Nat} :
    intact b usn n j = true ↔ ∀ k, j ≤ k → k < j + n → b (dataPos k) = usn := by
  induction n generalizing j with
  | zero => exact ⟨fun _ k low high => by omega, fun _ => rfl⟩
  | succ n ih =>
    rw [intact, Bool.and_eq_true, decide_eq_true_iff, ih]
    constructor
    · rintro ⟨first, rest⟩ k low high
      by_cases same : k = j
      · rw [same, first]
      · exact rest k (by omega) (by omega)
    · exact fun all => ⟨all j le_rfl (by omega), fun k low high => all k (by omega) (by omega)⟩

section Loops
variable {pos n : Nat} {j : Nat} {b : Nat → Word}

theorem restore_other {i : Nat} (away : ∀ k, j ≤ k → k < j + n → i ≠ dataPos k) :
    restore pos n j b i = b i := by
  induction n generalizing j b with
  | zero => rfl
  | succ n ih =>
    rw [restore, ih fun k low high => away k (by omega) (by omega),
      Function.update_of_ne (away j le_rfl (by omega))]

theorem restore_data (room : pos + (j + n) < 255) {k : Nat} (low : j ≤ k) (high : k < j + n) :
    restore pos n j b (dataPos k) = b (pos + 1 + k) := by
  induction n generalizing j b with
  | zero => omega
  | succ n ih =>
    rw [restore]
    by_cases same : k = j
    · rw [restore_other fun l after _ other => by
        have := dataPos_injective other
        omega, same, Function.update_self]
    · rw [ih (by omega) (by omega) (by omega), Function.update_of_ne]
      rw [dataPos]
      omega

theorem protect_other {usn : Word} {i : Nat} (away : ∀ k, j ≤ k → k < j + n → i ≠ dataPos k)
    (array : i < pos + 1 + j ∨ pos + 1 + (j + n) ≤ i) : protect pos usn n j b i = b i := by
  induction n generalizing j b with
  | zero => rfl
  | succ n ih =>
    rw [protect, ih (fun k low high => away k (by omega) (by omega)) (by omega),
      Function.update_of_ne (away j le_rfl (by omega)), Function.update_of_ne (by omega)]

theorem protect_data {usn : Word} (room : pos + (j + n) < 255) {k : Nat} (low : j ≤ k)
    (high : k < j + n) : protect pos usn n j b (dataPos k) = usn := by
  induction n generalizing j b with
  | zero => omega
  | succ n ih =>
    rw [protect]
    by_cases same : k = j
    · rw [protect_other (fun l after _ other => by
        have := dataPos_injective other
        omega) (by rw [dataPos]; omega), same, Function.update_self]
    · exact ih (by omega) (by omega) (by omega)

theorem protect_array {usn : Word} (room : pos + (j + n) < 255) {k : Nat} (low : j ≤ k)
    (high : k < j + n) : protect pos usn n j b (pos + 1 + k) = b (dataPos k) := by
  induction n generalizing j b with
  | zero => omega
  | succ n ih =>
    rw [protect]
    by_cases same : k = j
    · rw [protect_other (fun l _ _ => by rw [dataPos]; omega) (by omega), same,
        Function.update_of_ne (by rw [dataPos]; omega), Function.update_self]
    · rw [ih (by omega) (by omega) (by omega),
        Function.update_of_ne fun other => same (dataPos_injective other),
        Function.update_of_ne (by rw [dataPos]; omega)]

end Loops

/-! ## Records -/

/-- A record that may be written: the array is behind the header and ends before the last word of
the first block. -/
structure Fits (b : Nat → Word) (size : Nat) : Prop where
  unmarked : (hasMagic b magicBaad || hasMagic b magicHole) = false
  checked : checked b size = true
  header : 4 ≤ usaPos b
  first : usaPos b + usaCount b < 255

theorem Fits.congr {b b' : Nat → Word} {size : Nat} (fits : Fits b size)
    (same : ∀ i < 4, b' i = b i) : Fits b' size := by
  have zero := same 0 (by decide)
  have one := same 1 (by decide)
  have two := same 2 (by decide)
  have three := same 3 (by decide)
  have ofs : usaOfs b' = usaOfs b := by rw [usaOfs, usaOfs, two]
  have count : usaCount b' = usaCount b := by rw [usaCount, usaCount, three]
  have pos : usaPos b' = usaPos b := by rw [usaPos, usaPos, ofs]
  refine ⟨?_, ?_, pos ▸ fits.header, ?_⟩
  · rw [hasMagic, hasMagic, zero, one]
    exact fits.unmarked
  · rw [MstFixups.checked, ofs, count]
    exact fits.checked
  · rw [pos, count]
    exact fits.first

/-- The record as it goes to the disc. -/
def written (b : Nat → Word) (size : Nat) : Nat → Word := (preWriteFixup b size).2

section Record
variable {b : Nat → Word} {size : Nat} (fits : Fits b size)
include fits

theorem Fits.count : usaCount b = size / 512 ∧ size = 512 * usaCount b := by
  have checked := fits.checked
  rw [MstFixups.checked, Bool.and_eq_true, Bool.and_eq_true, Bool.and_eq_true,
    decide_eq_true_iff, decide_eq_true_iff, decide_eq_true_iff, decide_eq_true_iff] at checked
  omega

theorem written_eq : written b size =
    protect (usaPos b) (nextUsn (b (usaPos b))) (usaCount b) 0
      (Function.update b (usaPos b) (nextUsn (b (usaPos b)))) := by
  rw [written, preWriteFixup, fits.unmarked, fits.checked, if_neg Bool.false_ne_true,
    if_neg fun wrong => Bool.false_ne_true wrong.symm]

theorem preWriteFixup_eq : preWriteFixup b size = (.ok (), written b size) := by
  rw [written_eq fits, preWriteFixup, fits.unmarked, fits.checked, if_neg Bool.false_ne_true,
    if_neg fun wrong => Bool.false_ne_true wrong.symm]

theorem written_usn : written b size (usaPos b) = nextUsn (b (usaPos b)) := by
  have first := fits.first
  rw [written_eq fits, protect_other (fun k _ _ => by rw [dataPos]; omega) (by omega),
    Function.update_self]

theorem written_data {k : Nat} (inside : k < usaCount b) :
    written b size (dataPos k) = nextUsn (b (usaPos b)) := by
  have first := fits.first
  rw [written_eq fits, protect_data (by omega) (by omega) (by omega)]

theorem written_array {k : Nat} (inside : k < usaCount b) :
    written b size (usaPos b + 1 + k) = b (dataPos k) := by
  have first := fits.first
  rw [written_eq fits, protect_array (by omega) (by omega) (by omega),
    Function.update_of_ne (by rw [dataPos]; omega)]

theorem written_other {i : Nat} (data : ∀ k < usaCount b, i ≠ dataPos k)
    (array : i < usaPos b ∨ usaPos b + usaCount b < i) : written b size i = b i := by
  rw [written_eq fits, protect_other (fun k _ high => data k (by omega)) (by omega),
    Function.update_of_ne (by omega)]

theorem written_header {i : Nat} (low : i < 4) : written b size i = b i := by
  have header := fits.header
  exact written_other fits (fun k _ => by rw [dataPos]; omega) (by omega)

theorem Fits.written : Fits (written b size) size := fits.congr fun _ low => written_header fits low

theorem written_geometry : usaPos (MstRecords.written b size) = usaPos b ∧
    usaCount (MstRecords.written b size) = usaCount b := by
  rw [usaPos, usaPos, usaOfs, usaOfs, usaCount, usaCount, written_header fits (by decide),
    written_header fits (by decide)]
  exact ⟨rfl, rfl⟩

/-- What is taken out of the array again is the record that was written. -/
theorem postWriteFixup_written {i : Nat} (array : i < usaPos b ∨ usaPos b + usaCount b < i) :
    postWriteFixup (MstRecords.written b size) i = b i := by
  obtain ⟨pos, count⟩ := written_geometry fits
  have first := fits.first
  rw [postWriteFixup, pos, count]
  by_cases data : ∃ k < usaCount b, i = dataPos k
  · obtain ⟨k, inside, rfl⟩ := data
    rw [restore_data (by omega) (by omega) (by omega), written_array fits inside]
  · have other : ∀ k < usaCount b, i ≠ dataPos k := fun k inside same => data ⟨k, inside, same⟩
    rw [restore_other fun k _ high => other k (by omega), written_other fits other array]

end Record

theorem intact_written {b : Nat → Word} {size : Nat} (fits : Fits b size) :
    intact (written b size) (written b size (usaPos (written b size)))
      (usaCount (written b size)) 0 = true := by
  obtain ⟨pos, count⟩ := written_geometry fits
  rw [intact_iff]
  intro k _ high
  rw [pos, written_usn fits, written_data fits (by omega)]

/-- A record that is written and read back is accepted; it is the same but for its array, and may be
written again. -/
theorem read_written {b : Nat → Word} {size : Nat} (fits : Fits b size) :
    (preWriteFixup b size).1 = .ok () ∧
      postReadFixup (written b size) size = (.ok (), postWriteFixup (written b size)) ∧
      (∀ i, i < usaPos b ∨ usaPos b + usaCount b < i → postWriteFixup (written b size) i = b i) ∧
      Fits (postWriteFixup (written b size)) size := by
  have header := fits.header
  refine ⟨by rw [preWriteFixup_eq fits], ?_, fun i => postWriteFixup_written fits,
    fits.congr fun i low => postWriteFixup_written fits (by omega)⟩
  rw [postReadFixup, fits.written.checked, if_neg fun wrong => Bool.false_ne_true wrong.symm,
    if_pos (intact_written fits)]
  rfl

theorem geometry_congr {b c : Nat → Word} (same : ∀ i < 4, c i = b i) :
    usaPos c = usaPos b ∧ usaCount c = usaCount b := by
  rw [usaPos, usaPos, usaOfs, usaOfs, usaCount, usaCount, same 2 (by decide), same 3 (by decide)]
  exact ⟨rfl, rfl⟩

/-- Only the words of a record count when the array is taken out of it, and only they change. -/
theorem postWriteFixup_congr {b c : Nat → Word} {size : Nat} (fits : Fits b size) (some' : 0 < size)
    (same : ∀ l < size / 2, c l = b l) {l : Nat} (early : l < size / 2) :
    postWriteFixup c l = postWriteFixup b l := by
  have first := fits.first
  have size' := fits.count
  obtain ⟨pos, count⟩ := geometry_congr fun i low => same i (by omega)
  rw [postWriteFixup, postWriteFixup, pos, count]
  by_cases data : ∃ k < usaCount b, l = dataPos k
  · obtain ⟨k, inside, rfl⟩ := data
    rw [restore_data (by omega) (by omega) (by omega),
      restore_data (by omega) (by omega) (by omega), same _ (by omega)]
  · have other : ∀ k, 0 ≤ k → k < 0 + usaCount b → l ≠ dataPos k := fun k _ high equal =>
      data ⟨k, by omega, equal⟩
    rw [restore_other other, restore_other other, same l early]

theorem postWriteFixup_late {b : Nat → Word} {size : Nat} (fits : Fits b size) {l : Nat}
    (late : size / 2 ≤ l) : postWriteFixup b l = b l := by
  have size' := fits.count
  rw [postWriteFixup, restore_other fun k _ high => by rw [dataPos]; omega]

/-- A record whose words are those of an intact one is accepted. -/
theorem postReadFixup_congr {b c : Nat → Word} {size : Nat} (fits : Fits b size) (some' : 0 < size)
    (same : ∀ l < size / 2, c l = b l) (whole : intact b (b (usaPos b)) (usaCount b) 0 = true) :
    postReadFixup c size = (.ok (), postWriteFixup c) := by
  have first := fits.first
  have size' := fits.count
  have low : ∀ i < 4, c i = b i := fun i early => same i (by omega)
  obtain ⟨pos, count⟩ := geometry_congr low
  have whole' : intact c (c (usaPos c)) (usaCount c) 0 = true := by
    rw [intact_iff] at whole ⊢
    intro k _ high
    rw [count] at high
    rw [pos, same (dataPos k) (by rw [dataPos]; omega), same (usaPos b) (by omega)]
    exact whole k (Nat.zero_le k) high
  rw [postReadFixup, (fits.congr low).checked, if_neg fun wrong => Bool.false_ne_true wrong.symm,
    if_pos whole']
  rfl

/-- A record of two blocks. -/
def fileRecord : Nat → Word
  | 0 => cpuToLe16 0x4946
  | 1 => cpuToLe16 0x454c
  | 2 => cpuToLe16 48
  | 3 => cpuToLe16 3
  | i => cpuToLe16 i

theorem fileRecord_fits : Fits fileRecord 1024 := ⟨by decide, by decide, by decide, by decide⟩

theorem fileRecord_read : (preWriteFixup fileRecord 1024).1 = .ok () ∧
    postReadFixup (written fileRecord 1024) 1024 =
      (.ok (), postWriteFixup (written fileRecord 1024)) ∧
    (∀ i, i < usaPos fileRecord ∨ usaPos fileRecord + usaCount fileRecord < i →
      postWriteFixup (written fileRecord 1024) i = fileRecord i) ∧
    Fits (postWriteFixup (written fileRecord 1024)) 1024 := read_written fileRecord_fits

/-! ## Torn writes -/

theorem hasMagic_setMagic (b : Nat → Word) (x : Magic) : hasMagic (setMagic b x) x = true := by
  rw [hasMagic, setMagic, Function.update_self, Function.update_of_ne Nat.zero_ne_one,
    Function.update_self, decide_eq_true rfl, decide_eq_true rfl, Bool.and_true]

/-- Successive writes of one record: each starts from the number that the one before it left. -/
structure Writes (r : Nat → Nat → Word) (size : Nat) : Prop where
  fits : ∀ t, Fits (r t) size
  place : ∀ t, usaPos (r t) = usaPos (r 0)
  number : ∀ t, r (t + 1) (usaPos (r 0)) = written (r t) size (usaPos (r 0))

/-- A record each block of which comes from one of the writes. -/
def mixed (r : Nat → Nat → Word) (size : Nat) (pick : Nat → Nat) (i : Nat) : Word :=
  written (r (pick (i / 256))) size i

section Torn
variable {r : Nat → Nat → Word} {size : Nat} (writes : Writes r size)
include writes

theorem Writes.number_eq (t : Nat) :
    r t (usaPos (r 0)) = nextUsn^[t] (r 0 (usaPos (r 0))) := by
  induction t with
  | zero => rfl
  | succ t ih =>
    have usn := written_usn (writes.fits t)
    rw [writes.place t] at usn
    rw [writes.number, usn, ih, Function.iterate_succ_apply']

omit writes in
theorem mixed_low {pick : Nat → Nat} {i : Nat} (low : i < 256) :
    mixed r size pick i = written (r (pick 0)) size i := by
  rw [mixed, Nat.div_eq_of_lt low]

theorem mixed_geometry (pick : Nat → Nat) : Fits (mixed r size pick) size ∧
    usaPos (mixed r size pick) = usaPos (r 0) ∧ usaCount (mixed r size pick) = size / 512 := by
  have fits := (writes.fits (pick 0)).written
  have same : ∀ i < 4, mixed r size pick i = written (r (pick 0)) size i := fun i low =>
    mixed_low (by omega)
  have fits' := fits.congr same
  refine ⟨fits', ?_, fits'.count.1⟩
  rw [usaPos, usaOfs, same 2 (by decide), written_header (writes.fits (pick 0)) (by decide)]
  exact writes.place (pick 0)

/-- The blocks of a record are accepted if and only if they come from one write. -/
theorem mixed_intact {pick : Nat → Nat} (few : ∀ k, pick k < 0xfffe) :
    intact (mixed r size pick) (mixed r size pick (usaPos (mixed r size pick)))
        (usaCount (mixed r size pick)) 0 = true ↔ ∀ k < size / 512, pick k = pick 0 := by
  obtain ⟨fits, pos, count⟩ := mixed_geometry writes pick
  have number (t : Nat) : nextUsn (r t (usaPos (r 0))) =
      nextUsn^[t + 1] (r 0 (usaPos (r 0))) := by
    rw [writes.number_eq, Function.iterate_succ_apply']
  have first : mixed r size pick (usaPos (r 0)) =
      nextUsn^[pick 0 + 1] (r 0 (usaPos (r 0))) := by
    have usn := written_usn (writes.fits (pick 0))
    rw [writes.place] at usn
    have early := (writes.fits 0).first
    rw [mixed_low (by omega), usn, number]
  have block {k : Nat} (inside : k < size / 512) :
      mixed r size pick (dataPos k) = nextUsn^[pick k + 1] (r 0 (usaPos (r 0))) := by
    have own : dataPos k / 256 = k := by
      rw [dataPos]
      omega
    have data := written_data (writes.fits (pick k)) (k := k)
      (by rw [(writes.fits (pick k)).count.1]; exact inside)
    rw [writes.place] at data
    rw [mixed, own, data, number]
  rw [intact_iff, pos, count, first]
  constructor
  · intro all k inside
    have same := all k (Nat.zero_le k) (by omega)
    rw [block inside] at same
    by_contra other
    exact iterate_ne other (few k) (few 0) same
  · intro all k _ high
    rw [block (by omega), all k (by omega)]

/-- A record whose blocks come from different writes is found out; one that is accepted is the
record of one write. -/
theorem torn_found {pick : Nat → Nat} (few : ∀ k, pick k < 0xfffe) :
    ((postReadFixup (mixed r size pick) size).1 = .ok () ↔ ∀ k < size / 512, pick k = pick 0) ∧
      ((postReadFixup (mixed r size pick) size).1 = .ok () → ∀ i < size / 2,
        (postReadFixup (mixed r size pick) size).2 i =
          postWriteFixup (written (r (pick 0)) size) i) ∧
      ((postReadFixup (mixed r size pick) size).1 ≠ .ok () →
        (postReadFixup (mixed r size pick) size).1 = .error .eio ∧
          hasMagic (postReadFixup (mixed r size pick) size).2 magicBaad = true) := by
  obtain ⟨fits, pos, count⟩ := mixed_geometry writes pick
  have whole := mixed_intact writes few
  rw [postReadFixup, fits.checked, if_neg fun wrong => Bool.false_ne_true wrong.symm]
  by_cases all : ∀ k < size / 512, pick k = pick 0
  · rw [if_pos (whole.mpr all)]
    refine ⟨⟨fun _ => all, fun _ => rfl⟩, fun _ i inside => ?_, fun wrong => absurd rfl wrong⟩
    have fits' := (writes.fits (pick 0)).written
    have one : ∀ l < size / 2, mixed r size pick l = written (r (pick 0)) size l := by
      intro l early
      have size' := fits.count
      rw [mixed, all (l / 256) (by omega)]
    have read := postWriteFixup_congr fits' (by omega) one inside
    rw [postWriteFixup] at read
    dsimp only
    exact read
  · rw [if_neg fun wrong => all (whole.mp wrong)]
    refine ⟨⟨fun wrong => absurd wrong (by simp), fun wrong => absurd wrong all⟩,
      fun wrong => absurd wrong (by simp), fun _ => ⟨rfl, ?_⟩⟩
    exact hasMagic_setMagic (mixed r size pick) magicBaad

end Torn

/-- A record that is written again and again as it is. -/
def rewritten (b : Nat → Word) (size : Nat) : Nat → Nat → Word
  | 0 => b
  | t + 1 => postWriteFixup (written (rewritten b size t) size)

theorem rewritten_writes {b : Nat → Word} {size : Nat} (fits : Fits b size) :
    Writes (rewritten b size) size := by
  have each (t : Nat) : Fits (rewritten b size t) size ∧
      usaPos (rewritten b size t) = usaPos b := by
    induction t with
    | zero => exact ⟨fits, rfl⟩
    | succ t ih =>
      have same : ∀ i < 4, rewritten b size (t + 1) i = rewritten b size t i := fun i low => by
        have header := ih.1.header
        exact postWriteFixup_written ih.1 (by omega)
      exact ⟨ih.1.congr same, (geometry_congr same).1.trans ih.2⟩
  refine ⟨fun t => (each t).1, fun t => (each t).2, fun t => ?_⟩
  obtain ⟨fits', place⟩ := each t
  obtain ⟨pos, count⟩ := written_geometry fits'
  have first := fits'.first
  change postWriteFixup (written (rewritten b size t) size) (usaPos b) = _
  rw [postWriteFixup, restore_other fun k _ _ => by rw [dataPos]; omega]
  rfl

theorem fileRecord_torn : (postReadFixup (mixed (rewritten fileRecord 1024) 1024 (· % 2)) 1024).1 =
    .error .eio := by
  have few : ∀ k, k % 2 < 0xfffe := fun k => by omega
  obtain ⟨whole, -, spoilt⟩ := torn_found (rewritten_writes fileRecord_fits) few
  refine (spoilt fun ok => ?_).1
  exact absurd (whole.mp ok 1 (by decide)) (by decide)

end MstRecords
