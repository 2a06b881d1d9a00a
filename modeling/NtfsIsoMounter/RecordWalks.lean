import NtfsIsoMounter.DirectoryRecords

/-!
# The loops over the records of a directory

`fixDirLba` and `findDirRecord` move a pointer from record to record. Where a sector ends they know
from a variable of 32 bits that is moved along with the pointer. On the records of a directory,
which do not reach the end of their sectors, both loops end behind the last record and meet every
record once.
-/

namespace RecordWalks

open ByteOrder SectorPacking DirectoryRecords

/-! ## The loops -/

/-- The variables of a loop: how far `p` is behind `buf`, and `pos`. -/
structure Walk where
  p : Nat
  pos : UInt32
  size : Nat
  buf : List UInt8

def Walk.start (content : List UInt8) : Walk := ⟨0, 0, content.length, content⟩

/-- Both variables are moved. -/
def Walk.advance (w : Walk) (n : UInt32) : Walk := { w with p := w.p + n.toNat, pos := w.pos + n }

/-- `current->len_dr` -/
def Walk.lenDr (w : Walk) : UInt8 := w.buf.getD w.p 0

/-- The head of a loop, up to the record it works on; none where the loop is left. -/
def Walk.next (w : Walk) : Option Walk :=
  if w.size ≤ w.p then none
  else if w.lenDr = 0 then
    let w := w.advance (0x800 - (w.pos &&& 0x7ff))
    if w.size ≤ w.p then none else if w.lenDr = 0 then none else some w
  else some w

/-- The turns of `fixDirLba`; without a result as long as it goes on. -/
def fixTurns (dirLba filesLba : Nat) : Nat → Walk → Option (List UInt8)
  | 0, _ => none
  | n + 1, w =>
    match w.next with
    | none => some w.buf
    | some w =>
      let buf := w.buf.take w.p ++ fixRecord dirLba filesLba (w.buf.drop w.p)
      let w := { w with buf := buf }
      fixTurns dirLba filesLba n (w.advance w.lenDr.toUInt32)

/-- The turns of `findDirRecord`, which returns a pointer or NULL. -/
def findTurns (key : List UInt8) : Nat → Walk → Option (Option Nat)
  | 0, _ => none
  | n + 1, w =>
    match w.next with
    | none => some none
    | some w =>
      if hasIdent key (w.buf.drop w.p) then some (some w.p)
      else findTurns key n (w.advance w.lenDr.toUInt32)

/-! ## The variables -/

/-- `pos` is the distance of `p`, cut to its 32 bits. -/
def Walk.InStep (w : Walk) : Prop := w.pos.toNat = w.p % 2 ^ 32

theorem Walk.lenDr_of_drop {w : Walk} {b : UInt8} {more : List UInt8}
    (here : w.buf.drop w.p = b :: more) : w.lenDr = b ∧ w.p < w.buf.length := by
  have first : w.buf[w.p]? = some b := by
    rw [← Nat.add_zero w.p, ← List.getElem?_drop, here]
    rfl
  constructor
  · rw [lenDr, List.getD_eq_getElem?_getD, first, Option.getD_some]
  · exact (List.getElem?_eq_some_iff.mp first).1

theorem Walk.drop_getD (w : Walk) : (w.buf.drop w.p).getD 0 0 = w.lenDr := by
  rw [List.getD_eq_getElem?_getD, List.getElem?_drop, Nat.add_zero, ← List.getD_eq_getElem?_getD,
    lenDr]

/-- A record says how far it is to the end of it. -/
theorem Walk.lenDr_record {w : Walk} {front r more : List UInt8} (at' : front.length = w.p)
    (buf : w.buf = front ++ (r ++ more)) (record : IsRecord r) : w.lenDr.toNat = r.length := by
  rw [← w.drop_getD, buf, List.drop_left' at', record.first_byte more]

@[simp] theorem Walk.advance_size (w : Walk) (n : UInt32) : (w.advance n).size = w.size := rfl

@[simp] theorem Walk.advance_buf (w : Walk) (n : UInt32) : (w.advance n).buf = w.buf := rfl

theorem Walk.advance_lenDr (w : Walk) :
    (w.advance w.lenDr.toUInt32).p = w.p + w.lenDr.toNat := by
  rw [advance, UInt8.toNat_toUInt32]

/-- From the end of one record to the next one. -/
structure Walk.Reaches (w w' : Walk) : Prop where
  inStep : w'.InStep
  size : w'.size = w.size
  buf : w'.buf = w.buf
  found : nextDirRecord w.p (w.buf.drop w.p) = some (w'.p, w.buf.drop w'.p)
  lenDr : 0 < w'.lenDr.toNat
  forward : w.p ≤ w'.p
  inside : w'.p < w.size

section InStep
variable {w : Walk} (inStep : w.InStep)
include inStep

theorem Walk.InStep.advance (n : UInt32) : (w.advance n).InStep := by
  rw [InStep] at inStep ⊢
  rw [Walk.advance, UInt32.toNat_add, inStep, Nat.mod_add_mod]

/-- The way to the next sector does not depend on the bits that are cut. -/
theorem Walk.InStep.skip :
    (0x800 - (w.pos &&& 0x7ff)).toNat = sectorSize - w.p % sectorSize := by
  have low : (w.pos &&& 0x7ff).toNat = w.p % 0x800 := by
    have mask : (0x7ff : UInt32).toNat = 2 ^ 11 - 1 := rfl
    rw [UInt32.toNat_and, mask, Nat.and_two_pow_sub_one_eq_mod, inStep]
    omega
  rw [UInt32.toNat_sub_of_le _ _ (by
    rw [UInt32.le_iff_toNat_le, low]
    exact (Nat.mod_lt _ (by decide)).le), low]
  rfl

/-- The head of a loop ends it where no record follows, and moves on to the next one otherwise. -/
theorem Walk.InStep.next_cases (sized : w.buf.length = w.size) :
    (w.next = none ∧ nextDirRecord w.p (w.buf.drop w.p) = none) ∨
      ∃ w', w.next = some w' ∧ w.Reaches w' := by
  have visible (b : UInt8) : b.toNat ≠ 0 ↔ b ≠ 0 := not_congr (UInt8.toNat_inj (b := 0))
  cases here : w.buf.drop w.p with
  | nil =>
    have past : w.size ≤ w.p := sized ▸ List.drop_eq_nil_iff.mp here
    exact Or.inl ⟨if_pos past, rfl⟩
  | cons b more =>
    obtain ⟨lenDr, inside⟩ := Walk.lenDr_of_drop here
    rw [sized] at inside
    rw [Walk.next, if_neg (not_le.mpr inside), lenDr]
    by_cases blank : b = 0
    · -- the sector has no more records
      obtain ⟨n, hn⟩ : ∃ n, n = 0x800 - (w.pos &&& 0x7ff) := ⟨_, rfl⟩
      have skips : (b :: more).drop (sectorSize - w.p % sectorSize) =
          w.buf.drop (w.p + n.toNat) := by
        rw [← here, List.drop_drop, hn, inStep.skip]
      have hidden : ¬ b.toNat ≠ 0 := fun some' => (visible b).mp some' blank
      rw [if_pos blank, ← hn, nextDirRecord, nextRecord, if_neg hidden, skips]
      dsimp only
      cases there : w.buf.drop (w.p + n.toNat) with
      | nil =>
        have past : w.size ≤ (w.advance n).p := sized ▸ List.drop_eq_nil_iff.mp there
        exact Or.inl ⟨if_pos past, rfl⟩
      | cons c rest =>
        obtain ⟨lenDr', inside'⟩ := Walk.lenDr_of_drop (w := w.advance n) there
        have room : ¬ (w.advance n).size ≤ (w.advance n).p := not_le.mpr (sized ▸ inside')
        rw [if_neg room, lenDr']
        by_cases last : c = 0
        · rw [if_pos last]
          exact Or.inl ⟨rfl, if_neg fun some' => (visible c).mp some' last⟩
        · rw [if_neg last]
          have some' := (visible c).mpr last
          refine Or.inr ⟨w.advance n, rfl, inStep.advance n, rfl, rfl, ?_, ?_, Nat.le_add_right _ _,
            sized ▸ inside'⟩
          · have next : w.buf.drop (w.advance n).p = c :: rest := there
            rw [nextDirRecord, here, nextRecord, if_neg hidden, skips, there, next]
            dsimp only
            rw [if_pos some', ← inStep.skip, ← hn]
            rfl
          · rw [lenDr']
            exact Nat.pos_of_ne_zero some'
    · rw [if_neg blank]
      have some' := (visible b).mpr blank
      refine Or.inr ⟨w, rfl, inStep, rfl, rfl, ?_, ?_, le_rfl, inside⟩
      · rw [here, nextDirRecord, nextRecord, if_pos some']
      · rw [lenDr]
        exact Nat.pos_of_ne_zero some'

end InStep

/-! ## The loops end -/

/-- On every directory the loop for a string ends with what the walk finds. -/
theorem findTurns_eq (key : List UInt8) {w : Walk} (inStep : w.InStep)
    (sized : w.buf.length = w.size) {n fuel : Nat} (turns : w.size - w.p < n)
    (enough : w.size - w.p ≤ fuel) :
    findTurns key n w = some (findFrom key fuel w.p (w.buf.drop w.p)) := by
  induction n generalizing w fuel with
  | zero => omega
  | succ n ih =>
    rw [findTurns]
    rcases inStep.next_cases sized with ⟨next, none'⟩ | ⟨w', next, reaches⟩
    · rw [next]
      cases fuel with
      | zero => rfl
      | succ fuel => rw [findFrom, none']
    · obtain ⟨inStep', size, buf, found, positive, forward, inside⟩ := reaches
      obtain ⟨fuel, rfl⟩ : ∃ m, fuel = m + 1 := ⟨fuel - 1, by omega⟩
      rw [next, findFrom, found]
      dsimp only
      rw [buf]
      by_cases named : hasIdent key (w.buf.drop w'.p) = true
      · rw [if_pos named, if_pos named]
      · rw [if_neg named, if_neg named]
        have moved := w'.advance_lenDr
        have sized' : (w'.advance w'.lenDr.toUInt32).buf.length =
            (w'.advance w'.lenDr.toUInt32).size := by
          rw [Walk.advance_buf, Walk.advance_size, buf, size, sized]
        have later := ih (inStep'.advance w'.lenDr.toUInt32) sized'
          (by rw [moved, Walk.advance_size, size]; omega)
          (show _ ≤ fuel by rw [moved, Walk.advance_size, size]; omega)
        rw [later, Walk.advance_buf, moved, buf, ← List.drop_drop, ← w'.drop_getD, buf]

/-- On packed records the relocation ends behind the last of them. -/
theorem fixTurns_pack (dirLba filesLba : Nat) {rs : List (List UInt8)}
    (records : ∀ r ∈ rs, IsRecord r) {w : Walk} (inStep : w.InStep)
    (sized : w.buf.length = w.size) {front : List UInt8} (at' : front.length = w.p)
    (buf : w.buf = front ++ (packFrom sectorSize 0 w.p rs ++
      List.replicate (fill sectorSize (endFrom sectorSize w.p rs)) 0)) {n : Nat}
    (turns : rs.length < n) :
    fixTurns dirLba filesLba n w = some (front ++
      (packFrom sectorSize 0 w.p (rs.map (fixRecord dirLba filesLba)) ++
        List.replicate (fill sectorSize (endFrom sectorSize w.p rs)) 0)) := by
  induction rs generalizing w front n with
  | nil =>
    obtain ⟨n, rfl⟩ : ∃ m, n = m + 1 := ⟨n - 1, by omega⟩
    have rest : w.buf.drop w.p = List.replicate (fill sectorSize w.p) 0 := by
      rw [buf, List.drop_left' at']
      rfl
    rcases inStep.next_cases sized with ⟨next, -⟩ | ⟨w', -, reaches⟩
    · rw [fixTurns, next]
      exact congrArg some buf
    · have found := reaches.found
      rw [rest, nextDirRecord_end] at found
      cases found
  | cons r rs ih =>
    obtain ⟨n, rfl⟩ : ∃ m, n = m + 1 := ⟨n - 1, by omega⟩
    obtain ⟨record, others⟩ := List.forall_mem_cons.mp records
    have least := record.least
    have found := nextDirRecord_pack w.p record rs
      (List.replicate (fill sectorSize (endFrom sectorSize w.p (r :: rs))) 0)
    have rest : w.buf.drop w.p = packFrom sectorSize 0 w.p (r :: rs) ++
        List.replicate (fill sectorSize (endFrom sectorSize w.p (r :: rs))) 0 := by
      rw [buf, List.drop_left' at']
    rw [← rest] at found
    rcases inStep.next_cases sized with ⟨-, none'⟩ | ⟨w', next, reaches⟩
    · rw [found] at none'
      cases none'
    · obtain ⟨there, here⟩ := Prod.mk.inj (Option.some.inj (found.symm.trans reaches.found))
      obtain ⟨inStep', size, buf', -, -, -, -⟩ := reaches
      obtain ⟨front', hfront'⟩ : ∃ front', front' =
        front ++ List.replicate (gap sectorSize w.p r.length) 0 := ⟨_, rfl⟩
      have at'' : front'.length = w'.p := by
        rw [hfront', List.length_append, List.length_replicate, at', there]
      have before : w.buf.take w'.p = front' := by
        rw [buf, packFrom, List.append_assoc, ← List.append_assoc front, ← hfront',
          List.take_left' at'']
      have same := fixRecord_length dirLba filesLba (show 10 ≤ r.length by omega)
      obtain ⟨more, hmore⟩ : ∃ more, more = packFrom sectorSize 0 (w'.p + r.length) rs ++
        List.replicate (fill sectorSize (endFrom sectorSize (w'.p + r.length) rs)) 0 := ⟨_, rfl⟩
      rw [there, endFrom, there, ← hmore] at here
      -- the record is written back
      obtain ⟨v, hv⟩ : ∃ v : Walk, v =
        { w' with buf := front' ++ (fixRecord dirLba filesLba r ++ more) } := ⟨_, rfl⟩
      have at''' : front'.length = v.p := by rw [at'', hv]
      have written : v.buf = front' ++ (fixRecord dirLba filesLba r ++ more) := by rw [hv]
      have inStep'' : v.InStep := by
        rw [hv]
        exact inStep'
      have sized' : v.buf.length = v.size := by
        have split := List.take_append_drop w'.p w.buf
        have size' : v.size = w.buf.length := by rw [hv, sized, ← size]
        rw [before, ← here] at split
        rw [written, size', ← split, List.length_append, List.length_append, List.length_append,
          List.length_append, same]
      -- and is as long as before
      have moved : (v.advance v.lenDr.toUInt32).p = w'.p + r.length := by
        rw [v.advance_lenDr, Walk.lenDr_record at''' written (record.fixed dirLba filesLba), same,
          ← at''', at'']
      have behind : (front' ++ fixRecord dirLba filesLba r).length =
          (v.advance v.lenDr.toUInt32).p := by
        rw [moved, List.length_append, at'', same]
      have all : (v.advance v.lenDr.toUInt32).buf = (front' ++ fixRecord dirLba filesLba r) ++
          (packFrom sectorSize 0 (v.advance v.lenDr.toUInt32).p rs ++
            List.replicate (fill sectorSize (endFrom sectorSize
              (v.advance v.lenDr.toUInt32).p rs)) 0) := by
        rw [moved, ← hmore, Walk.advance_buf, written, List.append_assoc]
      have later := ih others (inStep''.advance _) sized' behind all (Nat.lt_of_succ_lt_succ turns)
      rw [fixTurns, next]
      dsimp only
      rw [buf', before, ← here, fixRecord_append dirLba filesLba (show 26 ≤ r.length by omega),
        ← hv, later, moved, hfront', List.map_cons, packFrom, same, there, endFrom, there]
      simp only [List.append_assoc]

/-- `fixDirLba`, in no more turns than there are bytes and one more. -/
def fixDirLbaLoop (content : List UInt8) (dirLba filesLba : Nat) : Option (List UInt8) :=
  fixTurns dirLba filesLba (content.length + 1) (Walk.start content)

/-- `findDirRecord`, likewise. -/
def findDirRecordLoop (key content : List UInt8) : Option (Option Nat) :=
  findTurns key (content.length + 1) (Walk.start content)

theorem findDirRecordLoop_eq (key content : List UInt8) :
    findDirRecordLoop key content = some (findDirRecord key content) :=
  findTurns_eq key (show (Walk.start content).InStep from rfl) rfl (Nat.lt_succ_self _) le_rfl

theorem fixDirLbaLoop_pack (dirLba filesLba : Nat) {rs : List (List UInt8)}
    (records : ∀ r ∈ rs, IsRecord r) :
    fixDirLbaLoop (pack sectorSize 0 rs) dirLba filesLba =
      some (fixDirLba (pack sectorSize 0 rs) dirLba filesLba) := by
  have inStep : (Walk.start (pack sectorSize 0 rs)).InStep := rfl
  have few := length_le_pack records
  have none' : ([] : List UInt8).length = (Walk.start (pack sectorSize 0 rs)).p := rfl
  have ends := fixTurns_pack dirLba filesLba records inStep rfl none' rfl (Nat.lt_succ_of_le few)
  rw [fixDirLbaLoop, ends, fixDirLba_pack dirLba filesLba records]
  conv_rhs => rw [pack, ← endFrom_congr 0 (fixRecord_lengths dirLba filesLba records)]
  rfl

/-! ## Directories -/

/-- A record of a directory. -/
structure StoredRecord where
  bytes : List UInt8
  isRecord : IsRecord bytes

namespace StoredRecord

def ident (r : StoredRecord) : List UInt8 := recordIdent r.bytes

/-- `lsbStart` -/
def lsbStart (r : StoredRecord) : Nat := leValue ((r.bytes.drop 2).take 4)

/-- `msbStart` -/
def msbStart (r : StoredRecord) : Nat := beValue ((r.bytes.drop 6).take 4)

/-- What is added to the start of a record: its flags tell whether it is one of a directory. -/
def lba (dirLba filesLba : Nat) (r : StoredRecord) : Nat :=
  if r.bytes.getD 25 0 &&& isoDirectory ≠ 0 then dirLba else filesLba

end StoredRecord

/-- The directory that is made of some records. -/
def laidOut (rs : List StoredRecord) : List UInt8 := pack sectorSize 0 (rs.map StoredRecord.bytes)

/-- The records with the places where they stand. -/
def placed (rs : List StoredRecord) : List (Nat × StoredRecord) :=
  (startsFrom sectorSize 0 (rs.map fun r => r.bytes.length)).zip rs

/-- Both numbers of every record are moved by what is due to it, and no other byte changes. -/
structure Moved (dirLba filesLba : Nat) (rs : List StoredRecord) (after : List UInt8) : Prop where
  length : after.length = (laidOut rs).length
  lsb : ∀ x ∈ placed rs, leValue ((after.drop (x.1 + 2)).take 4) =
    (x.2.lsbStart + x.2.lba dirLba filesLba) % 2 ^ 32
  msb : ∀ x ∈ placed rs, beValue ((after.drop (x.1 + 6)).take 4) =
    (x.2.msbStart + x.2.lba dirLba filesLba) % 2 ^ 32
  others : ∀ i : Nat, (∀ x ∈ placed rs, i < x.1 + 2 ∨ x.1 + 10 ≤ i) → after[i]? = (laidOut rs)[i]?

section Directory
variable (rs : List StoredRecord)

theorem isRecord_stored : ∀ b ∈ rs.map StoredRecord.bytes, IsRecord b := by
  intro b member
  obtain ⟨r, -, rfl⟩ := List.mem_map.mp member
  exact r.isRecord

theorem placed_start {rs : List StoredRecord} {x : Nat × StoredRecord} (member : x ∈ placed rs) :
    ∃ k : Nat, (startsFrom sectorSize 0 ((rs.map StoredRecord.bytes).map List.length))[k]? =
      some x.1 ∧
      rs[k]? = some x.2 := by
  obtain ⟨k, here⟩ := List.mem_iff_getElem?.mp member
  rw [placed, List.getElem?_zip_eq_some] at here
  rw [List.map_map]
  exact ⟨k, here⟩

/-- A record stands where it is placed, in one sector and not up to the end of it. -/
theorem placed_spec {rs : List StoredRecord} {x : Nat × StoredRecord} (member : x ∈ placed rs) :
    (∃ front back, laidOut rs = front ++ (x.2.bytes ++ back) ∧ front.length = x.1) ∧
      x.1 % sectorSize + x.2.bytes.length < sectorSize := by
  obtain ⟨k, start, own⟩ := placed_start member
  have here : (rs.map StoredRecord.bytes)[k]? = some x.2.bytes := by
    rw [List.getElem?_map, own, Option.map_some]
  have most := x.2.isRecord.most
  constructor
  · exact pack_start start here
  · refine start_inside (by rw [sectorSize]; omega) start ?_
    rw [List.getElem?_map, here, Option.map_some]

/-- The four bytes of a moved record from a place on. -/
theorem fixRecord_numbers (dirLba filesLba : Nat) (r : StoredRecord) (more : List UInt8) :
    leValue (((fixRecord dirLba filesLba r.bytes ++ more).drop 2).take 4) =
        (r.lsbStart + r.lba dirLba filesLba) % 2 ^ 32 ∧
      beValue (((fixRecord dirLba filesLba r.bytes ++ more).drop 6).take 4) =
        (r.msbStart + r.lba dirLba filesLba) % 2 ^ 32 := by
  have least := r.isRecord.least
  have two : (r.bytes.take 2).length = 2 := by
    rw [List.length_take]
    omega
  have lsb := leBytes_length 4 (r.lsbStart + r.lba dirLba filesLba)
  have msb := beBytes_length 4 (r.msbStart + r.lba dirLba filesLba)
  have split : fixRecord dirLba filesLba r.bytes ++ more = r.bytes.take 2 ++
      (leBytes 4 (r.lsbStart + r.lba dirLba filesLba) ++
        (beBytes 4 (r.msbStart + r.lba dirLba filesLba) ++ (r.bytes.drop 10 ++ more))) := by
    rw [fixRecord]
    simp only [List.append_assoc]
    rfl
  rw [split]
  constructor
  · rw [List.drop_left' two, List.take_left' lsb]
    exact leValue_leBytes 4 _
  · rw [← List.append_assoc, List.drop_left' (by rw [List.length_append, two, lsb]),
      List.take_left' msb]
    exact beValue_beBytes 4 _

/-- The relocated directory. -/
theorem moved_pack (dirLba filesLba : Nat) :
    Moved dirLba filesLba rs
      (pack sectorSize 0 ((rs.map StoredRecord.bytes).map (fixRecord dirLba filesLba))) := by
  have same := fixRecord_lengths dirLba filesLba (isRecord_stored rs)
  -- where a record stands a moved one stands behind it
  have stands (x : Nat × StoredRecord) (member : x ∈ placed rs) : ∃ front more,
      pack sectorSize 0 ((rs.map StoredRecord.bytes).map (fixRecord dirLba filesLba)) =
        front ++ (fixRecord dirLba filesLba x.2.bytes ++ more) ∧ front.length = x.1 := by
    obtain ⟨k, start, own⟩ := placed_start member
    rw [same] at start
    refine pack_start start ?_
    rw [List.getElem?_map, List.getElem?_map, own, Option.map_some, Option.map_some]
  constructor
  · rw [laidOut, pack_length, pack_length, endFrom_congr 0 same]
  · intro x member
    obtain ⟨front, more, split, length⟩ := stands x member
    rw [split, ← length, List.drop_length_add_append]
    exact (fixRecord_numbers dirLba filesLba x.2 more).1
  · intro x member
    obtain ⟨front, more, split, length⟩ := stands x member
    rw [split, ← length, List.drop_length_add_append]
    exact (fixRecord_numbers dirLba filesLba x.2 more).2
  · intro i apart
    refine (pack_getElem?_congr same fun k at' b t start own moved j place => ?_).symm
    rw [List.getElem?_map] at own
    obtain ⟨r, here, rfl⟩ := Option.map_eq_some_iff.mp own
    rw [List.getElem?_map, List.getElem?_map, here, Option.map_some, Option.map_some] at moved
    cases moved
    have member : (at', r) ∈ placed rs := by
      rw [placed, List.mem_iff_getElem?]
      rw [List.map_map] at start
      exact ⟨k, List.getElem?_zip_eq_some.mpr ⟨start, here⟩⟩
    have other := apart (at', r) member
    dsimp only at other
    have least := r.isRecord.least
    exact (fixRecord_getElem? dirLba filesLba (by omega) (by omega)).symm

end Directory

/-- What the loops do to a directory, however many records it has: both end; the one moves the
start of every record once and keeps all other bytes, and the other returns the first record that
has the string, if one has it. -/
theorem loops_laidOut (rs : List StoredRecord) :
    (∀ dirLba filesLba : Nat, ∃ after,
      fixDirLbaLoop (laidOut rs) dirLba filesLba = some after ∧ Moved dirLba filesLba rs after) ∧
    ∀ (joliet : Bool) (name : List UInt8),
      findDirRecordLoop (strCheck joliet name) (laidOut rs) =
        some (((placed rs).find? fun x => x.2.ident == strCheck joliet name).map Prod.fst) := by
  constructor
  · intro dirLba filesLba
    refine ⟨_, fixDirLbaLoop_pack dirLba filesLba (isRecord_stored rs), ?_⟩
    rw [fixDirLba_pack dirLba filesLba (isRecord_stored rs)]
    exact moved_pack rs dirLba filesLba
  · intro joliet name
    have starts : (rs.map StoredRecord.bytes).map List.length = rs.map fun r => r.bytes.length :=
      List.map_map
    rw [findDirRecordLoop_eq, laidOut, findDirRecord_pack _ (isRecord_stored rs), placed, starts,
      List.zip_map_right, List.find?_map, Option.map_map]
    rfl

/-- What `buildContent` stores for a record. -/
def StoredRecord.ofRecord (r : Record) (short : Short r.ident) : StoredRecord :=
  ⟨r.bytes, (Record.isRecord short).1⟩

def numberedName (i : Nat) : List UInt8 :=
  CText.ascii "FILE" ++ [UInt8.ofNat (48 + i / 10), UInt8.ofNat (48 + i % 10)]

theorem numberedName_short (i : Nat) : Short (numberedName i) := by
  have length : (numberedName i).length = 6 := rfl
  rw [Short, length]
  decide

/-- Sixty records, of which the first is one of a directory; they need two sectors. -/
def numberedRecords : List StoredRecord :=
  (List.range 60).map fun i => .ofRecord
    ⟨i, 2048, ⟨0, 0, 0, 0, 0, 0⟩, if i = 0 then isoDirectory else 0, numberedName i⟩
    (numberedName_short i)

theorem numberedRecords_laidOut : sectorSize < (laidOut numberedRecords).length ∧
    (∃ after, fixDirLbaLoop (laidOut numberedRecords) 100 200 = some after ∧
      Moved 100 200 numberedRecords after) ∧
    findDirRecordLoop (strCheck false (CText.ascii "file59")) (laidOut numberedRecords) =
      some (some 2738) := by
  obtain ⟨moves, finds⟩ := loops_laidOut numberedRecords
  refine ⟨by decide +kernel, moves 100 200, (finds false (CText.ascii "file59")).trans ?_⟩
  decide +kernel

end RecordWalks
