import NtfsIsoMounter.ByteOrder
import NtfsIsoMounter.CText
import NtfsIsoMounter.SectorPacking
import NtfsIsoMounter.SourceTrees

/-!
# Directory records and the walks over packed records

A record holds the start and length of an extent in both byte orders, a time,
flags and an identifier. `findDirRecord` and `fixDirLba` step through the
packed records of a directory in the same way; on the records that
`buildContent` packs they find, and change, exactly one record after another.
-/

namespace DirectoryRecords

open ByteOrder CText SectorPacking SourceTrees

def sectorSize : Nat := 0x800

/-- `bytesToSectors`, cut to `uint32_t`. -/
def bytesToSectors (size : Nat) : Nat := (size + 0x7ff) / 0x800 % 2 ^ 32

/-- `ISO_DIRECTORY` -/
def isoDirectory : UInt8 := 2

/-- `ISO_MULTIEXTENT` -/
def isoMultiextent : UInt8 := 128

/-! ## Identifiers -/

/-- The string `strncpy_upper` leaves for a name without terminator. -/
def upperName (name : List UInt8) (n : Nat) : List UInt8 := (name.take n).map upper

/-- `get_ucs2_from_utf8`: a code and what follows it; the end of the list reads
as the terminator. -/
def ucs2FromUtf8 : List UInt8 → Option (Nat × List UInt8)
  | [] => none
  | a :: p =>
    if a < 0x80 then some (a.toNat, p)
    else if a &&& 0xE0 = 0xE0 then
      match p with
      | b :: c :: q =>
        if b = 0 ∨ c = 0 then none
        else some ((a &&& 0x0F).toNat * 4096 + (b &&& 0x3F).toNat * 64 + (c &&& 0x3F).toNat, q)
      | _ => none
    else if a &&& 0xC0 = 0xC0 then
      match p with
      | b :: q => if b = 0 then none else some ((a &&& 0x1F).toNat * 64 + (b &&& 0x3F).toNat, q)
      | [] => none
    else none

/-- `utf8_to_ucs2`, the units as the bytes they are stored in. -/
def utf8ToUcs2 : Nat → List UInt8 → List UInt8
  | 0, _ => []
  | maxLength + 1, utf8 =>
    match ucs2FromUtf8 utf8 with
    | none => []
    | some (ch, rest) => beBytes 2 ch ++ utf8ToUcs2 maxLength rest

def maxIsoName : Nat := 207
def maxIsoDir : Nat := 254

def fileIdent (joliet : Bool) (name : List UInt8) : List UInt8 :=
  if joliet then utf8ToUcs2 (maxIsoName / 2) (name ++ ascii ";1")
  else upperName name (maxIsoName - 2) ++ ascii ";1"

def dirIdent (joliet : Bool) (name : List UInt8) : List UInt8 :=
  if joliet then utf8ToUcs2 (maxIsoDir / 2) name else upperName name maxIsoDir

/-- The string `findDirRecord` compares with. -/
def strCheck (joliet : Bool) (name : List UInt8) : List UInt8 :=
  if joliet then utf8ToUcs2 (maxIsoDir / 2) name else upperName name (maxIsoName - 2)

/-! ## Records -/

/-- The 16 bytes of `lsbStart`, `msbStart`, `lsbDataLength` and `msbDataLength`. -/
def extentBytes (start length : Nat) : List UInt8 :=
  leBytes 4 start ++ beBytes 4 start ++ leBytes 4 length ++ beBytes 4 length

def timeBytes (t : RecordTime) : List UInt8 := [t.year, t.month, t.day, t.hour, t.minute, t.second]

structure Record where
  start : Nat
  length : Nat
  time : RecordTime
  flags : UInt8
  ident : List UInt8

/-- The assignment to `len_dr`, an 8-bit member. -/
def lenDr (ident : List UInt8) : UInt8 :=
  let n := 0x27 + UInt8.ofNat ident.length
  if n &&& 1 = 1 then n + 1 else n

/-- The members behind the extent, up to the identifier. -/
def Record.rest (r : Record) : List UInt8 :=
  timeBytes r.time ++ [0, r.flags, 0, 0] ++ leBytes 2 1 ++ beBytes 2 1 ++
    [UInt8.ofNat r.ident.length] ++ r.ident

/-- The `len_dr` bytes copied from a zeroed record. -/
def Record.bytes (r : Record) : List UInt8 :=
  let n := lenDr r.ident
  ([n, 0] ++ extentBytes r.start r.length ++ r.rest ++ List.replicate n.toNat 0).take n.toNat

/-- Store 16 extent bytes into the record at `pos`. -/
def setExtent (content : List UInt8) (pos : Nat) (extent : List UInt8) : List UInt8 :=
  content.take (pos + 2) ++ extent ++ content.drop (pos + 18)

/-- The extent bytes of the record at `pos`. -/
def getExtent (content : List UInt8) (pos : Nat) : List UInt8 := (content.drop (pos + 2)).take 16

/-! ## Walks -/

def nextDirRecord (pos : Nat) (rest : List UInt8) : Option (Nat × List UInt8) :=
  nextRecord sectorSize UInt8.toNat pos rest

/-- `len_fi` of the record at the head, and the comparison of `fi`. -/
def hasIdent (key rest : List UInt8) : Bool :=
  (rest.getD 32 0).toNat == key.length && (rest.drop 33).take key.length == key

def findFrom (key : List UInt8) : Nat → Nat → List UInt8 → Option Nat
  | 0, _, _ => none
  | fuel + 1, pos, rest =>
    match nextDirRecord pos rest with
    | none => none
    | some (pos, rest) =>
      if hasIdent key rest then some pos
      else
        let len := (rest.getD 0 0).toNat
        findFrom key fuel (pos + len) (rest.drop len)

/-- The offset of the record with the given string, every step taking at least
one byte. -/
def findDirRecord (key content : List UInt8) : Option Nat :=
  findFrom key content.length 0 content

/-- The two additions to the start of the record at the head. -/
def fixRecord (dirLba filesLba : Nat) (rest : List UInt8) : List UInt8 :=
  let lba := if rest.getD 25 0 &&& isoDirectory ≠ 0 then dirLba else filesLba
  rest.take 2 ++ leBytes 4 (leValue ((rest.drop 2).take 4) + lba) ++
    beBytes 4 (beValue ((rest.drop 6).take 4) + lba) ++ rest.drop 10

def fixFrom (dirLba filesLba : Nat) : Nat → Nat → List UInt8 → List UInt8
  | 0, _, rest => rest
  | fuel + 1, pos, rest =>
    match nextDirRecord pos rest with
    | none => rest
    | some (pos', rest') =>
      let fixed := fixRecord dirLba filesLba rest'
      let len := (fixed.getD 0 0).toNat
      rest.take (pos' - pos) ++ fixed.take len ++
        fixFrom dirLba filesLba fuel (pos' + len) (fixed.drop len)

def fixDirLba (content : List UInt8) (dirLba filesLba : Nat) : List UInt8 :=
  fixFrom dirLba filesLba content.length 0 content

/-! ## Placing a record -/

/-- The rounding of `offs`, the test against `tempBufSize`, the copy; behind the
records the buffer holds zeros. -/
def place (tempBufSize : Nat) (buf record : List UInt8) : Option (List UInt8) :=
  let offs := buf.length
  let padded :=
    if offs / 0x800 < (offs + record.length) / 0x800 then
      buf ++ List.replicate ((offs + 0x7ff) / 0x800 * 0x800 - offs) 0
    else buf
  if padded.length + record.length ≥ tempBufSize then none else some (padded ++ record)

def placeAll (tempBufSize : Nat) : List (List UInt8) → List UInt8 → Option (List UInt8)
  | [], buf => some buf
  | record :: rest, buf => (place tempBufSize buf record).bind (placeAll tempBufSize rest)

/-! ## Placed records are packed records -/

/-- Identifiers whose record length fits `len_dr`. -/
def Short (ident : List UInt8) : Prop := 39 + ident.length + (39 + ident.length) % 2 ≤ 255

/-- The directory content made of some records. -/
def packed (rs : List Record) : List UInt8 := pack sectorSize 0 (rs.map Record.bytes)

theorem place_eq {tempBufSize : Nat} {buf record out : List UInt8}
    (placed : place tempBufSize buf record = some out) :
    out = buf ++ (List.replicate (gap sectorSize buf.length record.length) 0 ++ record) := by
  have rounding : (buf.length + 0x7ff) / 0x800 * 0x800 - buf.length =
      fill sectorSize buf.length := by
    simp only [fill, sectorSize]
    omega
  simp only [place, rounding] at placed
  by_cases crossing : buf.length / 0x800 < (buf.length + record.length) / 0x800
  · simp only [crossing, if_true] at placed
    split at placed
    · cases placed
    · rw [← Option.some.inj placed, gap, sectorSize, if_pos crossing, List.append_assoc]
  · simp only [crossing, if_false] at placed
    split at placed
    · cases placed
    · rw [← Option.some.inj placed, gap, sectorSize, if_neg crossing, List.replicate_zero,
        List.nil_append]

theorem placeAll_eq {tempBufSize : Nat} {records : List (List UInt8)} {buf out : List UInt8}
    (placed : placeAll tempBufSize records buf = some out) :
    out = buf ++ packFrom sectorSize 0 buf.length records := by
  induction records generalizing buf with
  | nil =>
    rw [← Option.some.inj placed, packFrom, List.append_nil]
  | cons record rest ih =>
    obtain ⟨mid, first, later⟩ := Option.bind_eq_some_iff.mp placed
    have split := place_eq first
    have length : mid.length =
        buf.length + gap sectorSize buf.length record.length + record.length := by
      rw [split, List.length_append, List.length_append, List.length_replicate]
      omega
    rw [ih later, length, split, packFrom]
    simp only [List.append_assoc]

theorem lenDr_toNat {ident : List UInt8} (short : Short ident) :
    (lenDr ident).toNat = 39 + ident.length + (39 + ident.length) % 2 := by
  have all : ∀ n, n < 216 → (let k := 0x27 + UInt8.ofNat n
      if k &&& 1 = 1 then k + 1 else k : UInt8).toNat = 39 + n + (39 + n) % 2 := by
    decide +kernel
  apply all
  simp only [Short] at short
  omega

/-! ## What the walks take for a record -/

/-- A record as the walks meet it: an even number of bytes, which the first of them tells, with the
identifier among them. -/
structure IsRecord (bytes : List UInt8) : Prop where
  even : bytes.length % 2 = 0
  least : 34 ≤ bytes.length
  most : bytes.length ≤ 254
  own : (bytes.getD 0 0).toNat = bytes.length
  inside : 33 + (bytes.getD 32 0).toNat ≤ bytes.length

/-- The `len_fi` bytes from `fi` on. -/
def recordIdent (bytes : List UInt8) : List UInt8 := (bytes.drop 33).take (bytes.getD 32 0).toNat

section Fix
variable (dirLba filesLba : Nat) {bytes : List UInt8}

theorem fixRecord_length (room : 10 ≤ bytes.length) :
    (fixRecord dirLba filesLba bytes).length = bytes.length := by
  simp only [fixRecord, List.length_append, List.length_take, List.length_drop, leBytes_length,
    beBytes_length]
  omega

/-- The two numbers are the bytes from the third to the tenth. -/
theorem fixRecord_getElem? (room : 10 ≤ bytes.length) {i : Nat} (other : i < 2 ∨ 10 ≤ i) :
    (fixRecord dirLba filesLba bytes)[i]? = bytes[i]? := by
  have two : (bytes.take 2).length = 2 := by
    rw [List.length_take]
    omega
  rw [fixRecord, List.append_assoc, List.append_assoc]
  rcases other with first | behind
  · rw [List.getElem?_append_left (by omega), List.getElem?_take_of_lt first]
  · obtain ⟨j, rfl⟩ := Nat.exists_eq_add_of_le behind
    rw [List.getElem?_append_right (by omega), List.getElem?_append_right (by
      rw [leBytes_length]
      omega), List.getElem?_append_right (by
      rw [leBytes_length, beBytes_length]
      omega), List.getElem?_drop]
    congr 1
    rw [leBytes_length, beBytes_length]
    omega

theorem fixRecord_append (room : 26 ≤ bytes.length) (more : List UInt8) :
    fixRecord dirLba filesLba (bytes ++ more) = fixRecord dirLba filesLba bytes ++ more := by
  have flags : (bytes ++ more).getD 25 0 = bytes.getD 25 0 :=
    List.getD_append _ _ _ _ (by omega)
  have part (from' n : Nat) (inside : from' + n ≤ 26) :
      ((bytes ++ more).drop from').take n = (bytes.drop from').take n := by
    rw [List.drop_append_of_le_length (by omega), List.take_append_of_le_length (by
      rw [List.length_drop]
      omega)]
  simp only [fixRecord, flags, part 2 4 (by omega), part 6 4 (by omega),
    List.take_append_of_le_length (show 2 ≤ bytes.length by omega),
    List.drop_append_of_le_length (show 10 ≤ bytes.length by omega), List.append_assoc]

end Fix

namespace IsRecord
variable {bytes : List UInt8} (record : IsRecord bytes)
include record

theorem fits : Fits sectorSize UInt8.toNat bytes := by
  obtain ⟨-, least, most, own, -⟩ := record
  constructor
  · rw [sectorSize]
    omega
  · cases bytes with
    | nil => cases least
    | cons b more => exact ⟨b, more, rfl, own⟩

/-- The length in the first byte. -/
theorem first_byte (more : List UInt8) : ((bytes ++ more).getD 0 0).toNat = bytes.length := by
  have least := record.least
  rw [List.getD_append _ _ _ _ (by omega), record.own]

theorem hasIdent (key more : List UInt8) :
    hasIdent key (bytes ++ more) = (recordIdent bytes == key) := by
  obtain ⟨-, least, -, -, inside⟩ := record
  rw [DirectoryRecords.hasIdent, List.getD_append _ _ _ _ (by omega),
    List.drop_append_of_le_length (by omega), recordIdent]
  by_cases same : (bytes.getD 32 0).toNat = key.length
  · rw [same, beq_self_eq_true, Bool.true_and, List.take_append_of_le_length (by
      rw [List.length_drop]
      omega)]
  · have different : (bytes.drop 33).take (bytes.getD 32 0).toNat ≠ key := by
      intro named
      have length := congrArg List.length named
      rw [List.length_take, List.length_drop] at length
      omega
    rw [beq_eq_false_iff_ne.mpr same, Bool.false_and, beq_eq_false_iff_ne.mpr different]

theorem fixed (dirLba filesLba : Nat) : IsRecord (fixRecord dirLba filesLba bytes) := by
  have least := record.least
  have length := fixRecord_length dirLba filesLba (show 10 ≤ bytes.length by omega)
  have same (i : Nat) (other : i < 2 ∨ 10 ≤ i) :
      (fixRecord dirLba filesLba bytes).getD i 0 = bytes.getD i 0 := by
    rw [List.getD_eq_getElem?_getD, fixRecord_getElem? dirLba filesLba (by omega) other,
      List.getD_eq_getElem?_getD]
  constructor
  · rw [length]
    exact record.even
  · rw [length]
    exact least
  · rw [length]
    exact record.most
  · rw [length, same 0 (by omega)]
    exact record.own
  · rw [length, same 32 (by omega)]
    exact record.inside

end IsRecord

/-! ## The walks over packed records -/

section Pack
variable {rs : List (List UInt8)}

theorem nextDirRecord_pack (pos : Nat) {r : List UInt8} (record : IsRecord r)
    (rs : List (List UInt8)) (tail : List UInt8) :
    nextDirRecord pos (packFrom sectorSize 0 pos (r :: rs) ++ tail) =
      some (pos + gap sectorSize pos r.length,
        r ++ (packFrom sectorSize 0 (pos + gap sectorSize pos r.length + r.length) rs ++
          tail)) := by
  have zero : UInt8.toNat 0 = 0 := rfl
  exact nextRecord_packFrom zero pos record.fits rs tail

theorem nextDirRecord_end (pos : Nat) :
    nextDirRecord pos (List.replicate (fill sectorSize pos) 0) = none := by
  have zero : UInt8.toNat 0 = 0 := rfl
  exact nextRecord_blank zero (Nat.succ_pos 2047) pos

/-- The walk for a string meets one record after another. -/
theorem findFrom_pack (key : List UInt8) (fuel pos : Nat) (records : ∀ r ∈ rs, IsRecord r)
    (enough : rs.length ≤ fuel) :
    findFrom key fuel pos (packFrom sectorSize 0 pos rs ++
        List.replicate (fill sectorSize (endFrom sectorSize pos rs)) 0) =
      (((startsFrom sectorSize pos (rs.map List.length)).zip rs).find?
        fun x => recordIdent x.2 == key).map Prod.fst := by
  induction rs generalizing fuel pos with
  | nil =>
    cases fuel with
    | zero => rfl
    | succ k =>
      rw [packFrom, List.nil_append, endFrom, findFrom, nextDirRecord_end]
      rfl
  | cons r rs ih =>
    obtain ⟨k, rfl⟩ : ∃ k, fuel = k + 1 := ⟨fuel - 1, by rw [List.length_cons] at enough; omega⟩
    obtain ⟨record, others⟩ := List.forall_mem_cons.mp records
    rw [findFrom, nextDirRecord_pack pos record]
    simp only [record.hasIdent, List.map_cons, startsFrom, List.zip_cons_cons, List.find?_cons]
    cases recordIdent r == key with
    | true => rfl
    | false =>
      simp only [Bool.false_eq_true, if_false, record.first_byte, List.drop_left]
      rw [List.length_cons] at enough
      exact ih k _ others (by omega)

/-- The relocation does to each record what it does to it alone. -/
theorem fixFrom_pack (dirLba filesLba fuel pos : Nat) (records : ∀ r ∈ rs, IsRecord r)
    (enough : rs.length ≤ fuel) :
    fixFrom dirLba filesLba fuel pos (packFrom sectorSize 0 pos rs ++
        List.replicate (fill sectorSize (endFrom sectorSize pos rs)) 0) =
      packFrom sectorSize 0 pos (rs.map (fixRecord dirLba filesLba)) ++
        List.replicate (fill sectorSize (endFrom sectorSize pos rs)) 0 := by
  induction rs generalizing fuel pos with
  | nil =>
    cases fuel with
    | zero => rfl
    | succ k => simp only [List.map_nil, packFrom, List.nil_append, endFrom, fixFrom,
        nextDirRecord_end]
  | cons r rs ih =>
    obtain ⟨k, rfl⟩ : ∃ k, fuel = k + 1 := ⟨fuel - 1, by rw [List.length_cons] at enough; omega⟩
    obtain ⟨record, others⟩ := List.forall_mem_cons.mp records
    have least := record.least
    have same := fixRecord_length dirLba filesLba (show 10 ≤ r.length by omega)
    have skipped : pos + gap sectorSize pos r.length - pos = gap sectorSize pos r.length := by omega
    rw [List.length_cons] at enough
    rw [fixFrom, nextDirRecord_pack pos record]
    simp only [fixRecord_append dirLba filesLba (show 26 ≤ r.length by omega),
      (record.fixed dirLba filesLba).first_byte, same, List.map_cons, packFrom, endFrom,
      List.append_assoc]
    rw [skipped, List.take_left' List.length_replicate, List.take_left' same, List.drop_left' same,
      ih k _ others (by omega)]

theorem length_le_pack (records : ∀ r ∈ rs, IsRecord r) :
    rs.length ≤ (pack sectorSize 0 rs).length := by
  have each (pos : Nat) : pos + rs.length ≤ endFrom sectorSize pos rs := by
    induction rs generalizing pos with
    | nil => exact le_rfl
    | cons r rs ih =>
      obtain ⟨record, others⟩ := List.forall_mem_cons.mp records
      have later := ih others (pos + gap sectorSize pos r.length + r.length)
      have least := record.least
      rw [endFrom, List.length_cons]
      omega
  have all := each 0
  rw [pack_length]
  omega

theorem findDirRecord_pack (key : List UInt8) (records : ∀ r ∈ rs, IsRecord r) :
    findDirRecord key (pack sectorSize 0 rs) =
      (((startsFrom sectorSize 0 (rs.map List.length)).zip rs).find?
        fun x => recordIdent x.2 == key).map Prod.fst :=
  findFrom_pack key _ 0 records (length_le_pack records)

theorem fixRecord_lengths (dirLba filesLba : Nat) (records : ∀ r ∈ rs, IsRecord r) :
    rs.map List.length = (rs.map (fixRecord dirLba filesLba)).map List.length := by
  rw [List.map_map]
  refine List.map_congr_left fun r member => ?_
  have least := (records r member).least
  exact (fixRecord_length dirLba filesLba (by omega)).symm

theorem fixDirLba_pack (dirLba filesLba : Nat) (records : ∀ r ∈ rs, IsRecord r) :
    fixDirLba (pack sectorSize 0 rs) dirLba filesLba =
      pack sectorSize 0 (rs.map (fixRecord dirLba filesLba)) := by
  rw [fixDirLba]
  refine (fixFrom_pack dirLba filesLba _ 0 records (length_le_pack records)).trans ?_
  rw [pack, endFrom_congr 0 (fixRecord_lengths dirLba filesLba records)]

end Pack

/-! ## Records with their members -/

@[simp] theorem extentBytes_length (start length : Nat) :
    (extentBytes start length).length = 16 := by
  simp [extentBytes]

namespace Record

@[simp] theorem rest_length (r : Record) : r.rest.length = 15 + r.ident.length := by
  simp [rest, timeBytes]
  omega

/-- A short record: its length, the extent, the other members, zeros. -/
theorem bytes_eq {r : Record} (short : Short r.ident) : ∃ pad,
    r.bytes = [lenDr r.ident, 0] ++ (extentBytes r.start r.length ++
      (r.rest ++ List.replicate pad 0)) ∧ r.bytes.length = (lenDr r.ident).toNat := by
  have length := lenDr_toNat short
  have enough : ([lenDr r.ident, 0] ++ extentBytes r.start r.length ++ r.rest).length ≤
      (lenDr r.ident).toNat := by
    simp only [List.length_append, extentBytes_length, rest_length, List.length_cons,
      List.length_nil]
    omega
  refine ⟨(lenDr r.ident).toNat -
    ([lenDr r.ident, 0] ++ extentBytes r.start r.length ++ r.rest).length, ?_, ?_⟩
  · simp only [bytes]
    rw [List.take_append, List.take_of_length_le enough, List.take_replicate]
    simp only [List.append_assoc]
    congr 4
    omega
  · simp only [bytes, List.length_take, List.length_append, List.length_replicate]
    omega

theorem bytes_length {r : Record} (short : Short r.ident) :
    r.bytes.length = (lenDr r.ident).toNat :=
  (bytes_eq short).choose_spec.2

/-- What the walks see of a record. -/
theorem isRecord {r : Record} (short : Short r.ident) :
    IsRecord r.bytes ∧ recordIdent r.bytes = r.ident := by
  obtain ⟨pad, split, size⟩ := bytes_eq short
  have length := lenDr_toNat short
  have front : ([lenDr r.ident, 0] ++ (extentBytes r.start r.length ++ (timeBytes r.time ++
      ([0, r.flags, 0, 0] ++ (leBytes 2 1 ++ beBytes 2 1))))).length = 32 := by
    simp [timeBytes]
  have regroup : r.bytes = [lenDr r.ident, 0] ++ (extentBytes r.start r.length ++
      (timeBytes r.time ++ ([0, r.flags, 0, 0] ++ (leBytes 2 1 ++ beBytes 2 1)))) ++
      (UInt8.ofNat r.ident.length :: (r.ident ++ List.replicate pad 0)) := by
    rw [split, rest]
    simp only [List.append_assoc, List.cons_append, List.nil_append]
  rw [Short] at short
  have lenFi : (r.bytes.getD 32 0).toNat = r.ident.length := by
    rw [regroup, List.getD_append_right _ _ _ _ front.le, front]
    exact Nat.mod_eq_of_lt (by omega)
  have fi : r.bytes.drop 33 = r.ident ++ List.replicate pad 0 := by
    rw [regroup, List.drop_append, front, List.drop_of_length_le (by rw [front]; decide)]
    rfl
  refine ⟨⟨?_, ?_, ?_, ?_, ?_⟩, ?_⟩
  · omega
  · omega
  · omega
  · rw [size, split]
    rfl
  · omega
  · rw [recordIdent, lenFi, fi, List.take_left]

/-- The length in the first byte. -/
theorem first_byte {r : Record} (short : Short r.ident) (more : List UInt8) :
    ((r.bytes ++ more).getD 0 0).toNat = r.bytes.length :=
  (isRecord short).1.first_byte more

theorem hasIdent_bytes {r : Record} (short : Short r.ident) (key more : List UInt8) :
    hasIdent key (r.bytes ++ more) = (r.ident == key) := by
  rw [(isRecord short).1.hasIdent, (isRecord short).2]

/-- Storing an extent into a record that stands behind `front`. -/
theorem setExtent_bytes {r : Record} (short : Short r.ident) (front more : List UInt8)
    (start length : Nat) :
    setExtent (front ++ (r.bytes ++ more)) front.length (extentBytes start length) =
      front ++ ({ r with start := start, length := length }.bytes ++ more) := by
  have short' : Short { r with start := start, length := length }.ident := short
  obtain ⟨pad, split, size⟩ := bytes_eq short
  obtain ⟨pad', split', size'⟩ := bytes_eq short'
  have pads : pad = pad' := by
    rw [split] at size
    rw [split'] at size'
    simp only [List.length_append, extentBytes_length, rest_length,
      List.length_replicate] at size size'
    omega
  have head : front.length + 2 = (front ++ [lenDr r.ident, 0]).length := by simp
  have body : front.length + 18 =
      (front ++ ([lenDr r.ident, 0] ++ extentBytes r.start r.length)).length := by simp
  rw [setExtent, split, split', ← pads]
  have left : (front ++ ([lenDr r.ident, 0] ++ (extentBytes r.start r.length ++
      (r.rest ++ List.replicate pad 0)) ++ more)).take (front.length + 2) =
      front ++ [lenDr r.ident, 0] := by
    rw [head, List.append_assoc, ← List.append_assoc front, List.take_left]
  have right : (front ++ ([lenDr r.ident, 0] ++ (extentBytes r.start r.length ++
      (r.rest ++ List.replicate pad 0)) ++ more)).drop (front.length + 18) =
      r.rest ++ List.replicate pad 0 ++ more := by
    rw [body]
    have regroup : front ++ ([lenDr r.ident, 0] ++ (extentBytes r.start r.length ++
        (r.rest ++ List.replicate pad 0)) ++ more) =
        front ++ ([lenDr r.ident, 0] ++ extentBytes r.start r.length) ++
          (r.rest ++ List.replicate pad 0 ++ more) := by
      simp only [List.append_assoc]
    rw [regroup, List.drop_left]
  rw [left, right]
  simp only [List.append_assoc]
  rfl

theorem getExtent_bytes {r : Record} (short : Short r.ident) (front more : List UInt8) :
    getExtent (front ++ (r.bytes ++ more)) front.length = extentBytes r.start r.length := by
  obtain ⟨pad, split, -⟩ := bytes_eq short
  have regroup : front ++ (r.bytes ++ more) = front ++ [lenDr r.ident, 0] ++
      (extentBytes r.start r.length ++ (r.rest ++ (List.replicate pad 0 ++ more))) := by
    rw [split]
    simp only [List.append_assoc]
  have head : front.length + 2 = (front ++ [lenDr r.ident, 0]).length := by simp
  rw [getExtent, regroup, head, List.drop_left]
  exact List.take_left' (extentBytes_length _ _)

/-- What the relocation adds to the start of a record. -/
def base (dirLba filesLba : Nat) (r : Record) : Nat :=
  if r.flags &&& isoDirectory ≠ 0 then dirLba else filesLba

def relocate (dirLba filesLba : Nat) (r : Record) : Record :=
  { r with start := r.start + r.base dirLba filesLba }

theorem fixRecord_bytes {r : Record} (short : Short r.ident) (small : r.start < 2 ^ 32)
    (dirLba filesLba : Nat) (more : List UInt8) :
    fixRecord dirLba filesLba (r.bytes ++ more) = (r.relocate dirLba filesLba).bytes ++ more := by
  obtain ⟨pad, split, size⟩ := bytes_eq short
  have flags : (r.bytes ++ more).getD 25 0 = r.flags := by
    rw [split, rest]
    simp [extentBytes, timeBytes, leBytes, beBytes]
  have regroup : r.bytes ++ more = [lenDr r.ident, 0] ++ (leBytes 4 r.start ++
      (beBytes 4 r.start ++ (leBytes 4 r.length ++ (beBytes 4 r.length ++
        (r.rest ++ (List.replicate pad 0 ++ more)))))) := by
    rw [split, extentBytes]
    simp only [List.append_assoc]
  have lsb : leValue (((r.bytes ++ more).drop 2).take 4) = r.start := by
    have two : [lenDr r.ident, 0].length = 2 := rfl
    rw [regroup, List.drop_left' two, List.take_left' (leBytes_length 4 _)]
    exact leValue_leBytes_exact (by omega)
  have msb : beValue (((r.bytes ++ more).drop 6).take 4) = r.start := by
    rw [regroup, ← List.append_assoc, List.drop_left' (by simp),
      List.take_left' (beBytes_length 4 _)]
    exact beValue_beBytes_exact (by omega)
  have tail : (r.bytes ++ more).drop 10 = leBytes 4 r.length ++ (beBytes 4 r.length ++
      (r.rest ++ (List.replicate pad 0 ++ more))) := by
    rw [regroup, ← List.append_assoc, ← List.append_assoc, List.drop_left' (by simp)]
  have head : (r.bytes ++ more).take 2 = [lenDr r.ident, 0] := by
    rw [regroup]
    rfl
  have moved := setExtent_bytes short [] more (r.start + r.base dirLba filesLba) r.length
  have behind : (r.bytes ++ more).drop 18 = r.rest ++ (List.replicate pad 0 ++ more) := by
    rw [split]
    simp only [List.append_assoc]
    rw [← List.append_assoc [lenDr r.ident, 0], List.drop_left' (by simp)]
  simp only [List.nil_append, List.length_nil, Nat.zero_add, setExtent, head, behind] at moved
  rw [relocate, ← moved]
  simp only [fixRecord, flags, lsb, msb, tail, head, extentBytes, List.append_assoc, base]

end Record

/-! ## The walks over packed records with their members -/

section Walks
variable {rs : List Record}

/-- Where a record stands that follows `xs`. -/
def position (xs : List Record) (r : Record) : Nat :=
  (leading sectorSize 0 (xs.map Record.bytes) r.bytes.length).length

theorem isRecord_bytes (short : ∀ x ∈ rs, Short x.ident) :
    ∀ b ∈ rs.map Record.bytes, IsRecord b := by
  intro b member
  obtain ⟨r, own, rfl⟩ := List.mem_map.mp member
  exact (Record.isRecord (short r own)).1

/-- No record is found among records with other strings. -/
theorem find_other (key : List UInt8) (starts : List Nat) (short : ∀ x ∈ rs, Short x.ident)
    (other : ∀ x ∈ rs, x.ident ≠ key) :
    (starts.zip (rs.map Record.bytes)).find? (fun x => recordIdent x.2 == key) = none := by
  rw [List.find?_eq_none]
  rintro ⟨at', b⟩ member
  obtain ⟨r, own, rfl⟩ := List.mem_map.mp (List.of_mem_zip member).2
  dsimp only
  rw [(Record.isRecord (short r own)).2, beq_iff_eq]
  exact other r own

/-- The walk for a string ends at the first record that has it. -/
theorem findDirRecord_packed (key : List UInt8) (xs : List Record) {r : Record} (ys : List Record)
    (short : ∀ x ∈ xs ++ r :: ys, Short x.ident) (other : ∀ x ∈ xs, x.ident ≠ key)
    (here : r.ident = key) :
    findDirRecord key (packed (xs ++ r :: ys)) = some (position xs r) := by
  have named : (recordIdent r.bytes == key) = true := by
    rw [(Record.isRecord (short r (List.mem_append_right xs List.mem_cons_self))).2, here,
      beq_self_eq_true]
  have before (starts : List Nat) :=
    find_other key starts (fun x member => short x (List.mem_append_left _ member)) other
  have records : 0 + (packFrom sectorSize (0 : UInt8) 0 (xs.map Record.bytes)).length = _ :=
    packFrom_length 0 _
  rw [Nat.zero_add] at records
  rw [packed, findDirRecord_pack key (isRecord_bytes short), List.map_append, List.map_append,
    startsFrom_append, List.zip_append (by rw [startsFrom_length, List.length_map]),
    List.find?_append, before, Option.none_or, List.map_cons, List.map_cons, startsFrom,
    List.zip_cons_cons, List.find?_cons]
  simp only [named, Option.map_some]
  rw [position, leading, List.length_append, List.length_replicate, records]

theorem findDirRecord_none (key : List UInt8) (short : ∀ x ∈ rs, Short x.ident)
    (other : ∀ x ∈ rs, x.ident ≠ key) : findDirRecord key (packed rs) = none := by
  rw [packed, findDirRecord_pack key (isRecord_bytes short), find_other key _ short other,
    Option.map_none]

/-- The relocation moves every record once and keeps all other bytes. -/
theorem fixDirLba_packed (dirLba filesLba : Nat) (short : ∀ x ∈ rs, Short x.ident)
    (small : ∀ x ∈ rs, x.start < 2 ^ 32) :
    fixDirLba (packed rs) dirLba filesLba = packed (rs.map (Record.relocate dirLba filesLba)) := by
  rw [packed, fixDirLba_pack dirLba filesLba (isRecord_bytes short), packed, List.map_map,
    List.map_map]
  congr 1
  refine List.map_congr_left fun r member => ?_
  have moved := Record.fixRecord_bytes (short r member) (small r member) dirLba filesLba []
  rwa [List.append_nil, List.append_nil] at moved

/-- A new extent for one record. -/
theorem setExtent_packed (xs : List Record) {r : Record} (ys : List Record) (short : Short r.ident)
    (start length : Nat) :
    setExtent (packed (xs ++ r :: ys)) (position xs r) (extentBytes start length) =
      packed (xs ++ { r with start := start, length := length } :: ys) := by
  have short' : Short { r with start := start, length := length }.ident := short
  have same : { r with start := start, length := length }.bytes.length = r.bytes.length := by
    rw [Record.bytes_length short, Record.bytes_length short']
  simp only [packed, position, List.map_append, List.map_cons, pack_split, same]
  exact Record.setExtent_bytes short _ _ start length

theorem getExtent_packed (xs : List Record) {r : Record} (ys : List Record)
    (short : Short r.ident) :
    getExtent (packed (xs ++ r :: ys)) (position xs r) = extentBytes r.start r.length := by
  simp only [packed, position, List.map_append, List.map_cons, pack_split]
  exact Record.getExtent_bytes short _ _

end Walks

end DirectoryRecords
