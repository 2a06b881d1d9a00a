import NtfsIsoMounter.ByteMaps
import NtfsIsoMounter.ByteOrder

/-!
# Reading raw sectors from a disc

`cobra_cd_read` reads sector by sector and tries each of them up to ten times. A sector that
cannot be read is cleared and counted, and the drive is asked whether the disc is still there.
Whether this question was answered is not looked at.
-/

namespace CdReads

open ByteMaps ByteOrder

/-! ## The drive -/

def sectorSize : Nat := 2352

/-- The READ CD command. -/
structure ScsiCmdReadCd where
  opcode : UInt8
  rvEstRaddr : UInt8
  lba : UInt32
  length : List UInt8
  misc : UInt8
  rvScsb : UInt8
  control : UInt8

/-- The packed members. -/
def ScsiCmdReadCd.bytes (cmd : ScsiCmdReadCd) : List UInt8 :=
  cmd.opcode :: cmd.rvEstRaddr :: (beBytes 4 cmd.lba.toNat ++
    (cmd.length ++ [cmd.misc, cmd.rvScsb, cmd.control]))

/-- What one device command returns, and the 2352 bytes it leaves in the block: those of the
sector if it succeeds, anything if not. -/
structure Attempt where
  ret : Int
  block : Nat → UInt8

/-- What `sys_storage_ext_get_disc_type` returns, and what stands in `disctype` behind it:
the effective type if it succeeds, anything if not. -/
structure DiscType where
  ret : Int
  value : Nat

/-- The answers of a drive: for a block, a try of it and the bytes of a command, and
behind a block that could not be read. -/
structure Drive where
  attempt : Nat → Nat → List UInt8 → Attempt
  disctype : Nat → DiscType

inductive CdRet where
  | ok
  | einval
  | eio
  | enodev
deriving DecidableEq

/-! ## The loops -/

/-- The loop over `j` with `left` tries to go: the memory behind it, and whether one of them
succeeded. -/
def readTries (d : Drive) (cmd : ScsiCmdReadCd) (i readBuf : Nat) :
    Nat → Nat → (Nat → UInt8) → (Nat → UInt8) × Bool
  | 0, _, mem => (mem, false)
  | left + 1, j, mem =>
    let a := d.attempt i j cmd.bytes
    let mem := fill mem readBuf sectorSize a.block
    if a.ret = 0 then (mem, true)
    else if left = 0 then (fill mem readBuf sectorSize (fun _ => 0), false)
    else readTries d cmd i readBuf left (j + 1) mem

/-- `nerrors` is an `int`; a buffer in 32 bits of address space has too few blocks for it to
overflow. -/
structure ReadState where
  i : Nat
  sector : UInt32
  readBuf : Nat
  nerrors : Nat
  mem : Nat → UInt8

/-- Behind a block. -/
def ReadState.next (s : ReadState) : ReadState :=
  { s with i := s.i + 1, sector := s.sector + 1, readBuf := s.readBuf + sectorSize }

def readCommand (isAudio : Bool) (sector : UInt32) : ScsiCmdReadCd where
  opcode := 0xBE
  rvEstRaddr := 0
  lba := sector
  length := [0, 0, 1]
  misc := if isAudio then 0x10 else 0xF8
  rvScsb := 0
  control := 0

/-- The loop over `i` with `left` blocks to go; the disc was removed where the flag is set. -/
def readSectors (d : Drive) (isAudio : Bool) : Nat → ReadState → ReadState × Bool
  | 0, s => (s, false)
  | left + 1, s =>
    let (mem, ok) := readTries d (readCommand isAudio s.sector) s.i s.readBuf 10 0 s.mem
    if ok then readSectors d isAudio left { s with mem := mem }.next
    else
      let s := { s with mem := mem, nerrors := s.nerrors + 1 }
      if (d.disctype s.i).value = 0 then (s, true) else readSectors d isAudio left s.next

/-- What is returned, the memory from `buf` on, and what is stored at `num_errors`. -/
structure CdReadResult where
  ret : CdRet
  mem : Nat → UInt8
  numErrors : Option Nat

/-- `numErrors` tells whether the pointer is given. -/
def cobraCdRead (d : Drive) (buf : Option (Nat → UInt8)) (sector count : UInt32)
    (isAudio numErrors : Bool) :
    CdReadResult :=
  match buf with
  | none => ⟨.einval, fun _ => 0, none⟩
  | some mem =>
    match readSectors d isAudio count.toNat ⟨0, sector, 0, 0, mem⟩ with
    | (s, true) => ⟨.enodev, s.mem, none⟩
    | (s, false) =>
      ⟨if s.nerrors > 0 then .eio else .ok, s.mem, if numErrors then some s.nerrors else none⟩

/-! ## What a block should be -/

/-- The bytes that ask for the sector `lba`: of an audio track the samples, of another one all
that a sector has. -/
def readCdBytes (lba : Nat) : Bool → List UInt8
  | true => [0xBE, 0] ++ beBytes 4 lba ++ [0, 0, 1, 0x10, 0, 0]
  | false => [0xBE, 0] ++ beBytes 4 lba ++ [0, 0, 1, 0xF8, 0, 0]

section Blocks
variable (d : Drive) (isAudio : Bool) (sector : UInt32)

/-- What try `j` of block `i` is to ask for: the sector `sector + i`. -/
def wanted (i j : Nat) : Attempt :=
  d.attempt i j (readCdBytes ((sector.toNat + i) % 2 ^ 32) isAudio)

/-- The first of the ten tries of block `i` that succeeds. -/
def firstGood (i : Nat) : Option Nat :=
  (List.range 10).find? fun j => (wanted d isAudio sector i j).ret = 0

/-- All tries of block `i` fail. -/
def allFailed (i : Nat) : Bool := (firstGood d isAudio sector i).isNone

/-- The data of the first try that succeeds, or zeros. -/
def blockData (i : Nat) : Nat → UInt8 :=
  match firstGood d isAudio sector i with
  | some j => (wanted d isAudio sector i j).block
  | none => fun _ => 0

/-- The drive reports that there is no disc. -/
def Drive.NoDisc (i : Nat) : Prop := (d.disctype i).ret = 0 ∧ (d.disctype i).value = 0

/-- The first `n` blocks of the buffer are as they should be and the rest is untouched. -/
structure Described (mem₀ : Nat → UInt8) (n : Nat) (mem : Nat → UInt8) : Prop where
  blocks : ∀ i < n, ∀ k < sectorSize, mem (i * sectorSize + k) = blockData d isAudio sector i k
  behind : ∀ a, n * sectorSize ≤ a → mem a = mem₀ a

/-- The number of sectors among the first `n` whose tries all fail. -/
def failures (n : Nat) : Nat := (List.range n).countP (allFailed d isAudio sector)

/-- What is to come of a call on this memory. -/
structure ReadAsAsked (count : UInt32) (numErrors : Bool) (mem₀ : Nat → UInt8)
    (r : CdReadResult) : Prop where
  stays : (∀ i < count.toNat, allFailed d isAudio sector i = true → ¬ d.NoDisc i) →
    Described d isAudio sector mem₀ count.toNat r.mem ∧
      r.numErrors = (if numErrors then some (failures d isAudio sector count.toNat) else none) ∧
      (r.ret = .eio ↔ 0 < failures d isAudio sector count.toNat) ∧
      (r.ret = .ok ↔ failures d isAudio sector count.toNat = 0)
  removed : r.ret = .enodev → ∃ i < count.toNat, allFailed d isAudio sector i = true ∧
    d.NoDisc i ∧ Described d isAudio sector mem₀ (i + 1) r.mem
  told : (∃ i < count.toNat, allFailed d isAudio sector i = true ∧ d.NoDisc i) → r.ret = .enodev

/-- Where the disc type cannot be had and 0 is left for it, the drive has reported before
that there is no disc. -/
def Answered (count : UInt32) : Prop :=
  ∀ i < count.toNat, allFailed d isAudio sector i = true → (d.disctype i).ret ≠ 0 →
    (d.disctype i).value = 0 → ∃ i' < i, allFailed d isAudio sector i' = true ∧ d.NoDisc i'

end Blocks

/-! ## The tries of a block -/

section Tries
variable {d : Drive} {cmd : ScsiCmdReadCd} {i readBuf : Nat}

/-- The loop ends with the first success or with a cleared block. -/
theorem readTries_eq (left j : Nat) (mem : Nat → UInt8) :
    readTries d cmd i readBuf (left + 1) j mem =
      match (List.range' j (left + 1)).find? fun j => (d.attempt i j cmd.bytes).ret = 0 with
      | some j => (fill mem readBuf sectorSize (d.attempt i j cmd.bytes).block, true)
      | none => (fill mem readBuf sectorSize (fun _ => 0), false) := by
  induction left generalizing j mem with
  | zero =>
    rw [readTries, List.range'_one, List.find?_singleton]
    by_cases good : (d.attempt i j cmd.bytes).ret = 0
    · simp only [good, if_true, decide_true]
    · simp only [good, if_false, if_true, decide_false, Bool.false_eq_true,
        fill_overwrite _ _ _ _ le_rfl]
  | succ left ih =>
    rw [readTries, List.range'_succ, List.find?_cons]
    by_cases good : (d.attempt i j cmd.bytes).ret = 0
    · simp only [good, if_true, decide_true]
    · simp only [good, if_false, decide_false, Nat.succ_ne_zero]
      rw [ih]
      simp only [fill_overwrite _ _ _ _ le_rfl]

end Tries

section Run
variable {d : Drive} {isAudio : Bool} {sector : UInt32} {mem₀ : Nat → UInt8}

/-- The command that is built asks for the sector and for what is wanted of it. -/
theorem readCommand_bytes (isAudio : Bool) (sector : UInt32) :
    (readCommand isAudio sector).bytes = readCdBytes sector.toNat isAudio := by
  cases isAudio with
  | true => rfl
  | false => rfl

theorem attempt_wanted (n j : Nat) :
    d.attempt n j (readCommand isAudio (sector + UInt32.ofNat n)).bytes =
      wanted d isAudio sector n j := by
  have address : (sector + UInt32.ofNat n).toNat = (sector.toNat + n) % 2 ^ 32 := by
    rw [UInt32.toNat_add, UInt32.toNat_ofNat', Nat.add_mod_mod]
  rw [readCommand_bytes, address, wanted]

/-- The tries of block `n` leave the block as it should be. -/
theorem readTries_block (n : Nat) (mem : Nat → UInt8) :
    readTries d (readCommand isAudio (sector + UInt32.ofNat n)) n (n * sectorSize) 10 0 mem =
      (fill mem (n * sectorSize) sectorSize (blockData d isAudio sector n),
        !allFailed d isAudio sector n) := by
  rw [readTries_eq, blockData, allFailed, firstGood, List.range_eq_range']
  simp only [attempt_wanted]
  cases (List.range' 0 10).find? fun j => (wanted d isAudio sector n j).ret = 0 with
  | none => rfl
  | some j => rfl

theorem Described.block {n : Nat} {mem : Nat → UInt8}
    (described : Described d isAudio sector mem₀ n mem) :
    Described d isAudio sector mem₀ (n + 1)
      (fill mem (n * sectorSize) sectorSize (blockData d isAudio sector n)) := by
  have next : (n + 1) * sectorSize = n * sectorSize + sectorSize := Nat.succ_mul n sectorSize
  constructor
  · intro i inside k low
    by_cases last : i = n
    · rw [last, fill_inside _ _ low]
    · have before : i * sectorSize + sectorSize ≤ n * sectorSize := by
        rw [← Nat.succ_mul]
        exact Nat.mul_le_mul_right _ (by omega)
      rw [fill_outside _ _ (by omega)]
      exact described.blocks i (by omega) k low
  · intro a beyond
    rw [fill_outside _ _ (by omega)]
    exact described.behind a (by omega)

theorem failures_succ (n : Nat) : failures d isAudio sector (n + 1) =
    failures d isAudio sector n + if allFailed d isAudio sector n then 1 else 0 := by
  rw [failures, List.range_succ, List.countP_append, List.countP_singleton, failures]

/-- The state behind the first `n` blocks. -/
structure At (d : Drive) (isAudio : Bool) (sector : UInt32) (mem₀ : Nat → UInt8) (n : Nat)
    (s : ReadState) : Prop where
  index : s.i = n
  address : s.sector = sector + UInt32.ofNat n
  cursor : s.readBuf = n * sectorSize
  nerrors : s.nerrors = failures d isAudio sector n
  described : Described d isAudio sector mem₀ n s.mem

/-- Blocks `n` to `stop` were read, with something else than 0 for the disc type behind each that
failed, or the loop stopped behind the first of them where it was 0. -/
def Ends (d : Drive) (isAudio : Bool) (sector : UInt32) (mem₀ : Nat → UInt8) (n stop : Nat)
    (r : ReadState × Bool) : Prop :=
  (At d isAudio sector mem₀ stop r.1 ∧ r.2 = false ∧
    ∀ i, n ≤ i → i < stop → allFailed d isAudio sector i = true → (d.disctype i).value ≠ 0) ∨
  (∃ i, n ≤ i ∧ i < stop ∧ allFailed d isAudio sector i = true ∧ (d.disctype i).value = 0 ∧
    (∀ i', n ≤ i' → i' < i → allFailed d isAudio sector i' = true → (d.disctype i').value ≠ 0) ∧
    Described d isAudio sector mem₀ (i + 1) r.1.mem ∧ r.2 = true)

/-- What holds behind block `n` holds from it on if the loop did not stop there. -/
theorem Ends.back {n stop : Nat} {r : ReadState × Bool}
    (ends : Ends d isAudio sector mem₀ (n + 1) stop r)
    (here : allFailed d isAudio sector n = true → (d.disctype n).value ≠ 0) :
    Ends d isAudio sector mem₀ n stop r := by
  have first {high : Nat} (later : ∀ i, n + 1 ≤ i → i < high →
      allFailed d isAudio sector i = true → (d.disctype i).value ≠ 0) :
      ∀ i, n ≤ i → i < high → allFailed d isAudio sector i = true →
        (d.disctype i).value ≠ 0 := by
    intro i low below failed
    by_cases own : i = n
    · rw [own] at failed ⊢
      exact here failed
    · exact later i (by omega) below failed
  rcases ends with ⟨last, ended, present⟩ | ⟨i, low, high, failed, none', before, kept, stopped⟩
  · exact Or.inl ⟨last, ended, first present⟩
  · exact Or.inr ⟨i, by omega, high, failed, none', first before, kept, stopped⟩

theorem readSectors_spec (left : Nat) {n : Nat} {s : ReadState}
    (at' : At d isAudio sector mem₀ n s) :
    Ends d isAudio sector mem₀ n (n + left) (readSectors d isAudio left s) := by
  induction left generalizing n s with
  | zero => exact Or.inl ⟨at', rfl, fun i low high => absurd low (by omega)⟩
  | succ left ih =>
    obtain ⟨index, address, cursor, nerrors, described⟩ := at'
    have tries : readTries d (readCommand isAudio s.sector) s.i s.readBuf 10 0 s.mem =
        (fill s.mem (n * sectorSize) sectorSize (blockData d isAudio sector n),
          !allFailed d isAudio sector n) := by
      rw [address, index, cursor]
      exact readTries_block n s.mem
    have address' : s.sector + 1 = sector + UInt32.ofNat (n + 1) := by
      rw [address, UInt32.add_assoc]
      congr 1
      exact (UInt32.ofNat_add n 1).symm
    have cursor' : s.readBuf + sectorSize = (n + 1) * sectorSize := by
      rw [cursor, Nat.succ_mul]
    have shift : n + (left + 1) = n + 1 + left := by omega
    obtain ⟨mem, hmem⟩ : ∃ mem, mem =
        fill s.mem (n * sectorSize) sectorSize (blockData d isAudio sector n) := ⟨_, rfl⟩
    rw [← hmem] at tries
    rw [shift]
    cases failed : allFailed d isAudio sector n with
    | false =>
      have step : readSectors d isAudio (left + 1) s =
          readSectors d isAudio left { s with mem := mem }.next := by
        rw [readSectors, tries, failed]
        rfl
      have errors : s.nerrors = failures d isAudio sector (n + 1) := by
        rw [failures_succ, failed]
        exact nerrors
      rw [step]
      have behind := ih (s := { s with mem := mem }.next)
        ⟨congrArg (· + 1) index, address', cursor', errors, hmem ▸ described.block⟩
      exact behind.back fun failed' => absurd (failed.symm.trans failed') Bool.false_ne_true
    | true =>
      have errors : s.nerrors + 1 = failures d isAudio sector (n + 1) := by
        rw [failures_succ, failed, nerrors]
        rfl
      by_cases none' : (d.disctype n).value = 0
      · have step : readSectors d isAudio (left + 1) s =
            ({ s with mem := mem, nerrors := s.nerrors + 1 }, true) := by
          rw [readSectors, tries, failed]
          simp only [Bool.not_true, Bool.false_eq_true, if_false, index, none', if_true]
        rw [step]
        exact Or.inr ⟨n, le_rfl, by omega, failed, none', fun i low below => absurd low (by omega),
          hmem ▸ described.block, rfl⟩
      · have step : readSectors d isAudio (left + 1) s =
            readSectors d isAudio left { s with mem := mem, nerrors := s.nerrors + 1 }.next := by
          rw [readSectors, tries, failed]
          simp only [Bool.not_true, Bool.false_eq_true, if_false, index, none']
        rw [step]
        have behind := ih (s := { s with mem := mem, nerrors := s.nerrors + 1 }.next)
          ⟨congrArg (· + 1) index, address', cursor', errors, hmem ▸ described.block⟩
        exact behind.back fun _ => none'

/-- A call reads all blocks, or ends behind the first one that fails and has 0 for the disc
type. -/
theorem cobraCdRead_ends (d : Drive) (mem : Nat → UInt8) (sector count : UInt32)
    (isAudio numErrors : Bool) :
    let r := cobraCdRead d (some mem) sector count isAudio numErrors
    let failed := failures d isAudio sector count.toNat
    ((∀ i < count.toNat, allFailed d isAudio sector i = true → (d.disctype i).value ≠ 0) ∧
        Described d isAudio sector mem count.toNat r.mem ∧
        r.numErrors = (if numErrors then some failed else none) ∧
        r.ret = if 0 < failed then .eio else .ok) ∨
      ∃ i < count.toNat, allFailed d isAudio sector i = true ∧ (d.disctype i).value = 0 ∧
        (∀ i' < i, allFailed d isAudio sector i' = true → (d.disctype i').value ≠ 0) ∧
        Described d isAudio sector mem (i + 1) r.mem ∧ r.ret = .enodev := by
  intro r failed
  have start : At d isAudio sector mem 0 ⟨0, sector, 0, 0, mem⟩ := by
    refine ⟨rfl, (UInt32.add_zero sector).symm, (Nat.zero_mul _).symm, rfl, ?_⟩
    exact ⟨fun i low => absurd low (Nat.not_lt_zero i), fun a _ => rfl⟩
  have ends := readSectors_spec count.toNat start
  have hr : r = match readSectors d isAudio count.toNat ⟨0, sector, 0, 0, mem⟩ with
    | (s, true) => ⟨.enodev, s.mem, none⟩
    | (s, false) =>
      ⟨if s.nerrors > 0 then .eio else .ok, s.mem, if numErrors then some s.nerrors else none⟩ :=
        rfl
  rw [Nat.zero_add] at ends
  generalize readSectors d isAudio count.toNat ⟨0, sector, 0, 0, mem⟩ = result at ends hr
  obtain ⟨s, removed⟩ := result
  rcases ends with ⟨last, ended, present⟩ | ⟨i, -, inside, fails, none', before, kept, stopped⟩
  · change removed = false at ended
    subst ended
    have errors : s.nerrors = failed := last.nerrors
    simp only [errors] at hr
    rw [hr]
    exact Or.inl ⟨fun i => present i (Nat.zero_le i), last.described, rfl, rfl⟩
  · change removed = true at stopped
    subst stopped
    rw [hr]
    exact Or.inr ⟨i, inside, fails, none', fun i' => before i' (Nat.zero_le i'), kept, rfl⟩

end Run

section Calls
variable {d : Drive} {isAudio numErrors : Bool} {sector count : UInt32}

/-- A call that reads all blocks does what it is to do. -/
theorem readAsAsked_of_all {mem : Nat → UInt8} {r : CdReadResult}
    (present : ∀ i < count.toNat, allFailed d isAudio sector i = true → (d.disctype i).value ≠ 0)
    (described : Described d isAudio sector mem count.toNat r.mem)
    (errors : r.numErrors =
      if numErrors then some (failures d isAudio sector count.toNat) else none)
    (ret : r.ret = if 0 < failures d isAudio sector count.toNat then .eio else .ok) :
    ReadAsAsked d isAudio sector count numErrors mem r := by
  have other : r.ret ≠ .enodev := by
    rw [ret]
    split <;> exact nofun
  refine ⟨fun _ => ⟨described, errors, ?_, ?_⟩, fun gone => absurd gone other, ?_⟩
  · rw [ret]
    by_cases some' : 0 < failures d isAudio sector count.toNat
    · simp [some']
    · simp [some']
  · rw [ret]
    by_cases some' : 0 < failures d isAudio sector count.toNat
    · simp [some', Nat.ne_of_gt some']
    · simp [Nat.eq_zero_of_not_pos some']
  · rintro ⟨i, inside, fails, none'⟩
    exact absurd none'.2 (present i inside fails)

/-- So does one that ends where the drive reports that there is no disc. -/
theorem readAsAsked_of_noDisc {mem : Nat → UInt8} {r : CdReadResult} {i : Nat}
    (inside : i < count.toNat) (fails : allFailed d isAudio sector i = true)
    (none' : d.NoDisc i) (described : Described d isAudio sector mem (i + 1) r.mem)
    (ret : r.ret = .enodev) : ReadAsAsked d isAudio sector count numErrors mem r :=
  ⟨fun present => absurd none' (present i inside fails),
    fun _ => ⟨i, inside, fails, none', described⟩, fun _ => ret⟩

/-- One that ends at another place does not, on a memory of ones: the drive reports later, if
at all, and the blocks up to there have not been cleared. -/
theorem not_readAsAsked {r : CdReadResult} {i : Nat}
    (before : ∀ i' < i, allFailed d isAudio sector i' = true → (d.disctype i').value ≠ 0)
    (unanswered : ¬ d.NoDisc i)
    (described : Described d isAudio sector (fun _ => 1) (i + 1) r.mem) (ret : r.ret = .enodev) :
    ¬ ReadAsAsked d isAudio sector count numErrors (fun _ => 1) r := by
  rintro ⟨-, removed, -⟩
  obtain ⟨i', -, fails', none', described'⟩ := removed ret
  have later : i < i' := by
    by_contra low
    rcases Nat.lt_or_eq_of_le (Nat.le_of_not_lt low) with earlier | rfl
    · exact before i' earlier fails' none'.2
    · exact unanswered none'
  have some' : 0 < sectorSize := by
    rw [sectorSize]
    omega
  have cleared := described'.blocks i' (Nat.lt_succ_self i') 0 some'
  have untouched := described.behind (i' * sectorSize) (Nat.mul_le_mul_right _ later)
  have zero : blockData d isAudio sector i' 0 = 0 := by
    rw [allFailed, Option.isNone_iff_eq_none] at fails'
    rw [blockData, fails']
  rw [Nat.add_zero, untouched, zero] at cleared
  cases cleared

end Calls

/-- On a disc that stays present every block holds the data of its first successful try or
zeros, and the failures are counted and reported; without a disc behind a block that failed
the call ends there. This holds on every memory exactly if no question for the disc type that
fails and leaves 0 ends the call. -/
theorem cobraCdRead_asked_iff (d : Drive) (sector count : UInt32) (isAudio numErrors : Bool) :
    (∀ mem, ReadAsAsked d isAudio sector count numErrors mem
      (cobraCdRead d (some mem) sector count isAudio numErrors)) ↔
      Answered d isAudio sector count := by
  have ends := fun mem => cobraCdRead_ends d mem sector count isAudio numErrors
  rcases ends (fun _ => 1) with ⟨present, -⟩ | ⟨i, inside, fails, value, before, described, ret⟩
  · refine iff_of_true (fun mem => ?_) fun i inside fails _ value =>
      absurd value (present i inside fails)
    rcases ends mem with ⟨-, described, errors, ret⟩ | ⟨i, inside, fails, value, -⟩
    · exact readAsAsked_of_all present described errors ret
    · exact absurd value (present i inside fails)
  by_cases reported : d.NoDisc i
  · constructor
    · intro _ j _ fails' failed value'
      refine ⟨i, ?_, fails, reported⟩
      by_contra low
      rcases Nat.lt_or_eq_of_le (Nat.le_of_not_lt low) with earlier | rfl
      · exact before j earlier fails' value'
      · exact failed reported.1
    · intro _ mem
      rcases ends mem with ⟨present, -⟩ | ⟨j, inside', fails', value', before', described', ret'⟩
      · exact absurd value (present i inside fails)
      · -- the first such block is the same for every memory
        have same : j = i := by
          rcases Nat.lt_trichotomy j i with earlier | same | later
          · exact absurd value' (before j earlier fails')
          · exact same
          · exact absurd value (before' i later fails)
        subst same
        exact readAsAsked_of_noDisc inside' fails' reported described' ret'
  · refine iff_of_false (fun all => ?_) fun answered => ?_
    · exact not_readAsAsked before reported described ret (all _)
    · have failed : (d.disctype i).ret ≠ 0 := fun ok => reported ⟨ok, value⟩
      obtain ⟨j, earlier, fails', none'⟩ := answered i inside fails failed value
      exact before j earlier fails' none'.2

/-- No try succeeds, and the question for the disc type fails and leaves 0. -/
def mute : Drive := ⟨fun _ _ _ => ⟨-1, fun _ => 0⟩, fun _ => ⟨-1, 0⟩⟩

/-- A call for one sector reports that the disc was removed, which the drive has not said. -/
theorem mute_removed : (cobraCdRead mute (some fun _ => 0) 0 1 false true).ret = .enodev ∧
    (∀ i, ¬ mute.NoDisc i) ∧
    ¬ ∀ mem, ReadAsAsked mute false 0 1 true mem
      (cobraCdRead mute (some mem) 0 1 false true) := by
  have silent : ∀ i, ¬ mute.NoDisc i := by
    rintro i ⟨ok, -⟩
    cases ok
  have ret : (cobraCdRead mute (some fun _ => 0) 0 1 false true).ret = .enodev := by
    decide +kernel
  refine ⟨ret, silent, fun all => ?_⟩
  obtain ⟨i, -, -, none', -⟩ := (all fun _ => 0).removed ret
  exact silent i none'

end CdReads
