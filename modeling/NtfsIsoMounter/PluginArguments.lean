import NtfsIsoMounter.ByteOrder
import NtfsIsoMounter.ByteWrites
import NtfsIsoMounter.CommandThread
import NtfsIsoMounter.CueSheets

/-!
# The argument block between ntfs_ext_iso and rawseciso

The launcher fills a zeroed buffer of 64 KB: a packed header of 20 bytes, the
start sectors, the section sizes and, for a PSX disc, the track descriptors.
The plugin receives a copy of the 64 KB and reads the same layout back. The
launcher tests the room left for sections with an equality, which a count
above the limit passes.
-/

namespace PluginArguments

open ByteOrder ByteWrites SectionTables
open CueSheets (TrackDef)

inductive EmuMode where
  | off
  | ps3
  | ps2Dvd
  | ps2Cd
  | psx
  | bd
  | dvd
  deriving DecidableEq

def EmuMode.value : EmuMode → Nat
  | .off => 0
  | .ps3 => 1
  | .ps2Dvd => 2
  | .ps2Cd => 3
  | .psx => 4
  | .bd => 5
  | .dvd => 6

structure ScsiTrackDescriptor where
  reserved : UInt8
  adrControl : UInt8
  trackNumber : UInt8
  reserved2 : UInt8
  trackStartAddr : UInt32
  deriving DecidableEq

/-- `sizeof(plugin_args)` -/
def pluginArgsSize : Nat := 0x10000

/-- `sizeof(rawseciso_args)`: device, emu_mode, num_sections, num_tracks. -/
def headerSize : Nat := 20

/-- `sizeof(ScsiTrackDescriptor)` -/
def descriptorSize : Nat := 8

def maxSections : Nat := (pluginArgsSize - headerSize) / 8

/-- `USB_MASS_STORAGE(n)` -/
def usbMassStorage (n : UInt64) : UInt64 :=
  if n < 6 then 0x10300000000000A + n else 0x10300000000001F + (n - 6)

/-- What `main` has in hand when it starts to pack: the sections that
`ps3ntfs_file_to_sectors` returned, at most as many as its arrays hold, and the
tracks of the cue sheet if there is one that was read and parsed. -/
structure Launch where
  ioType : Nat
  emuMode : EmuMode
  sections : List Section
  cue : Option (List TrackDef)
  bounded : sections.length ≤ maxSections

namespace Launch
variable (l : Launch)

def parts : Nat := l.sections.length

def device : Nat := (usbMassStorage (UInt64.ofNat (l.ioType % 256) - 48)).toNat

def numTracks : Nat :=
  match l.cue with
  | none => 1
  | some tracks => tracks.length

end Launch

/-! ## Packing -/

def number (w addr v : Nat) : Write UInt8 := ⟨addr, beBytes w v⟩

def wordBytes (x : UInt32) : List UInt8 := beBytes 4 x.toNat

/-- One `memcpy` of an array of 32-bit words. -/
def array (addr : Nat) (xs : List UInt32) : Write UInt8 := ⟨addr, xs.flatMap wordBytes⟩

/-- The assignments to one element of `scsi_tracks`, at address `a`. -/
def descriptorWrites (a : Nat) (adrControl : UInt8) (track : Nat) (start : UInt32) :
    List (Write UInt8) :=
  [⟨a + 1, [adrControl]⟩, ⟨a + 2, [UInt8.ofNat track]⟩, ⟨a + 4, wordBytes start⟩]

/-- The loop over the tracks of a cue sheet, from track `j` on. -/
def trackWrites (a : Nat) : Nat → List TrackDef → List (Write UInt8)
  | _, [] => []
  | j, t :: rest =>
    descriptorWrites (a + descriptorSize * j) (if t.isAudio then 0x10 else 0x14) (j + 1) t.lba ++
      trackWrites a (j + 1) rest

namespace Launch
variable (l : Launch)

def headerWrites : List (Write UInt8) :=
  [number 8 0 l.device, number 4 8 l.emuMode.value, number 4 12 l.parts]

def arrayWrites : List (Write UInt8) :=
  [array headerSize (l.sections.map Section.start),
    array (headerSize + l.parts * 4) (l.sections.map Section.size)]

/-- Address of `scsi_tracks`. -/
def tracksAddr : Nat := headerSize + 2 * l.parts * 4

def psxWrites : List (Write UInt8) :=
  number 4 16 l.numTracks ::
    match l.cue with
    | none => descriptorWrites l.tracksAddr 0x14 1 0
    | some tracks => trackWrites l.tracksAddr 0 tracks

/-- The part of `main` between `ps3ntfs_file_to_sectors` and
`cobra_load_vsh_plugin`: the writes to `plugin_args`, or nothing where the call
is not reached. -/
def pack : Option (List (Write UInt8)) :=
  if l.parts = maxSections then none
  else if l.parts = 0 then none
  else if l.emuMode = .psx then
    if l.parts = maxSections - l.numTracks * descriptorSize / 8 then none
    else some (l.headerWrites ++ l.arrayWrites ++ l.psxWrites)
  else some (l.headerWrites ++ l.arrayWrites)

end Launch

/-- The 64 KB copied from `plugin_args`, a zero-initialised global. -/
def argsCopy (log : List (Write UInt8)) : Nat → Option UInt8 :=
  window pluginArgsSize (replay (fun _ => 0) log)

/-! ## Unpacking -/

def readNumber (args : Nat → Option UInt8) (a w : Nat) : Option Nat :=
  (readCells args a w).map beValue

def readWord (args : Nat → Option UInt8) (a : Nat) : Option UInt32 :=
  (readNumber args a 4).map UInt32.ofNat

def readDescriptor (args : Nat → Option UInt8) (a : Nat) : Option ScsiTrackDescriptor := do
  let reserved ← args a
  let adrControl ← args (a + 1)
  let trackNumber ← args (a + 2)
  let reserved2 ← args (a + 3)
  let trackStartAddr ← readWord args (a + 4)
  some ⟨reserved, adrControl, trackNumber, reserved2, trackStartAddr⟩

/-- The accumulation of `discsize`, rounded down to whole 2352-byte sectors. -/
def discSize (sizes : List UInt32) (isCd2352 : Bool) : Nat :=
  let sectors := sizes.foldl (fun total n => u64 (total + n.toNat)) 0
  let bytes := u64 (sectors * 512)
  if isCd2352 then bytes - bytes % 2352 else bytes

/-- What `rawseciso_thread` takes from its argument. -/
structure ThreadArgs where
  device : Nat
  emuMode : Nat
  mounted : CommandThread.Mounted
  discsize : Nat
  tracks : List ScsiTrackDescriptor

def rawsecisoThread (args : Nat → Option UInt8) : Option ThreadArgs := do
  let numSections ← readNumber args 12 4
  let starts ← readRecords (readWord args) 4 headerSize numSections
  let sizes ← readRecords (readWord args) 4 (headerSize + numSections * 4) numSections
  let emuMode ← readNumber args 8 4
  let isCd2352 := emuMode == EmuMode.psx.value
  let tracks ←
    if isCd2352 then do
      let numTracks ← readNumber args 16 4
      readRecords (readDescriptor args) descriptorSize
        (headerSize + numSections * 4 + numSections * 4) numTracks
    else some []
  let device ← readNumber args 0 8
  some ⟨device, emuMode, ⟨List.zipWith Section.mk starts sizes, isCd2352⟩,
    discSize sizes isCd2352, tracks⟩

/-! ## Where the writes lie -/

@[simp] theorem wordBytes_length (x : UInt32) : (wordBytes x).length = 4 := beBytes_length 4 _

@[simp] theorem words_length (xs : List UInt32) :
    (xs.flatMap wordBytes).length = xs.length * 4 := by
  induction xs with
  | nil => rfl
  | cons x xs ih =>
    rw [List.flatMap_cons, List.length_append, ih, wordBytes_length, List.length_cons]
    omega

@[simp] theorem number_addr (w addr v : Nat) : (number w addr v).addr = addr := rfl

@[simp] theorem number_stop (w addr v : Nat) : (number w addr v).stop = addr + w := by
  simp [number, Write.stop]

@[simp] theorem array_addr (addr : Nat) (xs : List UInt32) : (array addr xs).addr = addr := rfl

@[simp] theorem array_stop (addr : Nat) (xs : List UInt32) :
    (array addr xs).stop = addr + xs.length * 4 := by
  simp only [array, Write.stop, words_length]

theorem descriptorWrites_between (a : Nat) (adr : UInt8) (n : Nat) (x : UInt32) :
    ∀ w ∈ descriptorWrites a adr n x, a < w.addr ∧ w.stop ≤ a + descriptorSize ∧
      (w.stop ≤ a + 3 ∨ a + 3 < w.addr) := by
  intro w hw
  simp only [descriptorWrites, List.mem_cons, List.not_mem_nil, or_false] at hw
  rcases hw with rfl | rfl | rfl <;>
    simp only [Write.stop, List.length_cons, List.length_nil, wordBytes_length, descriptorSize] <;>
    omega

theorem descriptorWrites_apart (a : Nat) (adr : UInt8) (n : Nat) (x : UInt32) :
    (descriptorWrites a adr n x).Pairwise Apart := by
  simp [descriptorWrites, Apart, Write.stop]

theorem trackWrites_between (a j : Nat) (tracks : List TrackDef) :
    ∀ w ∈ trackWrites a j tracks, a + descriptorSize * j < w.addr ∧
      w.stop ≤ a + descriptorSize * (j + tracks.length) := by
  induction tracks generalizing j with
  | nil => simp [trackWrites]
  | cons t rest ih =>
    intro w hw
    simp only [List.length_cons, descriptorSize] at ih ⊢
    rcases List.mem_append.mp hw with hw | hw
    · have := descriptorWrites_between _ _ _ _ w hw
      simp only [descriptorSize] at this
      omega
    · have := ih (j + 1) w hw
      omega

theorem trackWrites_apart (a j : Nat) (tracks : List TrackDef) :
    (trackWrites a j tracks).Pairwise Apart := by
  induction tracks generalizing j with
  | nil => exact List.Pairwise.nil
  | cons t rest ih =>
    apply pairwise_append_of_split (m := a + descriptorSize * (j + 1))
      (descriptorWrites_apart _ _ _ _) (ih (j + 1))
    · intro w hw
      have := (descriptorWrites_between _ _ _ _ w hw).2.1
      simp only [descriptorSize] at this ⊢
      omega
    · intro w hw
      exact (trackWrites_between a (j + 1) rest w hw).1.le

/-- The last byte of the last descriptor is written. -/
theorem trackWrites_last (a j : Nat) {tracks : List TrackDef} (some' : 0 < tracks.length) :
    ∃ w ∈ trackWrites a j tracks, w.stop = a + descriptorSize * (j + tracks.length) := by
  induction tracks generalizing j with
  | nil => exact absurd some' (Nat.lt_irrefl 0)
  | cons t rest ih =>
    cases rest with
    | nil =>
      refine ⟨_, List.mem_append_left _
        (List.mem_cons_of_mem _ (List.mem_cons_of_mem _ List.mem_cons_self)), ?_⟩
      simp only [Write.stop, wordBytes_length, descriptorSize, List.length_cons, List.length_nil]
      omega
    | cons u rest =>
      obtain ⟨w, hw, stop⟩ := ih (j + 1) (Nat.zero_lt_succ _)
      refine ⟨w, List.mem_append_right _ hw, stop.trans ?_⟩
      simp only [List.length_cons]
      congr 2
      omega

namespace Launch
variable (l : Launch)

/-- The tracks whose descriptors are written: without a cue sheet, one data
track at the start of the disc. -/
def tracks : List TrackDef :=
  match l.cue with
  | none => [⟨0, false⟩]
  | some tracks => tracks

theorem tracks_length : l.tracks.length = l.numTracks := by
  cases h : l.cue <;> simp [tracks, numTracks, h]

theorem psxWrites_eq :
    l.psxWrites = number 4 16 l.numTracks :: trackWrites l.tracksAddr 0 l.tracks := by
  cases h : l.cue <;> simp [tracks, psxWrites, trackWrites, h]

/-- The six writes below the track descriptors, as far as they are made. -/
def fixedWrites : List (Write UInt8) :=
  l.headerWrites ++ l.arrayWrites ++ [number 4 16 l.numTracks]

theorem fixedWrites_apart : l.fixedWrites.Pairwise Apart := by
  simp [fixedWrites, headerWrites, arrayWrites, Apart, headerSize, parts]
  omega

theorem fixedWrites_below : ∀ w ∈ l.fixedWrites, w.stop ≤ l.tracksAddr := by
  intro w hw
  simp only [fixedWrites, headerWrites, arrayWrites, List.mem_append, List.mem_cons,
    List.not_mem_nil, or_false] at hw
  rcases hw with ((rfl | rfl | rfl) | rfl | rfl) | rfl <;>
    simp only [number_stop, array_stop, List.length_map, tracksAddr, headerSize, parts] <;> omega

end Launch

/-! ## What the plugin finds -/

def descriptorBytes (d : ScsiTrackDescriptor) : List UInt8 :=
  [d.reserved] ++ [d.adrControl] ++ [d.trackNumber] ++ [d.reserved2] ++ wordBytes d.trackStartAddr

def trackDescriptor (j : Nat) (t : TrackDef) : ScsiTrackDescriptor :=
  ⟨0, if t.isAudio then 0x10 else 0x14, UInt8.ofNat (j + 1), 0, t.lba⟩

/-- The descriptors of the tracks from track `j` on. -/
def trackDescriptors : Nat → List TrackDef → List ScsiTrackDescriptor
  | _, [] => []
  | j, t :: rest => trackDescriptor j t :: trackDescriptors (j + 1) rest

@[simp] theorem trackDescriptors_length (j : Nat) (tracks : List TrackDef) :
    (trackDescriptors j tracks).length = tracks.length := by
  induction tracks generalizing j with
  | nil => rfl
  | cons t rest ih => rw [trackDescriptors, List.length_cons, ih, List.length_cons]

theorem descriptorBytes_length (d : ScsiTrackDescriptor) :
    (descriptorBytes d).length = descriptorSize := by
  simp [descriptorBytes, descriptorSize]

section Reading
variable {args : Nat → Option UInt8}

theorem readNumber_holds {a w v : Nat} (fits : v < 256 ^ w) (h : Holds args a (beBytes w v)) :
    readNumber args a w = some v := by
  have cells := readCells_holds h
  rw [beBytes_length] at cells
  rw [readNumber, cells, Option.map_some, beValue_beBytes_exact fits]

theorem readWord_holds (x : UInt32) (a : Nat) (h : Holds args a (wordBytes x)) :
    readWord args a = some x := by
  rw [readWord, readNumber_holds x.toNat_lt h, Option.map_some, UInt32.ofNat_toNat]

theorem readDescriptor_holds (d : ScsiTrackDescriptor) (a : Nat)
    (h : Holds args a (descriptorBytes d)) : readDescriptor args a = some d := by
  obtain ⟨h, addr⟩ := (holds_append args a _ _).mp h
  obtain ⟨h0, h1, h2, h3, -⟩ := h
  have start := readWord_holds _ _ addr
  simp only [Nat.add_assoc, List.cons_append, List.nil_append, List.length_cons,
    List.length_nil, Nat.reduceAdd] at start h1 h2 h3
  simp only [readDescriptor, h0, h1, h2, h3, start]
  rfl

theorem readWords_holds {a n : Nat} {xs : List UInt32} (count : xs.length = n)
    (h : Holds args a (xs.flatMap wordBytes)) : readRecords (readWord args) 4 a n = some xs := by
  subst count
  exact readRecords_holds wordBytes_length readWord_holds h

end Reading

/-- One descriptor is written over zeros, the next ones beside it. -/
theorem tracks_hold (mem : Nat → UInt8) (n a j : Nat) (tracks : List TrackDef)
    (zero : ∀ i, a + descriptorSize * j ≤ i → mem i = 0)
    (inside : a + descriptorSize * (j + tracks.length) ≤ n) :
    Holds (window n (replay mem (trackWrites a j tracks))) (a + descriptorSize * j)
      ((trackDescriptors j tracks).flatMap descriptorBytes) := by
  induction tracks generalizing mem j with
  | nil => trivial
  | cons t rest ih =>
    have apart := trackWrites_apart a j (t :: rest)
    have bounds := trackWrites_between a j (t :: rest)
    have here := descriptorWrites_between (a + descriptorSize * j)
      (if t.isAudio then 0x10 else 0x14) (j + 1) t.lba
    have later := trackWrites_between a (j + 1) rest
    simp only [List.length_cons, descriptorSize] at inside zero bounds here later
    have written : ∀ w ∈ descriptorWrites (a + descriptorSize * j)
        (if t.isAudio then 0x10 else 0x14) (j + 1) t.lba,
        Holds (window n (replay mem (trackWrites a j (t :: rest)))) w.addr w.cells := by
      intro w hw
      have := here w hw
      exact replay_holds mem apart (List.mem_append_left _ hw) (by omega)
    -- the reserved bytes are not written, they keep the zero of the buffer
    have reserved : ∀ i, i = a + descriptorSize * j ∨ i = a + descriptorSize * j + 3 →
        Holds (window n (replay mem (trackWrites a j (t :: rest)))) i [0] := by
      intro i hi
      simp only [descriptorSize] at hi
      have kept := replay_untouched mem (trackWrites a j (t :: rest)) i (by
        intro w hw
        rcases List.mem_append.mp hw with hw | hw
        · have := here w hw
          omega
        · have := later w hw
          omega)
      constructor
      · rw [window, if_pos (by omega), kept, zero i (by omega)]
      · trivial
    have rest' := ih (replay mem (descriptorWrites (a + descriptorSize * j)
      (if t.isAudio then 0x10 else 0x14) (j + 1) t.lba)) (j + 1) (by
        intro i hi
        simp only [descriptorSize] at hi ⊢
        rw [replay_untouched _ _ i (by
          intro w hw
          have := here w hw
          omega), zero i (by omega)]) (by simp only [descriptorSize]; omega)
    rw [← replay_append] at rest'
    rw [trackDescriptors, List.flatMap_cons]
    apply (holds_append _ _ _ _).mpr
    constructor
    · simp only [descriptorBytes, holds_append, List.append_assoc, List.length_cons,
        List.length_nil]
      exact ⟨reserved _ (Or.inl rfl), written _ List.mem_cons_self,
        written _ (List.mem_cons_of_mem _ List.mem_cons_self), reserved _ (Or.inr rfl),
        written _ (List.mem_cons_of_mem _ (List.mem_cons_of_mem _ List.mem_cons_self))⟩
    · rw [descriptorBytes_length]
      exact rest'

/-! ## Agreement of the two programs -/

theorem psx_value (m : EmuMode) : (m.value == EmuMode.psx.value) = (m == .psx) := by
  cases m <;> rfl

namespace Launch
variable (l : Launch)

/-- The arguments the launcher means: its device, mode, sections and tracks. -/
def arguments : ThreadArgs where
  device := l.device
  emuMode := l.emuMode.value
  mounted := ⟨l.sections, l.emuMode == .psx⟩
  discsize := discSize (l.sections.map Section.size) (l.emuMode == .psx)
  tracks := if l.emuMode == .psx then trackDescriptors 0 l.tracks else []

/-- The writes stay in the buffer and apart, and the plugin unpacks from its
copy what the launcher meant. -/
structure Delivers (log : List (Write UInt8)) : Prop where
  inside : ∀ w ∈ log, w.stop ≤ pluginArgsSize
  apart : log.Pairwise Apart
  unpacked : rawsecisoThread (argsCopy log) = some l.arguments

/-- Everything that decides whether `main` reaches the load. -/
theorem pack_cases {log : List (Write UInt8)} (h : l.pack = some log) :
    0 < l.parts ∧ l.parts < maxSections ∧
      (l.emuMode ≠ .psx ∧ log = l.headerWrites ++ l.arrayWrites ∨
        l.emuMode = .psx ∧ l.parts ≠ maxSections - l.numTracks ∧
          log = l.fixedWrites ++ trackWrites l.tracksAddr 0 l.tracks) := by
  have atMost : l.parts ≤ maxSections := l.bounded
  simp only [pack] at h
  split at h
  · cases h
  · split at h
    · cases h
    · refine ⟨by omega, by omega, ?_⟩
      split at h
      · rename_i psx
        split at h
        · cases h
        · rename_i room
          refine Or.inr ⟨psx, ?_, ?_⟩
          · simpa only [descriptorSize, Nat.mul_div_cancel _ (Nat.succ_pos 7)] using room
          · rw [psxWrites_eq] at h
            rw [fixedWrites, List.append_assoc _ [_], List.singleton_append]
            exact (Option.some.inj h).symm
      · rename_i other
        exact Or.inl ⟨other, (Option.some.inj h).symm⟩

theorem fixed_apart_tracks :
    (l.fixedWrites ++ trackWrites l.tracksAddr 0 l.tracks).Pairwise Apart := by
  apply pairwise_append_of_split l.fixedWrites_apart (trackWrites_apart _ _ _) l.fixedWrites_below
  intro w hw
  have := (trackWrites_between l.tracksAddr 0 l.tracks w hw).1
  omega

theorem fixed_inside (small : l.parts < maxSections) :
    ∀ w ∈ l.fixedWrites, w.stop ≤ pluginArgsSize := by
  intro w hw
  have := l.fixedWrites_below w hw
  simp only [tracksAddr, maxSections, pluginArgsSize, headerSize] at this small ⊢
  omega

/-- A window in which every piece stands is unpacked as meant. -/
theorem unpacked_of_holds {args : Nat → Option UInt8} (small : l.parts < maxSections)
    (header : ∀ w ∈ l.headerWrites ++ l.arrayWrites, Holds args w.addr w.cells)
    (tracks : l.emuMode = .psx → l.numTracks < 2 ^ 32 ∧
      Holds args 16 (beBytes 4 l.numTracks) ∧
      Holds args l.tracksAddr ((trackDescriptors 0 l.tracks).flatMap descriptorBytes)) :
    rawsecisoThread args = some l.arguments := by
  simp only [headerWrites, arrayWrites, List.cons_append, List.nil_append, List.forall_mem_cons,
    number, array] at header
  obtain ⟨device, mode, count, starts, sizes, -⟩ := header
  simp only [maxSections, pluginArgsSize, headerSize] at small
  have hdevice := readNumber_holds (UInt64.toNat_lt _) device
  have hmode : readNumber args 8 4 = some l.emuMode.value := by
    apply readNumber_holds _ mode
    cases l.emuMode <;> decide
  have hcount := readNumber_holds (by omega) count
  have hstarts := readWords_holds (n := l.parts) (List.length_map _) starts
  have hsizes := readWords_holds (n := l.parts) (List.length_map _) sizes
  have zipped : List.zipWith Section.mk (l.sections.map Section.start)
      (l.sections.map Section.size) = l.sections := by
    rw [List.zipWith_map, List.zipWith_self]
    exact List.map_id l.sections
  by_cases psx : l.emuMode = .psx
  · obtain ⟨few, numTracks, descriptors⟩ := tracks psx
    have htracks := readNumber_holds few numTracks
    have split : headerSize + l.parts * 4 + l.parts * 4 = l.tracksAddr := by
      simp only [tracksAddr]
      omega
    have hdescriptors := readRecords_holds descriptorBytes_length readDescriptor_holds descriptors
    rw [trackDescriptors_length, tracks_length] at hdescriptors
    have yes : (l.emuMode == .psx) = true := by simpa using psx
    simp only [rawsecisoThread, hdevice, hmode, hcount, hstarts, hsizes, htracks, split,
      hdescriptors, zipped, psx_value, yes, arguments, Option.bind_eq_bind, Option.bind_some,
      if_true]
  · have other : (l.emuMode == .psx) = false := by simpa using psx
    simp only [rawsecisoThread, hdevice, hmode, hcount, hstarts, hsizes, zipped, psx_value, other,
      arguments, Option.bind_eq_bind, Option.bind_some, Bool.false_eq_true, if_false]

/-- With room for the descriptors, both programs agree. -/
theorem delivers_of_room {log : List (Write UInt8)} (load : l.pack = some log)
    (room : l.emuMode ≠ .psx ∨ l.parts + l.numTracks ≤ maxSections) : l.Delivers log := by
  obtain ⟨-, small, ⟨other, hlog⟩ | ⟨psx, -, hlog⟩⟩ := l.pack_cases load
  · have part : log.Sublist l.fixedWrites := hlog ▸ List.sublist_append_left _ _
    have apart := l.fixedWrites_apart.sublist part
    have inside := fun w hw => l.fixed_inside small w (part.subset hw)
    refine ⟨inside, apart, ?_⟩
    apply l.unpacked_of_holds small
    · intro w hw
      rw [← hlog] at hw
      exact replay_holds _ apart hw (inside w hw)
    · intro psx
      exact absurd psx other
  · have fits : l.parts + l.numTracks ≤ maxSections := room.resolve_left (not_not_intro psx)
    have apart : log.Pairwise Apart := hlog ▸ l.fixed_apart_tracks
    have last : l.tracksAddr + descriptorSize * (0 + l.tracks.length) ≤ pluginArgsSize := by
      simp only [tracks_length, tracksAddr, maxSections, descriptorSize, pluginArgsSize,
        headerSize] at fits ⊢
      omega
    have inside : ∀ w ∈ log, w.stop ≤ pluginArgsSize := by
      intro w hw
      rw [hlog] at hw
      rcases List.mem_append.mp hw with hw | hw
      · exact l.fixed_inside small w hw
      · exact (trackWrites_between _ _ _ w hw).2.trans last
    have stands : ∀ w ∈ l.fixedWrites, Holds (argsCopy log) w.addr w.cells := by
      intro w hw
      have member : w ∈ log := hlog ▸ List.mem_append_left _ hw
      exact replay_holds _ apart member (inside w member)
    refine ⟨inside, apart, ?_⟩
    apply l.unpacked_of_holds small
    · intro w hw
      exact stands w (List.mem_append_left _ hw)
    · intro _
      have few : l.numTracks < 2 ^ 32 := by
        simp only [maxSections, pluginArgsSize, headerSize] at fits
        omega
      refine ⟨few, stands _ (List.mem_append_right _ (List.mem_singleton_self _)), ?_⟩
      rw [hlog, argsCopy, replay_append]
      apply tracks_hold _ _ _ 0 _ _ last
      intro i hi
      apply replay_untouched
      intro w hw
      exact Or.inr ((l.fixedWrites_below w hw).trans hi)

/-- Without it, the last descriptor ends past the buffer. -/
theorem overflow {log : List (Write UInt8)} (load : l.pack = some log) (psx : l.emuMode = .psx)
    (full : maxSections < l.parts + l.numTracks) : ¬ l.Delivers log := by
  intro delivers
  obtain ⟨-, small, ⟨other, -⟩ | ⟨-, -, hlog⟩⟩ := l.pack_cases load
  · exact other psx
  · have some' : 0 < l.tracks.length := by
      rw [tracks_length]
      omega
    obtain ⟨w, hw, stop⟩ := trackWrites_last l.tracksAddr 0 some'
    have inside := delivers.inside w (hlog ▸ List.mem_append_right _ hw)
    rw [stop, tracks_length] at inside
    simp only [tracksAddr, maxSections, descriptorSize, pluginArgsSize, headerSize] at inside full
    omega

end Launch

/-- Whatever the launcher hands over, the plugin gets it intact exactly when
the disc is not a PSX one or sections and tracks together fit the limit. -/
theorem pack_delivers_iff (l : Launch) {log : List (Write UInt8)} (load : l.pack = some log) :
    l.Delivers log ↔ l.emuMode ≠ .psx ∨ l.parts + l.numTracks ≤ maxSections := by
  constructor
  · intro delivers
    by_cases psx : l.emuMode = .psx
    · refine Or.inr ?_
      by_contra full
      exact l.overflow load psx (by omega) delivers
    · exact Or.inl psx
  · exact l.delivers_of_room load

/-- A PSX disc of two sections, with a data track and an audio track. -/
def twoTracks : Launch :=
  ⟨0x31, .psx, [⟨0x800, 0x1000⟩, ⟨0x4000, 0x20⟩], some [⟨0, false⟩, ⟨150, true⟩], by decide⟩

theorem pack_delivers_twoTracks : ∃ log, twoTracks.pack = some log ∧ twoTracks.Delivers log :=
  ⟨_, rfl, (pack_delivers_iff twoTracks rfl).mpr (Or.inr (by decide))⟩

/-- One section less than the arrays hold, and two tracks. -/
def fragmented : Launch :=
  ⟨0x30, .psx, List.replicate 8188 ⟨0, 1⟩, some [⟨0, false⟩, ⟨150, true⟩],
    by rw [List.length_replicate]; decide⟩

/-- The launcher loads the plugin and has written past its buffer. -/
theorem fragmented_overflows : ∃ log, fragmented.pack = some log ∧ ¬ fragmented.Delivers log := by
  have parts : fragmented.parts = 8188 := List.length_replicate
  have load : ∃ log, fragmented.pack = some log := by
    refine ⟨fragmented.headerWrites ++ fragmented.arrayWrites ++ fragmented.psxWrites, ?_⟩
    simp only [Launch.pack, parts]
    have psx : fragmented.emuMode = .psx := rfl
    rw [if_neg (by decide), if_neg (by decide), if_pos psx, if_neg (by decide)]
  obtain ⟨log, load⟩ := load
  refine ⟨log, load, fragmented.overflow load rfl ?_⟩
  rw [parts]
  decide

end PluginArguments
