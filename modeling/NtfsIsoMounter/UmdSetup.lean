import NtfsIsoMounter.ByteOrder
import NtfsIsoMounter.DiscEvents
import NtfsIsoMounter.ParamSfo

/-!
# Setting up a UMD image

`cobra_set_psp_umd` and `cobra_set_psp_umd2` mount an image for as long as they need to look into
it, map the icon of the launcher to that of the image and tell the emulator what to run. They
differ in which file decides over the launcher, and in what is looked at last.
-/

namespace UmdSetup

open ByteOrder CText DiscEvents ParamSfo

/-! ## The calls -/

/-- One pass of the loop in `copy_file`. -/
structure CopyStep where
  readRet : Int
  nread : UInt64
  writeRet : Int
  nwritten : UInt64

/-- The calls of `copy_file`; behind the last of the steps the source is at its end. -/
structure CopyCalls where
  openSource : Int
  openTarget : Int
  steps : List CopyStep

/-- The outcomes of the calls that both functions make, in their order. The members from
`sfoMalloc` on are for the second one; `stack` is what a read outside of a buffer finds. -/
structure UmdCalls where
  iconStat : Int
  lambdaStat : Int
  openIso : Int
  lseekIso : Int
  readIso : Int
  sector : Vector UInt8 2048
  types : TypeCalls
  firstEject : Option UInt32
  mount : Int
  insert : InsertCalls
  bdvd : Nat → Int
  copy : CopyCalls
  mapPath : Int
  prometheus : Int
  eboot : Option (Vector UInt8 0xD4 × UInt64)
  lastEject : Option UInt32
  umount : Int
  lastInsert : InsertCalls
  sfoMalloc : Nat → Bool
  sfo : Option (List UInt8)
  stack : List UInt8
  lambdaOpen : Int
  lambda : List UInt8
  md5 : List UInt8 → List UInt8

structure ExtraKey where
  tag : UInt32
  code : UInt8
  keys : List UInt8
deriving DecidableEq

/-- The tables of tags and keys, and those of the titles that need another emulator. -/
structure PspTables where
  supportedTags : List UInt32
  extraKeys : List ExtraKey
  titleIds : List (List UInt8 × Nat)
  titleNames : List (List UInt8 × Nat)

structure DecryptOptions where
  decryptPatch : Nat
  tag : UInt32
  keys : Option (List UInt8)
  code : UInt8
deriving DecidableEq

/-- What the functions change: where the icon of the launcher is mapped to, whether an image they
have mounted is still mounted, the drive, the encrypted image of the launcher, and the settings of
the emulator they have made. -/
structure System where
  icon : Option (List UInt8)
  mounted : Bool
  drive : Drive
  encrypted : Bool
  umdFile : Option (List UInt8 × List UInt8 × Nat)
  decrypt : Option DecryptOptions
  emuPath : Option (List UInt8)
deriving DecidableEq

/-- The system a function finds. -/
def System.found (icon : Option (List UInt8)) (ejectedRealdisc : UInt32) : System :=
  ⟨icon, false, ⟨ejectedRealdisc, []⟩, false, none, none, none⟩

inductive Ret where
  | ok | einval | eabort | esysver | eio | ebusy | enotsup | ecanceled
  | kernel (ret : Int)
deriving DecidableEq

/-! ## Files -/

def copyLoop : List CopyStep → Int
  | [] => 0
  | s :: steps =>
    if s.readRet ≠ 0 then s.readRet
    else if s.nread = 0 then 0
    else if s.writeRet ≠ 0 then s.writeRet
    else if s.nwritten ≠ s.nread then -1
    else copyLoop steps

def copyFile (c : CopyCalls) : Int :=
  if c.openSource ≠ 0 then c.openSource
  else if c.openTarget ≠ 0 then c.openTarget
  else copyLoop c.steps

/-- The volume descriptor of an image can be read. -/
def isIso (c : UmdCalls) : Bool :=
  c.openIso = 0 ∧ c.lseekIso = 0 ∧ c.readIso = 0 ∧ c.sector.toList.take 6 = 1 :: ascii "CD001"

def titleId (c : UmdCalls) : List UInt8 := cString ((c.sector.toList.drop 0x373).take 10)

def word (header : List UInt8) (at' : Nat) : UInt32 :=
  UInt32.ofNat (beValue ((header.drop at').take 4))

def decryptOptions (t : PspTables) (c : UmdCalls) : DecryptOptions :=
  match c.eboot with
  | none => ⟨1, 0, none, 0⟩
  | some (header, read) =>
    if read = 0xD4 ∧ word header.toList 0 = 0x7E505350 then
      let tag := word header.toList 0xD0
      if tag ∈ t.supportedTags then ⟨0, 0, none, 0⟩
      else
        match t.extraKeys.find? (·.tag = tag) with
        | none => ⟨0, 0, none, 0⟩
        | some k => ⟨0, k.tag, some k.keys, k.code⟩
    else ⟨1, 0, none, 0⟩

def emuAuto : Nat := 0
def emu355 : Nat := 1
def emu400 : Nat := 2

def getEmu (t : PspTables) (titleId titleName : List UInt8) : Nat :=
  match t.titleIds.find? (·.1 = titleId) with
  | some e => e.2
  | none =>
    if titleName = [] then emu355
    else
      match t.titleNames.find? (·.1 = titleName) with
      | some e => e.2
      | none => emu355

/-- The title in PARAM.SFO, which has no terminator of its own if it fills its 63 bytes. -/
def titleName (c : UmdCalls) : List UInt8 :=
  match parseParamSfo c.sfoMalloc c.sfo (ascii "TITLE") with
  | .title text => cString (text ++ c.stack)
  | .outside => cString c.stack
  | .missing | .noMemory => []

/-- The emulator for an image. -/
def emuOf (t : PspTables) (c : UmdCalls) (options : UInt64) : Nat :=
  let emu := options.toNat % 16
  if emu = emuAuto then getEmu t (titleId c) (titleName c) else emu

def lambdaMd5 : List UInt8 :=
  [0xE1, 0x99, 0xCA, 0x7D, 0x48, 0x3B, 0xC0, 0x7B, 0x4D, 0xC6, 0xE7, 0x4A, 0xE5, 0x53, 0x76, 0xCE]

def checkLambda (c : UmdCalls) : Int :=
  if c.lambdaOpen ≠ 0 then c.lambdaOpen else if c.md5 c.lambda ≠ lambdaMd5 then -1 else 0

/-! ## The image -/

/-- The automounter has mounted the image within half a second. -/
def Appears (c : UmdCalls) : Prop := ∃ i ∈ List.range 25, c.bdvd i = 0

instance (c : UmdCalls) : Decidable (Appears c) := List.decidableBEx _ _

/-- The way back: what follows the last look into an image. -/
def release (c : UmdCalls) (real : UInt32) (s : System) : System :=
  let drive := cobraSendFakeDiscEjectEvent c.lastEject s.drive
  { s with
    mounted := s.mounted && decide (c.umount ≠ 0)
    drive := if real ≠ 0 then cobraSendFakeDiscInsertEvent c.lastInsert drive else drive }

/-- The drive when an image is about to be mounted. -/
def emptied (c : UmdCalls) (d : Drive) : Drive :=
  if (cobraGetDiscType c.types).effective ≠ 0 then cobraSendFakeDiscEjectEvent c.firstEject d else d

/-- With no root the image is mounted for the time being. -/
def mountIso (c : UmdCalls) (s : System) : Except Ret UInt32 × System :=
  let types := cobraGetDiscType c.types
  if types.iso ≠ 0 then (.error .ebusy, s)
  else
    let drive := emptied c s.drive
    if c.mount ≠ 0 then
      (.error (.kernel c.mount), { s with
        drive := if types.real ≠ 0 then cobraSendFakeDiscInsertEvent c.lastInsert drive else drive
          })
    else
      let s := { s with mounted := true, drive := cobraSendFakeDiscInsertEvent c.insert drive }
      if Appears c then (.ok types.real, s) else (.error .eio, release c types.real s)

def openRoot (c : UmdCalls) (umdRoot : Option (List UInt8)) (s : System) :
    Except Ret UInt32 × System :=
  match umdRoot with
  | some _ => (.ok 0, s)
  | none => mountIso c s

/-! ## The functions -/

/-- The tests in front of everything. -/
def checks (c : UmdCalls) (needsLambda : Bool) : Ret :=
  if c.iconStat ≠ 0 then .eabort
  else if needsLambda && decide (c.lambdaStat ≠ 0) then .esysver
  else if isIso c then .ok
  else .eio

/-- From the copy of the icon on: `late` is what the files of the image decide behind it, and
`finish` comes when the image is no longer needed. -/
def useIso (c : UmdCalls) (late : Ret) (finish : List UInt8 → System → Ret × System)
    (path : List UInt8) (umdRoot : Option (List UInt8)) (iconSavePath : List UInt8) (real : UInt32)
    (s : System) : Ret × System :=
  let copied := copyFile c.copy = 0
  let s := if copied ∧ c.mapPath = 0 then { s with icon := some iconSavePath } else s
  let s := if umdRoot.isNone then release c real s else s
  let ret := if copied then late else .eio
  if ret = .ok then finish path s else (ret, s)

/-- What the functions have in common. -/
def setPspUmd (c : UmdCalls) (needsLambda : Bool) (late : Ret)
    (finish : List UInt8 → System → Ret × System) (path umdRoot iconSavePath : Option (List UInt8))
    (s : System) : Ret × System :=
  match path, iconSavePath with
  | some path, some iconSavePath =>
    if checks c needsLambda ≠ .ok then (checks c needsLambda, s)
    else
      match openRoot c umdRoot s with
      | (.error ret, s) => (ret, s)
      | (.ok real, s) => useIso c late finish path umdRoot iconSavePath real s
  | _, _ => (.einval, s)

/-- An image with a prometheus.prx is not supported. -/
def lateUmd (c : UmdCalls) : Ret := if c.prometheus = 0 then .enotsup else .ok

def finishUmd (t : PspTables) (c : UmdCalls) (path : List UInt8) (s : System) : Ret × System :=
  (.ok, { s with umdFile := some (path, titleId c, 0), decrypt := some (decryptOptions t c) })

def cobraSetPspUmd (t : PspTables) (c : UmdCalls) (path umdRoot iconSavePath : Option (List UInt8))
    (s : System) : Ret × System :=
  setPspUmd c false (lateUmd c) (finishUmd t c) path umdRoot iconSavePath s

/-- The second emulator needs a file of the launcher that is as it should be. -/
def finishUmd2 (t : PspTables) (c : UmdCalls) (options : UInt64) (path : List UInt8) (s : System) :
    Ret × System :=
  if emuOf t c options = emu400 ∧ checkLambda c < 0 then (.ecanceled, s)
  else
    let s := if emuOf t c options = emu400 then
      { s with encrypted := true, emuPath := some (ascii "/dev_moo/pspemu") } else s
    (.ok, { s with
      umdFile := some (path, titleId c, if c.prometheus = 0 then 1 else 0)
      decrypt := some (decryptOptions t c) })

def cobraSetPspUmd2 (t : PspTables) (c : UmdCalls) (options : UInt64)
    (path umdRoot iconSavePath : Option (List UInt8)) (s : System) : Ret × System :=
  setPspUmd c true .ok (finishUmd2 t c options) path umdRoot iconSavePath s

/-! ## Failures -/

/-- Nothing is left of a call: the icon is mapped as it was, no image is mounted, no setting was
made, and where a disc is in the drive an eject was followed by an insert. -/
structure Restored (realDisc : Bool) (s s' : System) : Prop where
  icon : s'.icon = s.icon
  unmounted : s'.mounted = false
  settings : s'.umdFile = none ∧ s'.decrypt = none ∧ s'.emuPath = none
  inserted : realDisc = true → Ejected s'.drive → EndsInserted s'.drive

def Undone (realDisc : Bool) (s : System) (r : Ret × System) : Prop :=
  r.1 ≠ .ok → Restored realDisc s r.2

/-- The last insert is sent: the disc was seen at first, and is known of when it is sent. -/
def BackIn (c : UmdCalls) (ejectedRealdisc : UInt32) : Prop :=
  (cobraGetDiscType c.types).real ≠ 0 ∧ Goes c.lastInsert ejectedRealdisc

/-- The image is asked to be mounted, and it is. -/
def Mounted (c : UmdCalls) (umdRoot : Option (List UInt8)) : Prop :=
  umdRoot = none ∧ (cobraGetDiscType c.types).iso = 0 ∧ c.mount = 0

/-- The files of the image can be looked for. -/
def Opened (c : UmdCalls) (umdRoot : Option (List UInt8)) : Prop :=
  umdRoot.isSome ∨ (Mounted c umdRoot ∧ Appears c)

/-- When a call that fails behind its tests leaves nothing: `late` tells whether something behind
the mapping of the icon refuses the image. -/
structure CleansUp (realDisc : Bool) (c : UmdCalls) (umdRoot iconSavePath : Option (List UInt8))
    (s : System) (late : Prop) : Prop where
  mapping : Opened c umdRoot → copyFile c.copy = 0 → c.mapPath = 0 → late → iconSavePath = s.icon
  unmounting : Mounted c umdRoot → (Appears c → copyFile c.copy ≠ 0 ∨ late) → c.umount = 0
  refused : realDisc = true → umdRoot = none → (cobraGetDiscType c.types).iso = 0 → c.mount ≠ 0 →
    (cobraGetDiscType c.types).effective ≠ 0 →
      BackIn c (c.firstEject.getD s.drive.ejectedRealdisc)
  reinserted : realDisc = true → Mounted c umdRoot → (Appears c → copyFile c.copy ≠ 0 ∨ late) →
    BackIn c (c.lastEject.getD
      (cobraSendFakeDiscInsertEvent c.insert (emptied c s.drive)).ejectedRealdisc)

section Release
variable {realDisc : Bool} {c : UmdCalls} {real : UInt32} {s s₀ : System}

theorem release_inserted (c : UmdCalls) (real : UInt32) (s : System) :
    Ejected (release c real s).drive ∧ (EndsInserted (release c real s).drive ↔
      real ≠ 0 ∧ Goes c.lastInsert (c.lastEject.getD s.drive.ejectedRealdisc)) := by
  have ejected : Ejected (cobraSendFakeDiscEjectEvent c.lastEject s.drive) :=
    ejected_eject c.lastEject
  have ended : ¬ EndsInserted (cobraSendFakeDiscEjectEvent c.lastEject s.drive) :=
    not_endsInserted_eject c.lastEject
  simp only [release]
  split
  · rename_i there
    exact ⟨(ejected_insert c.lastInsert).mpr ejected,
      (endsInserted_insert_iff c.lastInsert ended).trans (and_iff_right there).symm⟩
  · rename_i none'
    exact ⟨ejected, iff_of_false ended fun both => none' both.1⟩

/-- What the way back restores. -/
theorem release_restored_iff (mounted : s.mounted = true)
    (settings : s.umdFile = none ∧ s.decrypt = none ∧ s.emuPath = none) :
    Restored realDisc s₀ (release c real s) ↔ s.icon = s₀.icon ∧ c.umount = 0 ∧
      (realDisc = true →
        real ≠ 0 ∧ Goes c.lastInsert (c.lastEject.getD s.drive.ejectedRealdisc)) := by
  have back := release_inserted c real s
  have unmounted : (release c real s).mounted = false ↔ c.umount = 0 := by
    simp [release, mounted]
  constructor
  · intro restored
    exact ⟨restored.icon, unmounted.mp restored.unmounted,
      fun there => back.2.mp (restored.inserted there back.1)⟩
  · rintro ⟨icon, gone, inserted⟩
    exact ⟨icon, unmounted.mpr gone, settings, fun there _ => back.2.mpr (inserted there)⟩

end Release

/-- What comes last fails on a condition of its own, and leaves the system alone then. -/
structure Finishes (finish : List UInt8 → System → Ret × System) (fails : Prop) : Prop where
  ok : ¬ fails → ∀ path s, (finish path s).1 = .ok
  failed : fails → ∀ path s, (finish path s).1 ≠ .ok ∧ (finish path s).2 = s

/-- The system with the icon mapped, if it was copied. -/
def withIcon (c : UmdCalls) (iconSavePath : List UInt8) (s : System) : System :=
  if copyFile c.copy = 0 ∧ c.mapPath = 0 then { s with icon := some iconSavePath } else s

section Behind
variable {realDisc : Bool} {c : UmdCalls} {late : Ret} {fails : Prop}
  {finish : List UInt8 → System → Ret × System} (finishes : Finishes finish fails)

include finishes in
theorem useIso_undone_iff (path : List UInt8) (umdRoot : Option (List UInt8))
    (iconSavePath : List UInt8) (real : UInt32) (s s₀ : System) :
    Undone realDisc s₀ (useIso c late finish path umdRoot iconSavePath real s) ↔
      ((copyFile c.copy ≠ 0 ∨ late ≠ .ok ∨ fails) → Restored realDisc s₀
        (if umdRoot.isNone then release c real (withIcon c iconSavePath s)
          else withIcon c iconSavePath s)) := by
  obtain ⟨closed, hclosed⟩ : ∃ closed, closed =
    (if umdRoot.isNone then release c real (withIcon c iconSavePath s)
      else withIcon c iconSavePath s) := ⟨_, rfl⟩
  have result : useIso c late finish path umdRoot iconSavePath real s =
      if (if copyFile c.copy = 0 then late else .eio) = .ok then finish path closed
      else ((if copyFile c.copy = 0 then late else .eio), closed) := by
    rw [hclosed]
    rfl
  rw [result, ← hclosed, Undone]
  by_cases copied : copyFile c.copy = 0
  · rw [if_pos copied]
    by_cases accepted : late = .ok
    · rw [if_pos accepted]
      by_cases refused : fails
      · obtain ⟨ret, same⟩ := finishes.failed refused path closed
        rw [same, imp_iff_right ret, imp_iff_right (Or.inr (Or.inr refused))]
      · refine iff_of_true (fun failed => absurd (finishes.ok refused path closed) failed) ?_
        rintro (other | other | other)
        · exact absurd copied other
        · exact absurd accepted other
        · exact absurd other refused
    · rw [if_neg accepted, imp_iff_right accepted, imp_iff_right (Or.inr (Or.inl accepted))]
  · have failed : Ret.eio ≠ Ret.ok := fun same => nomatch same
    rw [if_neg copied, if_neg failed, imp_iff_right failed, imp_iff_right (Or.inl copied)]

/-- Where the caller has mounted the image only the icon is at stake. -/
theorem withIcon_restored_iff {iconSavePath : List UInt8} {icon : Option (List UInt8)}
    {ejectedRealdisc : UInt32} :
    Restored realDisc (System.found icon ejectedRealdisc)
        (withIcon c iconSavePath (System.found icon ejectedRealdisc)) ↔
      (copyFile c.copy = 0 → c.mapPath = 0 → some iconSavePath = icon) := by
  rw [withIcon]
  have silent : ¬ Ejected (System.found icon ejectedRealdisc).drive := List.not_mem_nil
  by_cases mapped : copyFile c.copy = 0 ∧ c.mapPath = 0
  · rw [if_pos mapped]
    constructor
    · exact fun restored _ _ => restored.icon
    · intro same
      exact ⟨same mapped.1 mapped.2, rfl, ⟨rfl, rfl, rfl⟩, fun _ ejected => absurd ejected silent⟩
  · rw [if_neg mapped]
    refine iff_of_true ⟨rfl, rfl, ⟨rfl, rfl, rfl⟩, fun _ ejected => absurd ejected silent⟩ ?_
    exact fun copied map => absurd ⟨copied, map⟩ mapped

/-- A mount that is refused. -/
theorem refused_restored_iff {icon : Option (List UInt8)} {ejectedRealdisc : UInt32} :
    Restored realDisc (System.found icon ejectedRealdisc)
        { System.found icon ejectedRealdisc with
          drive := if (cobraGetDiscType c.types).real ≠ 0 then
              cobraSendFakeDiscInsertEvent c.lastInsert (emptied c ⟨ejectedRealdisc, []⟩)
            else emptied c ⟨ejectedRealdisc, []⟩ } ↔
      (realDisc = true → (cobraGetDiscType c.types).effective ≠ 0 →
        BackIn c (c.firstEject.getD ejectedRealdisc)) := by
  obtain ⟨real, hreal⟩ : ∃ real, real = (cobraGetDiscType c.types).real := ⟨_, rfl⟩
  rw [BackIn, ← hreal]
  have drive : Restored realDisc (System.found icon ejectedRealdisc)
        { System.found icon ejectedRealdisc with
          drive := if real ≠ 0 then
              cobraSendFakeDiscInsertEvent c.lastInsert (emptied c ⟨ejectedRealdisc, []⟩)
            else emptied c ⟨ejectedRealdisc, []⟩ } ↔
      (realDisc = true → Ejected (if real ≠ 0 then
          cobraSendFakeDiscInsertEvent c.lastInsert (emptied c ⟨ejectedRealdisc, []⟩)
        else emptied c ⟨ejectedRealdisc, []⟩) → EndsInserted (if real ≠ 0 then
          cobraSendFakeDiscInsertEvent c.lastInsert (emptied c ⟨ejectedRealdisc, []⟩)
        else emptied c ⟨ejectedRealdisc, []⟩)) :=
    ⟨fun restored => restored.inserted, fun inserted => ⟨rfl, rfl, ⟨rfl, rfl, rfl⟩, inserted⟩⟩
  rw [drive, emptied]
  refine imp_congr_right fun _ => ?_
  by_cases inside : (cobraGetDiscType c.types).effective ≠ 0
  · rw [if_pos inside, imp_iff_right inside]
    have ejected := ejected_eject (d := ⟨ejectedRealdisc, []⟩) c.firstEject
    have ended := not_endsInserted_eject (d := ⟨ejectedRealdisc, []⟩) c.firstEject
    split
    · rename_i there
      rw [imp_iff_right ((ejected_insert c.lastInsert).mpr ejected),
        endsInserted_insert_iff c.lastInsert ended, and_iff_right there]
      rfl
    · rename_i none'
      exact iff_of_false (fun all => ended (all ejected)) fun both => none' both.1
  · rw [if_neg inside]
    have silent : ¬ Ejected ⟨ejectedRealdisc, []⟩ := List.not_mem_nil
    refine iff_of_true (fun ejected => absurd ?_ silent) fun other => absurd other inside
    split at ejected
    · exact (ejected_insert c.lastInsert).mp ejected
    · exact ejected

/-- Nothing has happened yet. -/
theorem restored_found (realDisc : Bool) (icon : Option (List UInt8)) (ejectedRealdisc : UInt32) :
    Restored realDisc (System.found icon ejectedRealdisc) (System.found icon ejectedRealdisc) :=
  ⟨rfl, rfl, ⟨rfl, rfl, rfl⟩, fun _ ejected => absurd ejected List.not_mem_nil⟩

/-! Which of the conditions are left, path by path. -/

section Paths
variable {iconSavePath : Option (List UInt8)} {s : System} {late' : Prop}

theorem cleansUp_given_iff (root : List UInt8) :
    CleansUp realDisc c (some root) iconSavePath s late' ↔
      (copyFile c.copy = 0 → c.mapPath = 0 → late' → iconSavePath = s.icon) := by
  have never : some root ≠ none := nofun
  constructor
  · exact fun clean => clean.mapping (.inl rfl)
  · intro mapping
    constructor
    · exact fun _ => mapping
    · exact fun mounted => absurd mounted.1 never
    · exact fun _ none' => absurd none' never
    · exact fun _ mounted => absurd mounted.1 never

theorem cleansUp_busy (busy : (cobraGetDiscType c.types).iso ≠ 0) :
    CleansUp realDisc c none iconSavePath s late' := by
  constructor
  · rintro (given | ⟨mounted, -⟩)
    · cases given
    · exact absurd mounted.2.1 busy
  · exact fun mounted => absurd mounted.2.1 busy
  · exact fun _ _ free => absurd free busy
  · exact fun _ mounted => absurd mounted.2.1 busy

theorem cleansUp_refused_iff (free : (cobraGetDiscType c.types).iso = 0) (refused : c.mount ≠ 0) :
    CleansUp realDisc c none iconSavePath s late' ↔
      (realDisc = true → (cobraGetDiscType c.types).effective ≠ 0 →
        BackIn c (c.firstEject.getD s.drive.ejectedRealdisc)) := by
  constructor
  · exact fun clean there => clean.refused there rfl free refused
  · intro back
    constructor
    · rintro (given | ⟨mounted, -⟩)
      · cases given
      · exact absurd mounted.2.2 refused
    · exact fun mounted => absurd mounted.2.2 refused
    · exact fun there _ _ _ => back there
    · exact fun _ mounted => absurd mounted.2.2 refused

theorem cleansUp_hidden_iff (mounted : Mounted c none) (hidden : ¬ Appears c) :
    CleansUp realDisc c none iconSavePath s late' ↔ c.umount = 0 ∧ (realDisc = true →
      BackIn c (c.lastEject.getD
        (cobraSendFakeDiscInsertEvent c.insert (emptied c s.drive)).ejectedRealdisc)) := by
  constructor
  · intro clean
    exact ⟨clean.unmounting mounted fun seen => absurd seen hidden,
      fun there => clean.reinserted there mounted fun seen => absurd seen hidden⟩
  · rintro ⟨unmounting, reinserted⟩
    constructor
    · rintro (given | ⟨-, seen⟩)
      · cases given
      · exact absurd seen hidden
    · exact fun _ _ => unmounting
    · exact fun _ _ _ refused => absurd mounted.2.2 refused
    · exact fun there _ _ => reinserted there

theorem cleansUp_mounted_iff (mounted : Mounted c none) (seen : Appears c) :
    CleansUp realDisc c none iconSavePath s late' ↔ ((copyFile c.copy ≠ 0 ∨ late') →
      (copyFile c.copy = 0 → c.mapPath = 0 → iconSavePath = s.icon) ∧ c.umount = 0 ∧
        (realDisc = true → BackIn c (c.lastEject.getD
          (cobraSendFakeDiscInsertEvent c.insert (emptied c s.drive)).ejectedRealdisc))) := by
  constructor
  · intro clean failed
    refine ⟨fun copied map => ?_, clean.unmounting mounted fun _ => failed,
      fun there => clean.reinserted there mounted fun _ => failed⟩
    exact clean.mapping (.inr ⟨mounted, seen⟩) copied map
      (failed.resolve_left fun other => other copied)
  · intro clean
    constructor
    · exact fun _ copied map later => (clean (.inr later)).1 copied map
    · exact fun _ failed => (clean (failed seen)).2.1
    · exact fun _ _ _ refused => absurd mounted.2.2 refused
    · exact fun there _ failed => (clean (failed seen)).2.2 there

end Paths

/-- The system when the image is mounted for the time being. -/
def inserted (c : UmdCalls) (s : System) : System :=
  { s with mounted := true, drive := cobraSendFakeDiscInsertEvent c.insert (emptied c s.drive) }

theorem mountIso_mounted (mounted : Mounted c none) (s : System) :
    mountIso c s = if Appears c then (.ok (cobraGetDiscType c.types).real, inserted c s)
      else (.error .eio, release c (cobraGetDiscType c.types).real (inserted c s)) := by
  rw [mountIso, if_neg (not_not.mpr mounted.2.1), if_neg (not_not.mpr mounted.2.2)]
  rfl

/-- The way back from there, wherever the icon is mapped to by then. -/
theorem inserted_release_restored_iff {icon : Option (List UInt8)} {ejectedRealdisc : UInt32}
    (shown : Option (List UInt8)) :
    Restored realDisc (System.found icon ejectedRealdisc)
        (release c (cobraGetDiscType c.types).real
          { inserted c (System.found icon ejectedRealdisc) with icon := shown }) ↔
      shown = icon ∧ c.umount = 0 ∧ (realDisc = true → BackIn c (c.lastEject.getD
        (cobraSendFakeDiscInsertEvent c.insert
          (emptied c (System.found icon ejectedRealdisc).drive)).ejectedRealdisc)) :=
  release_restored_iff rfl ⟨rfl, rfl, rfl⟩

variable (realDisc c late) in
include finishes in
/-- The two functions undo what they have done exactly on these conditions. -/
theorem setPspUmd_undone_iff (needsLambda : Bool)
    (path umdRoot iconSavePath icon : Option (List UInt8)) (ejectedRealdisc : UInt32) :
    Undone realDisc (System.found icon ejectedRealdisc)
        (setPspUmd c needsLambda late finish path umdRoot iconSavePath
          (System.found icon ejectedRealdisc)) ↔
      (path.isSome → iconSavePath.isSome → checks c needsLambda = .ok →
        CleansUp realDisc c umdRoot iconSavePath (System.found icon ejectedRealdisc)
          (late ≠ .ok ∨ fails)) := by
  have nothing := restored_found realDisc icon ejectedRealdisc
  rcases path with _ | path
  · exact iff_of_true (fun _ => nothing) nofun
  rcases iconSavePath with _ | iconSavePath
  · exact iff_of_true (fun _ => nothing) nofun
  rw [imp_iff_right Option.isSome_some, imp_iff_right Option.isSome_some, setPspUmd]
  by_cases accepted : checks c needsLambda = .ok
  swap
  · rw [if_pos accepted]
    exact iff_of_true (fun _ => nothing) fun other => absurd other accepted
  rw [if_neg (not_not.mpr accepted), imp_iff_right accepted]
  rcases umdRoot with _ | root
  · by_cases free : (cobraGetDiscType c.types).iso = 0
    swap
    · rw [openRoot, mountIso, if_pos free]
      exact iff_of_true (fun _ => nothing) (cleansUp_busy free)
    by_cases accepts : c.mount = 0
    swap
    · have kernel : Ret.kernel c.mount ≠ .ok := nofun
      rw [openRoot, mountIso, if_neg (not_not.mpr free), if_pos accepts,
        cleansUp_refused_iff free accepts]
      exact (imp_iff_right kernel).trans refused_restored_iff
    have mounted : Mounted c none := ⟨rfl, free, accepts⟩
    rw [openRoot, mountIso_mounted mounted]
    by_cases seen : Appears c
    · rw [if_pos seen, cleansUp_mounted_iff mounted seen]
      refine (useIso_undone_iff finishes path none iconSavePath _ _ _).trans ?_
      refine imp_congr_right fun _ => ?_
      rw [if_pos Option.isNone_none, withIcon]
      by_cases mapped : copyFile c.copy = 0 ∧ c.mapPath = 0
      · rw [if_pos mapped, imp_iff_right mapped.1, imp_iff_right mapped.2]
        exact inserted_release_restored_iff (some iconSavePath)
      · rw [if_neg mapped]
        refine (inserted_release_restored_iff icon).trans (and_congr_left' (iff_of_true rfl ?_))
        exact fun copied map => absurd ⟨copied, map⟩ mapped
    · have failed : Ret.eio ≠ Ret.ok := nofun
      rw [if_neg seen, cleansUp_hidden_iff mounted seen]
      refine (imp_iff_right failed).trans ((inserted_release_restored_iff icon).trans ?_)
      exact and_iff_right rfl
  · rw [openRoot, cleansUp_given_iff root]
    refine (useIso_undone_iff finishes path (some root) iconSavePath 0 _ _).trans ?_
    rw [if_neg nofun, withIcon_restored_iff]
    constructor
    · exact fun clean copied map later => clean (.inr later) copied map
    · exact fun clean failed copied map =>
        clean copied map (failed.resolve_left fun other => other copied)

end Behind

/-! ## The two functions -/

section Functions
variable (t : PspTables) (c : UmdCalls)

theorem finishUmd_finishes : Finishes (finishUmd t c) False := by
  constructor
  · exact fun _ _ _ => rfl
  · exact fun never => never.elim

theorem finishUmd2_finishes (options : UInt64) :
    Finishes (finishUmd2 t c options) (emuOf t c options = emu400 ∧ checkLambda c < 0) := by
  constructor
  · intro passes path s
    rw [finishUmd2, if_neg passes]
  · intro fails path s
    rw [finishUmd2, if_pos fails]
    exact ⟨nofun, rfl⟩

theorem lateUmd_refuses_iff : (lateUmd c ≠ .ok ∨ False) ↔ c.prometheus = 0 := by
  rw [or_false, lateUmd]
  split
  · rename_i there
    exact iff_of_true nofun there
  · rename_i missing
    exact iff_of_false (not_not.mpr rfl) missing

/-- A failed set-up leaves everything as it was exactly if what fails comes before the icon is
mapped and the calls of the way back do their part. -/
theorem setPspUmd_failures_iff (realDisc : Bool) (options : UInt64)
    (path umdRoot iconSavePath icon : Option (List UInt8)) (ejectedRealdisc : UInt32) :
    (Undone realDisc (System.found icon ejectedRealdisc)
        (cobraSetPspUmd t c path umdRoot iconSavePath (System.found icon ejectedRealdisc)) ↔
      (path.isSome → iconSavePath.isSome → checks c false = .ok →
        CleansUp realDisc c umdRoot iconSavePath (System.found icon ejectedRealdisc)
          (c.prometheus = 0))) ∧
    (Undone realDisc (System.found icon ejectedRealdisc)
        (cobraSetPspUmd2 t c options path umdRoot iconSavePath
          (System.found icon ejectedRealdisc)) ↔
      (path.isSome → iconSavePath.isSome → checks c true = .ok →
        CleansUp realDisc c umdRoot iconSavePath (System.found icon ejectedRealdisc)
          (emuOf t c options = emu400 ∧ checkLambda c < 0))) := by
  constructor
  · have undone := setPspUmd_undone_iff realDisc c (lateUmd c) (finishUmd_finishes t c) false path
      umdRoot iconSavePath icon ejectedRealdisc
    rwa [propext (lateUmd_refuses_iff c)] at undone
  · have undone := setPspUmd_undone_iff realDisc c .ok (finishUmd2_finishes t c options) true path
      umdRoot iconSavePath icon ejectedRealdisc
    rwa [propext (or_iff_right (not_not.mpr rfl))] at undone

end Functions

/-- An image that is mounted, seen and unmounted, and has a prometheus.prx. -/
def prometheusCalls : UmdCalls :=
  let types : TypeCalls := ⟨some (0, 0), some 0, ⟨0, 0, 0⟩⟩
  { iconStat := 0, lambdaStat := 0, openIso := 0, lseekIso := 0, readIso := 0
    sector := ⟨(1 :: ascii "CD001" ++ List.replicate 2042 0).toArray, by
      rw [List.size_toArray, List.length_append, List.length_replicate]
      rfl⟩
    types := types, firstEject := none, mount := 0, insert := ⟨types, none⟩, bdvd := fun _ => 0
    copy := ⟨0, 0, [⟨0, 4096, 0, 4096⟩, ⟨0, 0, 0, 0⟩]⟩, mapPath := 0, prometheus := 0
    eboot := none, lastEject := none, umount := 0, lastInsert := ⟨types, none⟩
    sfoMalloc := fun _ => true, sfo := none, stack := [], lambdaOpen := 0, lambda := []
    md5 := id }

/-- The launcher keeps the icon of an image that is not supported. -/
theorem prometheus_keeps_icon :
    let r := cobraSetPspUmd ⟨[], [], [], []⟩ prometheusCalls (some (ascii "/dev_hdd0/PSPISO/a.iso"))
      none (some (ascii "/dev_hdd0/temp_icon.png")) (System.found none 0)
    r.1 = .enotsup ∧ r.2.icon = some (ascii "/dev_hdd0/temp_icon.png") ∧
      ¬ Undone false (System.found none 0) r := by
  intro r
  have ret : r.1 = .enotsup := by decide +kernel
  have icon : r.2.icon = some (ascii "/dev_hdd0/temp_icon.png") := by decide +kernel
  refine ⟨ret, icon, fun undone => ?_⟩
  have failed : r.1 ≠ .ok := by
    rw [ret]
    exact nofun
  have kept := (undone failed).icon
  rw [icon] at kept
  cases kept

end UmdSetup
