import NtfsIsoMounter.CText

/-!
# The name of a USB device

The product field of an inquiry has sixteen characters and no terminator. It is copied to
the buffer of the caller, the terminator is put two places behind it, and blanks are
removed at both ends.
-/

namespace UsbNames

open CText

/-! ## Devices -/

def ataHdd : Nat := 0x101000000000007
def bdvdDrive : Nat := 0x101000000000006
def builtinFlash : Nat := 0x100000000000001

/-- A partition number in the upper word. -/
def partition (device n : Nat) : Nat := device ||| n <<< 32

/-- The names `get_device` knows, but those of USB mass storage. -/
def deviceNames : List (List UInt8 × Nat) :=
  [(ascii "CELL_FS_IOS:ATA_HDD", ataHdd),
    (ascii "CELL_FS_IOS:BDVD_DRIVE", bdvdDrive),
    (ascii "CELL_FS_IOS:PATA0_HDD_DRIVE", 0x101000000000008),
    (ascii "CELL_FS_IOS:PATA0_BDVD_DRIVE", bdvdDrive),
    (ascii "CELL_FS_IOS:PATA1_HDD_DRIVE", ataHdd),
    (ascii "CELL_FS_IOS:PATA1_BDVD_DRIVE", 0x101000000000009),
    (ascii "CELL_FS_IOS:BUILTIN_FLASH", builtinFlash),
    (ascii "CELL_FS_IOS:COMPACT_FLASH", 0x103000200000010),
    (ascii "CELL_FS_IOS:MEMORY_STICK", 0x103000000000010),
    (ascii "CELL_FS_IOS:SD_CARD", 0x103000100000010),
    (ascii "CELL_FS_IOS:BUILTIN_FLSH1", partition builtinFlash 2),
    (ascii "CELL_FS_IOS:BUILTIN_FLSH2", partition builtinFlash 3),
    (ascii "CELL_FS_IOS:BUILTIN_FLSH3", partition builtinFlash 4),
    (ascii "CELL_FS_IOS:BUILTIN_FLSH4", partition builtinFlash 5),
    (ascii "CELL_FS_UTILITY:HDD0", partition ataHdd 1),
    (ascii "CELL_FS_UTILITY:HDD1", partition ataHdd 2),
    (ascii "CELL_FS_UTILITY:HDD2", partition ataHdd 3),
    (ascii "CELL_FS_UTILITY:HDD", ataHdd)]

def usbPrefix : List UInt8 := ascii "CELL_FS_IOS:USB_MASS_STORAGE"

/-- The device number of a block device, 0 for a name that is not known. -/
def getDevice (name : List UInt8) : Nat :=
  if usbPrefix.isPrefixOf name then
    match name.drop 28 with
    | [a, b, c] =>
      if isDigit a && isDigit b && isDigit c then
        let num := (a.toNat - 48) * 100 + (b.toNat - 48) * 10 + (c.toNat - 48)
        if num > 127 then 0
        else if num < 6 then 0x10300000000000A + num
        else 0x10300000000001F + (num - 6)
      else 0
    | _ => 0
  else ((deviceNames.find? fun entry => entry.1 = name).map Prod.snd).getD 0

/-! ## Removing blanks -/

/-- `temp[i] <= ' '` -/
def isBlank (b : UInt8) : Bool := b ≤ 32

/-- The first loop of `trim`: `p++` while a blank is met. -/
def skipBlanks : List UInt8 → List UInt8
  | [] => []
  | b :: p => if isBlank b then skipBlanks p else b :: p

/-- The second loop: of the first `i` bytes the last ones are cleared while they are blanks. -/
def cutBlanks (p : List UInt8) : Nat → List UInt8
  | 0 => []
  | i + 1 => if isBlank (p.getD i 0) then cutBlanks p i else p.take (i + 1)

def trim (str : List UInt8) : List UInt8 := cutBlanks (skipBlanks str) (skipBlanks str).length

theorem skipBlanks_eq (p : List UInt8) : skipBlanks p = p.dropWhile isBlank := by
  induction p with
  | nil => rfl
  | cons b p ih => rw [skipBlanks, List.dropWhile_cons, ih]

/-- `i` bytes of the text are left. -/
theorem cutBlanks_eq {p : List UInt8} {i : Nat} (inside : i ≤ p.length) :
    cutBlanks p i = (p.take i).rdropWhile isBlank := by
  induction i with
  | zero => rfl
  | succ i ih =>
    have last : p.getD i 0 = p[i] := by
      rw [List.getD_eq_getElem?_getD, List.getElem?_eq_getElem inside]
      rfl
    have split : p.take (i + 1) = p.take i ++ [p[i]] := by
      rw [List.take_add_one, List.getElem?_eq_getElem inside]
      rfl
    rw [cutBlanks, last]
    by_cases blank : isBlank p[i] = true
    · rw [if_pos blank, ih (by omega), split, List.rdropWhile_concat_pos _ _ _ blank]
    · rw [if_neg blank, split, List.rdropWhile_concat_neg _ _ _ blank]

/-- Leading and trailing blanks are gone. -/
theorem trim_eq (str : List UInt8) : trim str = (str.dropWhile isBlank).rdropWhile isBlank := by
  rw [trim, cutBlanks_eq le_rfl, List.take_length, skipBlanks_eq]

theorem trim_sublist (str : List UInt8) : (trim str).Sublist str := by
  rw [trim_eq]
  exact (List.rdropWhile_prefix isBlank (str.dropWhile isBlank)).sublist.trans
    (List.dropWhile_suffix _).sublist

/-- A visible character at the end stays there. -/
theorem trim_snoc {str : List UInt8} {b : UInt8} (visible : isBlank b = false) :
    trim (str ++ [b]) ≠ trim str := by
  have other : ¬ isBlank b = true := by
    rw [visible]
    exact Bool.false_ne_true
  have front : (str ++ [b]).dropWhile isBlank = str.dropWhile isBlank ++ [b] := by
    rw [List.dropWhile_append]
    cases rest : str.dropWhile isBlank with
    | nil => simp [visible]
    | cons c more => rfl
  intro same
  have short := (List.rdropWhile_prefix isBlank (str.dropWhile isBlank)).length_le
  have lengths := congrArg List.length same
  rw [trim_eq, trim_eq, front, List.rdropWhile_concat_neg _ _ _ other, List.length_append,
    List.length_singleton] at lengths
  omega

/-! ## The function -/

/-- What `cobra_get_usb_device_name` is answered: the table of mounts, given as pairs of mount
point and block device, or an error of one of the two calls; the results of `sys_storage_open`
and of the inquiry, with the 64 bytes of `cmd` behind it. -/
structure UsbCalls where
  mountInfo : Except Int (List (List UInt8 × List UInt8))
  storageOpen : Nat → Int
  inquiry : Nat → Int × Vector UInt8 64

/-- Up to the response of the device. -/
def inquire (c : UsbCalls) (mountPoint : List UInt8) : Except Int (Vector UInt8 64) := do
  let info ← c.mountInfo
  match info.find? fun entry => entry.1 = mountPoint with
  | none => .error (-1)
  | some entry =>
    let device := getDevice entry.2
    if device = 0 then .error (-1)
    else if c.storageOpen device ≠ 0 then .error (c.storageOpen device)
    else
      let (ret, cmd) := c.inquiry device
      if ret ≠ 0 then .error ret else .ok cmd

/-- The response starts at byte 28 of `cmd`, its member `product` at byte 16 of that. -/
def product (cmd : Vector UInt8 64) : List UInt8 := (cmd.toList.drop 44).take 16

/-- The memory from `dev_name` on and the places that were written, in order. -/
structure Stored where
  mem : List UInt8
  written : List Nat

/-- `memcpy`, the terminator, and the `strcpy` at the end of `trim`. -/
def storeName (name mem : List UInt8) : Stored :=
  let mem := name ++ mem.drop 16
  let mem := mem.set 17 0
  let str := trim (cString mem)
  ⟨str ++ 0 :: mem.drop (str.length + 1), List.range 16 ++ [17] ++ List.range (str.length + 1)⟩

def cobraGetUsbDeviceName (c : UsbCalls) (mountPoint mem : List UInt8) : Int × Stored :=
  match inquire c mountPoint with
  | .error ret => (ret, ⟨mem, []⟩)
  | .ok cmd => (0, storeName (product cmd) mem)

/-! ## The string that is left -/

theorem product_length (cmd : Vector UInt8 64) : (product cmd).length = 16 := by
  simp [product]

section Name
variable {name mem : List UInt8}

theorem trim_plain (p : List UInt8) : ∀ b ∈ trim (cString p), b ≠ 0 :=
  fun b hb => cString_plain b ((trim_sublist _).subset hb)

/-- What is left is the trimmed text up to the first terminator. -/
theorem storeName_cString (name mem : List UInt8) : cString (storeName name mem).mem =
    trim (cString ((name ++ mem.drop 16).set 17 0)) :=
  cString_terminated (trim_plain _)

variable (length : name.length = 16) (room : 18 ≤ mem.length)
include length room

/-- The byte behind the name is that of the caller. -/
theorem copied_split : ∃ rest,
    (name ++ mem.drop 16).set 17 0 = name ++ mem.getD 16 0 :: 0 :: rest := by
  refine ⟨mem.drop 18, ?_⟩
  have behind : mem.drop 16 = mem.getD 16 0 :: mem.getD 17 0 :: mem.drop 18 := by
    rw [List.drop_eq_getElem_cons (by omega), List.drop_eq_getElem_cons (by omega),
      List.getD_eq_getElem _ _ (by omega), List.getD_eq_getElem _ _ (by omega)]
  rw [behind, List.set_append_right _ _ (by omega), length]
  rfl

/-- A name with a terminator of its own. -/
theorem storeName_short (zero : 0 ∈ name) :
    cString (storeName name mem).mem = trim (cString name) := by
  obtain ⟨rest, split⟩ := copied_split length room
  rw [storeName_cString, split, cString_append_of_zero zero]

/-- A name that fills the field is followed by the byte of the caller. -/
theorem storeName_full (text : 0 ∉ name) {b : UInt8} (last : mem.getD 16 0 = b) (some' : b ≠ 0) :
    cString (storeName name mem).mem = trim (name ++ [b]) := by
  obtain ⟨rest, split⟩ := copied_split length room
  have whole : name ++ b :: 0 :: rest = (name ++ [b]) ++ 0 :: rest := by
    rw [List.append_assoc, List.singleton_append]
  rw [storeName_cString, split, last, whole, cString_terminated]
  intro c hc
  rcases List.mem_append.mp hc with inside | behind
  · rintro rfl
    exact text inside
  · rw [List.mem_singleton.mp behind]
    exact some'

end Name

/-! ## The result -/

/-- Whatever the buffer of 17 bytes and the memory behind it held, the name that is left is
the product field up to its first terminator with no blanks at its ends, and nothing is
written behind the buffer. -/
structure Reported (c : UsbCalls) (mountPoint : List UInt8) (cmd : Vector UInt8 64) : Prop where
  name : ∀ mem : List UInt8, 18 ≤ mem.length →
    cString (cobraGetUsbDeviceName c mountPoint mem).2.mem =
      ((cString (product cmd)).dropWhile isBlank).rdropWhile isBlank
  inside : ∀ mem : List UInt8, 18 ≤ mem.length →
    ∀ k ∈ (cobraGetUsbDeviceName c mountPoint mem).2.written, k < 17

/-- The name is that of the device exactly if the product field has a terminator, and the
byte behind the buffer is written for every device. -/
theorem cobraGetUsbDeviceName_reported {c : UsbCalls} {mountPoint : List UInt8}
    {cmd : Vector UInt8 64} (answered : inquire c mountPoint = .ok cmd) :
    ¬ Reported c mountPoint cmd ∧
      ((∀ mem : List UInt8, 18 ≤ mem.length →
        (cobraGetUsbDeviceName c mountPoint mem).1 = 0 ∧
        cString (cobraGetUsbDeviceName c mountPoint mem).2.mem =
          ((cString (product cmd)).dropWhile isBlank).rdropWhile isBlank) ↔ 0 ∈ product cmd) := by
  have result : ∀ mem, cobraGetUsbDeviceName c mountPoint mem =
      (0, storeName (product cmd) mem) := by
    intro mem
    rw [cobraGetUsbDeviceName, answered]
  have length := product_length cmd
  constructor
  · intro reported
    have inside := reported.inside (List.replicate 18 0) (by decide) 17
    rw [result] at inside
    have written : 17 ∈ (storeName (product cmd) (List.replicate 18 0)).written :=
      List.mem_append_left _ (List.mem_append_right _ List.mem_cons_self)
    exact absurd (inside written) (by decide)
  · constructor
    · intro same
      by_contra text
      -- the caller's buffer ends with a visible character
      have room : 18 ≤ (List.replicate 18 (88 : UInt8)).length := by decide
      obtain ⟨-, name⟩ := same (List.replicate 18 88) room
      have whole : cString (product cmd) = product cmd := cString_of_plain text
      rw [result, storeName_full length room text (b := 88) rfl (by decide), whole,
        ← trim_eq] at name
      exact trim_snoc (by decide) name
    · intro zero mem room
      rw [result]
      exact ⟨rfl, by rw [storeName_short length room zero, trim_eq]⟩

/-- A stick whose name has all of the sixteen characters. -/
def fullName : UsbCalls where
  mountInfo := .ok [(ascii "/dev_usb000", ascii "CELL_FS_IOS:USB_MASS_STORAGE000")]
  storageOpen := fun _ => 0
  inquiry := fun _ => (0, Vector.replicate 64 65)

theorem fullName_unreported : ¬ Reported fullName (ascii "/dev_usb000") (Vector.replicate 64 65) ∧
    ((∀ mem : List UInt8, 18 ≤ mem.length →
      (cobraGetUsbDeviceName fullName (ascii "/dev_usb000") mem).1 = 0 ∧
      cString (cobraGetUsbDeviceName fullName (ascii "/dev_usb000") mem).2.mem =
        ((cString (product (Vector.replicate 64 65))).dropWhile isBlank).rdropWhile isBlank) ↔
      0 ∈ product (Vector.replicate 64 65)) :=
  cobraGetUsbDeviceName_reported rfl

/-- Two buffers that differ in their last byte: the name is followed by it. -/
theorem fullName_stale :
    inquire fullName (ascii "/dev_usb000") = .ok (Vector.replicate 64 65) ∧
    cString (cobraGetUsbDeviceName fullName (ascii "/dev_usb000") (List.replicate 18 0)).2.mem =
      List.replicate 16 65 ∧
    cString (cobraGetUsbDeviceName fullName (ascii "/dev_usb000") (List.replicate 18 88)).2.mem =
      List.replicate 16 65 ++ [88] ∧
    ¬ Reported fullName (ascii "/dev_usb000") (Vector.replicate 64 65) := by
  refine ⟨by decide +kernel, by decide +kernel, by decide +kernel, ?_⟩
  intro reported
  have name := reported.name (List.replicate 18 88) (by decide)
  revert name
  decide +kernel

end UsbNames
