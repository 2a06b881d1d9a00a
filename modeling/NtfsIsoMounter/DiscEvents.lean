import Mathlib

/-!
# Disc types and fake storage events

Mounting an image is hidden from the system by a disc that is said to be taken out and put in
again. The type of the disc that was in the drive is kept from the one event to the other.
-/

namespace DiscEvents

/-! ## Disc types -/

/-- The numbers of `DiscType`, `DISC_TYPE_NONE` first, for those of `DEVICE_TYPE`. -/
def translateType (type : UInt32) : UInt32 :=
  if type = 0 then 0
  else if type = 0xFF71 then 1
  else if type = 0xFF70 then 2
  else if type = 0xFF61 then 3
  else if type = 0xFF60 then 4
  else if type = 0xFF50 then 5
  else if type = 0x40 then 6
  else if type = 0x41 then 7
  else if type = 0x42 then 8
  else if type = 0x43 then 9
  else if type = 0x10 then 10
  else if type = 0x08 then 11
  else 12

/-- The type of an image for the numbers of `DiscEmu`, `EMU_OFF` first. -/
def isoType (discEmulation edt : UInt32) : UInt32 :=
  if discEmulation = 0 then 0
  else if discEmulation = 1 then 1
  else if discEmulation = 2 then 3
  else if discEmulation = 3 then 4
  else if discEmulation = 4 then 5
  else if discEmulation = 5 then (if edt ≠ 0 then edt else 7)
  else if discEmulation = 6 then 10
  else 12

structure DiscTypes where
  real : UInt32
  effective : UInt32
  iso : UInt32
deriving DecidableEq

/-- The calls of one `cobra_get_disc_type`: the two types and the emulation, where the kernel
gives them, and what the caller's variables held before. -/
structure TypeCalls where
  discType : Option (UInt32 × UInt32)
  emuState : Option UInt32
  unset : DiscTypes

def cobraGetDiscType (c : TypeCalls) : DiscTypes :=
  match c.discType with
  | none => c.unset
  | some (rdt, edt) =>
    let edt := translateType edt
    ⟨translateType rdt, edt, c.emuState.elim 0 fun emu => isoType emu edt⟩

/-! ## Events -/

/-- `ejected_realdisc`, and the events that were sent, each with its parameter. -/
structure Drive where
  ejectedRealdisc : UInt32
  events : List (Nat × Nat)
deriving DecidableEq

/-- `report` is the type of the real disc, where the kernel gives it. -/
def cobraSendFakeDiscEjectEvent (report : Option UInt32) (d : Drive) : Drive :=
  ⟨report.getD d.ejectedRealdisc, d.events ++ [(4, 0), (8, 0)]⟩

structure InsertCalls where
  types : TypeCalls
  report : Option UInt32

/-- Some disc is known of. -/
def Goes (c : InsertCalls) (ejectedRealdisc : UInt32) : Prop :=
  ¬ (ejectedRealdisc = 0 ∧ (cobraGetDiscType c.types).real = 0 ∧
    (cobraGetDiscType c.types).effective = 0 ∧ (cobraGetDiscType c.types).iso = 0)

instance (c : InsertCalls) (ejectedRealdisc : UInt32) : Decidable (Goes c ejectedRealdisc) :=
  inferInstanceAs (Decidable (¬ _))

/-- With all of the types 0 nothing is sent. -/
def cobraSendFakeDiscInsertEvent (c : InsertCalls) (d : Drive) : Drive :=
  if Goes c d.ejectedRealdisc then
    ⟨c.report.getD d.ejectedRealdisc,
      d.events ++ [(7, 0), (3, d.ejectedRealdisc.toNat * 2 ^ 32)]⟩
  else d

/-- An eject was sent. -/
def Ejected (d : Drive) : Prop := (4, 0) ∈ d.events

/-- The last event that was sent is an insert. -/
def EndsInserted (d : Drive) : Prop := ∃ before param, d.events = before ++ [(7, 0), (3, param)]

section Drive
variable {d : Drive}

theorem ejected_eject (report : Option UInt32) : Ejected (cobraSendFakeDiscEjectEvent report d) :=
  List.mem_append_right _ List.mem_cons_self

theorem not_endsInserted_eject (report : Option UInt32) :
    ¬ EndsInserted (cobraSendFakeDiscEjectEvent report d) := by
  rintro ⟨before, param, same⟩
  have last := congrArg List.getLast? same
  simp [cobraSendFakeDiscEjectEvent] at last

theorem ejected_insert (c : InsertCalls) :
    Ejected (cobraSendFakeDiscInsertEvent c d) ↔ Ejected d := by
  rw [cobraSendFakeDiscInsertEvent]
  split
  · simp [Ejected]
  · rfl

/-- Behind an eject the last event is an insert exactly if one is sent. -/
theorem endsInserted_insert_iff (c : InsertCalls) (ended : ¬ EndsInserted d) :
    EndsInserted (cobraSendFakeDiscInsertEvent c d) ↔ Goes c d.ejectedRealdisc := by
  rw [cobraSendFakeDiscInsertEvent]
  split
  · rename_i goes
    exact iff_of_true ⟨_, _, rfl⟩ goes
  · rename_i silent
    exact iff_of_false ended silent

end Drive

end DiscEvents
