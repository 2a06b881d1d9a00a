import Mathlib

/-!
# Debouncing of inserted devices

`NTFS_Event_Mount` keeps one bit a port in a shared mask, a copy of the mask
from the call before, and a countdown for each port. A port that reads inserted
300 times in a row is mounted; a port that reads absent after it read inserted
is unmounted.
-/

namespace AutoMount

structure Ports where
  portsCnt : BitVec 32
  oldPortsCnt : BitVec 32
  automountCount : Fin 8 → Nat

def started : Ports := ⟨0, 0, fun _ => 0⟩

/-- `(mask >> id) & 1` -/
def bit (mask : BitVec 32) (id : Fin 8) : Bool := (mask >>> id.val) &&& 1#32 == 1#32

/-- `1 << id` -/
def port (id : Fin 8) : BitVec 32 := 1#32 <<< id.val

/-- The countdown of a port whose bit is `now` and was `was`, and the value to
return. -/
def countdown (now was : Bool) (count : Nat) : Nat × Int :=
  let count := if now ∧ ¬ was then 300 else count
  let (count, r) : Nat × Int :=
    if count > 0 then (count - 1, if count - 1 = 0 then 1 else 0) else (count, 0)
  if ¬ now ∧ was then (0, -1) else (count, r)

/-- The value returned and the new state. -/
def eventMount (s : Ports) (id : Fin 8) (inserted : Bool) : Int × Ports :=
  let portsCnt := s.portsCnt &&& ~~~port id
  let portsCnt := if inserted then portsCnt ||| port id else portsCnt
  let (count, r) := countdown (bit portsCnt id) (bit s.oldPortsCnt id) (s.automountCount id)
  (r, ⟨portsCnt, portsCnt, Function.update s.automountCount id count⟩)

/-- The state after some calls, each with its port and its reading. -/
def run (calls : List (Fin 8 × Bool)) : Ports :=
  calls.foldl (fun s call => (eventMount s call.1 call.2).2) started

/-- What a call returns after some calls. -/
def returned (calls : List (Fin 8 × Bool)) (id : Fin 8) (inserted : Bool) : Int :=
  (eventMount (run calls) id inserted).1

/-! ## The history of one port -/

def readings (calls : List (Fin 8 × Bool)) (id : Fin 8) : List Bool :=
  (calls.filter (fun call => call.1 = id)).map Prod.snd

/-- The number of readings since the last absent one. -/
def streak (past : List Bool) : Nat := (past.reverse.takeWhile (fun b => b)).length

/-- Mount at the 300th reading in a row, unmount at the end of a row. -/
def signal (past : List Bool) (inserted : Bool) : Int :=
  if inserted then if streak past + 1 = 300 then 1 else 0
  else if past.getLast? = some true then -1 else 0

theorem readings_append (calls more : List (Fin 8 × Bool)) (id : Fin 8) :
    readings (calls ++ more) id = readings calls id ++ readings more id := by
  rw [readings, List.filter_append, List.map_append, readings, readings]

theorem streak_append_true (past : List Bool) : streak (past ++ [true]) = streak past + 1 := by
  simp [streak]

theorem streak_append_false (past : List Bool) : streak (past ++ [false]) = 0 := by
  simp [streak]

theorem mem_readings {calls : List (Fin 8 × Bool)} {id : Fin 8} {inserted : Bool} :
    inserted ∈ readings calls id ↔ (id, inserted) ∈ calls := by
  constructor
  · intro member
    obtain ⟨call, inside, reading⟩ := List.mem_map.mp member
    obtain ⟨inside, own⟩ := List.mem_filter.mp inside
    have this : call = (id, inserted) := Prod.ext (of_decide_eq_true own) reading
    exact this ▸ inside
  · intro inside
    exact List.mem_map.mpr ⟨_, List.mem_filter.mpr ⟨inside, decide_eq_true rfl⟩, rfl⟩

/-- A row is not empty where the last reading was inserted. -/
theorem streak_pos_iff (past : List Bool) : 0 < streak past ↔ past.getLast? = some true := by
  rcases List.eq_nil_or_concat past with rfl | ⟨front, b, rfl⟩
  · simp [streak]
  · cases b <;> simp [streak]

/-! ## The bits -/

theorem bit_eq (mask : BitVec 32) (id : Fin 8) : bit mask id = mask.getLsbD id := by
  rw [bit, BitVec.and_one_eq_setWidth_ofBool_getLsbD]
  cases h : mask.getLsbD id <;> simp [h]

theorem getLsbD_port (id i : Fin 8) : (port id).getLsbD i = decide (i = id) := by
  revert id i
  decide

/-- A call stores its reading in its own bit and keeps the others. -/
theorem getLsbD_stored (mask : BitVec 32) (id i : Fin 8) (inserted : Bool) :
    (if inserted then (mask &&& ~~~port id) ||| port id else mask &&& ~~~port id).getLsbD i =
      if i = id then inserted else mask.getLsbD i := by
  have small : i.val < 32 := by omega
  cases inserted <;> by_cases same : i = id <;>
    simp only [Bool.false_eq_true, if_true, if_false, BitVec.getLsbD_and, BitVec.getLsbD_or,
      BitVec.getLsbD_not, getLsbD_port, same, small] <;> simp

/-! ## One call -/

/-- What is left of the countdown behind some readings. -/
def left (past : List Bool) : Nat := if streak past = 0 then 0 else 300 - streak past

theorem countdown_eq (past : List Bool) (inserted : Bool) :
    countdown inserted (past.getLast? == some true) (left past) =
      (left (past ++ [inserted]), signal past inserted) := by
  have row := streak_pos_iff past
  cases inserted with
  | true =>
    by_cases last : past.getLast? = some true
    · -- the row goes on
      have positive := row.mpr last
      simp only [countdown, left, signal, streak_append_true, last, beq_self_eq_true]
      grind
    · have none : streak past = 0 := Nat.eq_zero_of_not_pos fun positive => last (row.mp positive)
      have absent : (past.getLast? == some true) = false := beq_eq_false_iff_ne.mpr last
      simp [countdown, left, signal, streak_append_true, none, absent]
  | false =>
    by_cases last : past.getLast? = some true
    · simp [countdown, left, signal, streak_append_false, last]
    · have none : streak past = 0 := Nat.eq_zero_of_not_pos fun positive => last (row.mp positive)
      have absent : (past.getLast? == some true) = false := beq_eq_false_iff_ne.mpr last
      simp [countdown, left, signal, streak_append_false, none, absent, last]

/-- Every bit is the last reading of its port, every counter what is left. -/
structure Tracks (calls : List (Fin 8 × Bool)) (s : Ports) : Prop where
  same : s.oldPortsCnt = s.portsCnt
  bits : ∀ id : Fin 8, s.portsCnt.getLsbD id = ((readings calls id).getLast? == some true)
  counts : ∀ id, s.automountCount id = left (readings calls id)

section Calls
variable {calls : List (Fin 8 × Bool)} {s : Ports}

theorem readings_concat (calls : List (Fin 8 × Bool)) (id i : Fin 8) (inserted : Bool) :
    readings (calls ++ [(id, inserted)]) i =
      if i = id then readings calls id ++ [inserted] else readings calls i := by
  rw [readings_append]
  by_cases here : i = id
  · subst here
    simp [readings]
  · have other : id ≠ i := fun h => here h.symm
    simp [readings, here, other]

theorem eventMount_tracks (tracks : Tracks calls s) (id : Fin 8) (inserted : Bool) :
    (eventMount s id inserted).1 = signal (readings calls id) inserted ∧
      Tracks (calls ++ [(id, inserted)]) (eventMount s id inserted).2 := by
  obtain ⟨same, bits, counts⟩ := tracks
  have was : bit s.oldPortsCnt id = ((readings calls id).getLast? == some true) := by
    rw [bit_eq, same, bits]
  have now : bit (if inserted then (s.portsCnt &&& ~~~port id) ||| port id
      else s.portsCnt &&& ~~~port id) id = inserted := by
    rw [bit_eq, getLsbD_stored, if_pos rfl]
  simp only [eventMount, now, was, counts id, countdown_eq]
  refine ⟨trivial, rfl, ?_, ?_⟩
  · intro i
    rw [getLsbD_stored, readings_concat]
    by_cases here : i = id
    · rw [if_pos here, if_pos here, List.getLast?_concat]
      cases inserted <;> rfl
    · rw [if_neg here, if_neg here, bits]
  · intro i
    rw [readings_concat]
    change Function.update s.automountCount id (left (readings calls id ++ [inserted])) i = _
    by_cases here : i = id
    · subst here
      rw [if_pos rfl, Function.update_self]
    · rw [if_neg here, Function.update_of_ne here, counts]

theorem run_tracks (calls : List (Fin 8 × Bool)) : Tracks calls (run calls) := by
  induction calls using List.reverseRecOn with
  | nil =>
    refine ⟨rfl, ?_, fun _ => rfl⟩
    intro id
    simp [run, started, readings]
  | append_singleton calls call ih =>
    rw [run, List.foldl_append]
    exact (eventMount_tracks ih call.1 call.2).2

/-- A call returns the signal of the history of its own port. -/
theorem returned_signal (calls : List (Fin 8 × Bool)) (id : Fin 8) (inserted : Bool) :
    returned calls id inserted = signal (readings calls id) inserted :=
  (eventMount_tracks (run_tracks calls) id inserted).1

end Calls

/-! ## Two mounts -/

theorem streak_append (past more : List Bool) :
    streak (past ++ more) = if false ∈ more then streak more else streak past + more.length := by
  induction more using List.reverseRecOn with
  | nil => simp
  | append_singleton more b ih =>
    rw [← List.append_assoc]
    cases b with
    | true =>
      rw [streak_append_true, streak_append_true, ih]
      by_cases absent : false ∈ more <;> simp [absent]
      omega
    | false => rw [streak_append_false, streak_append_false, if_pos (by simp)]

theorem signal_eq_one (past : List Bool) (inserted : Bool) :
    signal past inserted = 1 ↔ inserted = true ∧ streak past + 1 = 300 := by
  cases inserted with
  | true =>
    simp only [signal, if_true]
    split <;> simp_all
  | false =>
    simp only [signal, Bool.false_eq_true, if_false]
    split <;> simp

/-- Between two mounts of a port one of its calls returns `-1`. -/
def UnmountBetween (calls : List (Fin 8 × Bool)) (id : Fin 8) : Prop :=
  ∀ more first second, returned calls id first = 1 →
    returned (calls ++ (id, first) :: more) id second = 1 →
    ∃ m₁ m₂, more = m₁ ++ (id, false) :: m₂ ∧
      returned (calls ++ (id, first) :: m₁) id false = -1

theorem unmountBetween (calls : List (Fin 8 × Bool)) (id : Fin 8) : UnmountBetween calls id := by
  intro more first second mounted again
  rw [returned_signal, signal_eq_one] at mounted again
  obtain ⟨rfl, row⟩ := mounted
  obtain ⟨-, row'⟩ := again
  have split : ∀ m, readings (calls ++ (id, true) :: m) id =
      readings calls id ++ [true] ++ readings m id := by
    intro m
    rw [List.append_cons, readings_append, readings_concat, if_pos rfl]
  -- an unbroken row would be longer than 300 at the second mount
  have broken : false ∈ readings more id := by
    by_contra whole
    rw [split, streak_append, if_neg whole, streak_append_true] at row'
    omega
  obtain ⟨m₁, m₂, rfl, before⟩ := List.eq_append_cons_of_mem (mem_readings.mp broken)
  have clean : false ∉ readings m₁ id := fun absent => before (mem_readings.mp absent)
  have going : 0 < streak (readings calls id ++ [true] ++ readings m₁ id) := by
    rw [streak_append, if_neg clean, streak_append_true]
    omega
  refine ⟨m₁, m₂, rfl, ?_⟩
  rw [returned_signal, split, signal, if_neg (by decide), if_pos ((streak_pos_iff _).mp going)]

/-- Every call returns the signal of the readings of its own port, and a port is
mounted at most once between two unmounts. -/
theorem eventMount_debounces (calls : List (Fin 8 × Bool)) (id : Fin 8) (inserted : Bool) :
    returned calls id inserted = signal (readings calls id) inserted ∧ UnmountBetween calls id :=
  ⟨returned_signal calls id inserted, unmountBetween calls id⟩

end AutoMount
