import NtfsIsoMounter.CdSectorCache

/-!
# Events served by rawseciso_thread

A disc mounted from 2352-byte sectors serves 2048-byte reads by reading as many
raw sectors as fit the caller's buffer, compacting them in place, and reading
the remaining blocks one by one. The thread sends the return value of the read
routine back on its result port. Two of the three routines return the status
of the storage reads they issued; the compacting one drops it.
-/

namespace CommandThread

open ByteMaps SectionTables IsoReads CdSectorCache

/-- The byte loop `my_memcpy`, within one buffer. -/
def myMemcpy (io : Io) (dst src : Nat) : Nat → Io
  | 0 => io
  | i + 1 =>
    let io := myMemcpy io dst src i
    io.store (dst + i) 1 (fun _ => io.mem (src + i))

/-- Move the 2048 data bytes of `fit` raw sectors together. -/
def compact : Nat → Io → Nat → Nat → Io
  | 0, io, _, _ => io
  | fit + 1, io, src, out =>
    compact fit (myMemcpy io out (src + 24) 2048) (src + 2352) (out + 2048)

/-- The loop of single-block reads; every return value is ignored. -/
def readBlocks (d : Storage) (tab : List Section) : Nat → Io → Nat → Nat → Option Io
  | 0, io, _, _ => some io
  | rem + 1, io, out, startSector =>
    (processReadIsoCmd d tab io out (u32 (u32 (startSector * 2352) + 24)) 2048).bind
      (fun r => readBlocks d tab rem r.2 (out + 2048) (u32 (startSector + 1)))

def processReadCd2048Cmd (d : Storage) (tab : List Section) (io : Io)
    (buf startSector sectorCount : Nat) : Option (Int × Io) :=
  let capacity := u32 (sectorCount * 2048)
  let fit := capacity / 2352
  let rem := u32 (sectorCount + 2 ^ 32 - fit)
  let bulk :=
    if fit > 0 then
      (processReadIsoCmd d tab io buf (u32 (startSector * 2352)) (u32 (fit * 2352))).map
        (fun r => compact fit r.2 buf buf)
    else some io
  (bulk.bind (fun io => readBlocks d tab rem io (buf + fit * 2048) (u32 (startSector + fit)))).map
    (fun io => (0, io))

inductive StorageCommand where
  | readIso
  | readDisc
  | readCdIso2352
  | fakeStorageEvent
  | getPsxVideoMode
  deriving DecidableEq

structure Event where
  data1 : Nat
  data2 : Nat
  data3 : Nat

def Event.command (e : Event) : Option StorageCommand :=
  match e.data1 with
  | 0 => some .readIso
  | 1 => some .readDisc
  | 2 => some .readCdIso2352
  | 3 => some .fakeStorageEvent
  | 4 => some .getPsxVideoMode
  | _ => none

/-- The upper half of `data3`. -/
def Event.buf (e : Event) : Nat := u32 (e.data3 / 2 ^ 32)

def Event.offset (e : Event) : Nat := e.data2

/-- The lower half of `data3`. -/
def Event.size (e : Event) : Nat := e.data3 % 2 ^ 32

/-- The globals of the module that the event loop reads. -/
structure Mounted where
  tab : List Section
  isCd2352 : Bool

/-- The switch of the event loop: the value sent to `result_port`. Every other
command answers with the 0 that the receive returned. -/
def handleEvent (d : Storage) (m : Mounted) (alloc : Allocation) (cd : CdState) (io : Io)
    (e : Event) : Option (Int × Io × CdState) :=
  match e.command with
  | some .readIso =>
    if m.isCd2352 then
      (processReadCd2048Cmd d m.tab io e.buf (u32 (e.offset / 2048)) (e.size / 2048)).map
        (fun r => (r.1, r.2, cd))
    else (processReadIsoCmd d m.tab io e.buf e.offset e.size).map (fun r => (r.1, r.2, cd))
  | some .readCdIso2352 =>
    processReadCd2352Cmd d m.tab alloc cd io e.buf (u32 (e.offset / 2352)) (e.size / 2352)
  | _ => some (0, io, cd)

/-! ## The status of a read routine -/

/-- Calls were added to the log, and all of them succeeded. -/
def AllOk (io io' : Io) : Prop :=
  ∃ new, io'.calls = io.calls ++ new ∧ ∀ c ∈ new, c.ok = true

/-- Calls were added to the log, and one of them failed. -/
def SomeFailed (io io' : Io) : Prop :=
  ∃ new, io'.calls = io.calls ++ new ∧ ∃ c ∈ new, c.ok = false

theorem AllOk.of_same {io io' : Io} (same : io'.calls = io.calls) : AllOk io io' :=
  ⟨[], by simp [same], by simp⟩

theorem AllOk.trans {io io' io'' : Io} (first : AllOk io io') (second : AllOk io' io'') :
    AllOk io io'' := by
  obtain ⟨new, hnew, good⟩ := first
  obtain ⟨more, hmore, good'⟩ := second
  refine ⟨new ++ more, by rw [hmore, hnew, List.append_assoc], ?_⟩
  intro c hc
  rcases List.mem_append.mp hc with hc | hc
  · exact good c hc
  · exact good' c hc

theorem AllOk.failed {io io' io'' : Io} (first : AllOk io io') (second : SomeFailed io' io'') :
    SomeFailed io io'' := by
  obtain ⟨new, hnew, -⟩ := first
  obtain ⟨more, hmore, c, hc, bad⟩ := second
  exact ⟨new ++ more, by rw [hmore, hnew, List.append_assoc], c,
    List.mem_append_right new hc, bad⟩

theorem allOk_call (d : Storage) (io : Io) (idx sector n : Nat)
    (ok : (io.call d idx sector n).1.full n = true) : AllOk io (io.call d idx sector n).2 := by
  refine ⟨_, rfl, fun c hc => ?_⟩
  rw [List.mem_singleton.mp hc]
  exact ok

theorem someFailed_call (d : Storage) (io : Io) (idx sector n : Nat)
    (failed : ¬ (io.call d idx sector n).1.full n = true) :
    SomeFailed io (io.call d idx sector n).2 :=
  ⟨_, rfl, _, List.mem_singleton_self _, Bool.eq_false_iff.mpr failed⟩

/-- A piece of a turn goes on only if its call succeeded; what it takes off
`readsize` it takes off `remaining`. -/
def Tried (c : Cursor) : Except Io Cursor → Prop
  | .ok c' => AllOk c.io c'.io ∧ c'.readsize ≤ c.readsize ∧
      c'.remaining = c.remaining - (c.readsize - c'.readsize)
  | .error io => SomeFailed c.io io

theorem tried_self (c : Cursor) : Tried c (.ok c) :=
  ⟨AllOk.of_same rfl, le_rfl, by omega⟩

theorem tried_copy (d : Storage) (c : Cursor) (idx sector count : Nat) {n : Nat}
    (le : n ≤ c.readsize) (f : Nat → UInt8)
    (ok : (c.io.call d idx sector count).1.full count = true) :
    Tried c (.ok (Cursor.copy { c with io := (c.io.call d idx sector count).2 } n f)) := by
  refine ⟨allOk_call d c.io idx sector count ok, Nat.sub_le _ _, ?_⟩
  change c.remaining - n = c.remaining - (c.readsize - (c.readsize - n))
  omega

theorem Tried.bind {c : Cursor} {r : Except Io Cursor} {f : Cursor → Except Io Cursor}
    (first : Tried c r) (next : ∀ c', Tried c' (f c')) : Tried c (r >>= f) := by
  cases r with
  | error io => exact first
  | ok c' =>
    obtain ⟨ok, le, hrem⟩ := first
    have second := next c'
    change Tried c (f c')
    cases hf : f c' with
    | error io =>
      rw [hf] at second
      exact ok.failed second
    | ok c'' =>
      rw [hf] at second
      obtain ⟨ok', le', hrem'⟩ := second
      exact ⟨ok.trans ok', by omega, by omega⟩

section Status
variable (d : Storage) (tab : List Section)

theorem readHead_tried (idx start : Nat) (c : Cursor) : Tried c (readHead d idx start c) := by
  simp only [readHead]
  split
  · exact tried_self c
  · split
    · rename_i ok
      exact tried_copy d c idx _ 1 (by split <;> omega) _ ok
    · rename_i failed
      exact someFailed_call d c.io idx _ 1 failed

theorem readBulk_tried (idx start : Nat) (c : Cursor) : Tried c (readBulk d idx start c) := by
  simp only [readBulk]
  split
  · exact tried_self c
  · split
    · rename_i ok
      refine tried_copy d c idx _ _ ?_ _ ok
      simp only [u32]
      omega
    · rename_i failed
      exact someFailed_call d c.io idx _ _ failed

theorem readTail_tried (idx start : Nat) (c : Cursor) : Tried c (readTail d idx start c) ∧
    ∀ c', readTail d idx start c = .ok c' → c'.readsize = 0 := by
  simp only [readTail]
  split
  · rename_i zero
    exact ⟨tried_self c, fun c' h => by cases h; exact zero⟩
  · split
    · rename_i ok
      refine ⟨tried_copy d c idx _ 1 le_rfl _ ok, fun c' h => ?_⟩
      cases h
      exact Nat.sub_self _
    · rename_i failed
      exact ⟨someFailed_call d c.io idx _ 1 failed, fun c' h => by cases h⟩

/-- Whatever the table, the scan offers a positive part of the request. -/
theorem nextReadFrom_progress (discoffset : Nat) {bufsize : Nat} (some' : 0 < bufsize)
    (i base : Nat) : 0 < (nextReadFrom discoffset bufsize i base tab).readsize ∧
      (nextReadFrom discoffset bufsize i base tab).readsize ≤ bufsize := by
  induction tab generalizing i base with
  | nil => exact ⟨some', le_rfl⟩
  | cons s rest ih =>
    simp only [nextReadFrom]
    split
    · constructor
      · dsimp only
        split <;> omega
      · dsimp only
        split <;> omega
    · exact ih _ _

/-- One turn shortens the request unless a call failed. -/
theorem readTurn_status {c : Cursor} (some' : 0 < c.remaining) :
    match readTurn d tab c with
    | .ok c' => AllOk c.io c'.io ∧ c'.remaining < c.remaining
    | .error io => SomeFailed c.io io := by
  have progress := nextReadFrom_progress tab c.offset some' 0 0
  simp only [readTurn, getNextRead]
  generalize nextReadFrom c.offset c.remaining 0 0 tab = next at progress ⊢
  have copied : ∀ f, AllOk c.io
      (Cursor.copy { c with pos := next.offset, readsize := next.readsize }
        next.readsize f).io ∧ (Cursor.copy { c with pos := next.offset, readsize := next.readsize }
      next.readsize f).remaining < c.remaining := by
    intro f
    refine ⟨AllOk.of_same rfl, ?_⟩
    change c.remaining - next.readsize < c.remaining
    omega
  cases next.found with
  | none => exact copied _
  | some found =>
    obtain ⟨idx, s⟩ := found
    simp only
    by_cases hole : s.IsHole
    · rw [if_pos hole]
      exact copied _
    · rw [if_neg hole]
      have tried := (readHead_tried d idx s.start.toNat
        { c with pos := next.offset, readsize := next.readsize }).bind
          (fun c' => (readBulk_tried d idx s.start.toNat c').bind
            (fun c'' => (readTail_tried d idx s.start.toNat c'').1))
      split
      · rename_i c' hc'
        have zero : c'.readsize = 0 := by
          simp only [bind, Except.bind] at hc'
          split at hc'
          · cases hc'
          · split at hc'
            · cases hc'
            · exact (readTail_tried d idx s.start.toNat _).2 c' hc'
        have here : Tried _ (.ok c') := hc' ▸ tried
        obtain ⟨ok, -, hrem⟩ := here
        refine ⟨ok, ?_⟩
        rw [hrem, zero]
        change c.remaining - (next.readsize - 0) < c.remaining
        omega
      · rename_i io hio
        have here : Tried _ (.error io) := hio ▸ tried
        exact here

/-- A return value of 0 with every call successful, or -1 with one that failed. -/
def Reported (io : Io) (r : Int × Io) : Prop :=
  (r.1 = 0 ∧ AllOk io r.2) ∨ (r.1 = -1 ∧ SomeFailed io r.2)

/-- Whatever the table and the request, enough turns end the loop. -/
theorem readLoop_status (fuel : Nat) (c : Cursor) (enough : c.remaining ≤ fuel) :
    ∃ r, readLoop d tab fuel c = some r ∧ Reported c.io r := by
  induction fuel generalizing c with
  | zero =>
    have zero : ¬ c.remaining > 0 := by omega
    exact ⟨(0, c.io), by simp only [readLoop, if_neg zero], Or.inl ⟨rfl, AllOk.of_same rfl⟩⟩
  | succ fuel ih =>
    by_cases some' : c.remaining > 0
    · have turn := readTurn_status d tab some'
      cases h : readTurn d tab c with
      | error io =>
        rw [h] at turn
        exact ⟨(-1, io), by simp only [readLoop, if_pos some', h], Or.inr ⟨rfl, turn⟩⟩
      | ok c' =>
        rw [h] at turn
        obtain ⟨r, hr, status⟩ := ih c' (by omega)
        refine ⟨r, by simp only [readLoop, if_pos some', h, hr], ?_⟩
        rcases status with ⟨hret, ok⟩ | ⟨hret, failed⟩
        · exact Or.inl ⟨hret, turn.1.trans ok⟩
        · exact Or.inr ⟨hret, turn.1.failed failed⟩
    · exact ⟨(0, c.io), by simp only [readLoop, if_neg some'],
        Or.inl ⟨rfl, AllOk.of_same rfl⟩⟩

theorem processReadIsoCmd_status (io : Io) (buf offset size : Nat) :
    ∃ r, processReadIsoCmd d tab io buf offset size = some r ∧ Reported io r :=
  readLoop_status d tab size ⟨io, buf, offset, size, 0, 0⟩ le_rfl

/-- Calls were added to the log. -/
def Logged (io io' : Io) : Prop := ∃ new, io'.calls = io.calls ++ new

theorem Reported.logged {io : Io} {r : Int × Io} (h : Reported io r) : Logged io r.2 := by
  rcases h with ⟨-, new, hnew, -⟩ | ⟨-, new, hnew, -⟩
  · exact ⟨new, hnew⟩
  · exact ⟨new, hnew⟩

theorem Logged.trans {io io' io'' : Io} (first : Logged io io') (second : Logged io' io'') :
    Logged io io'' := by
  obtain ⟨new, hnew⟩ := first
  obtain ⟨more, hmore⟩ := second
  exact ⟨new ++ more, by rw [hmore, hnew, List.append_assoc]⟩

/-! ## The three routines -/

/-- Of the cached routine only the refill and the direct read issue calls, and
both hand their status on. -/
theorem fillCache_status (tag : Nat) (cache : Nat → UInt8) (io : Io)
    (buf sector remaining : Nat) :
    ∃ r, fillCache d tab tag cache io buf sector remaining = some r ∧
      (r.1 = 0 → AllOk io r.2.1) := by
  obtain ⟨r, hr, status⟩ := processReadIsoCmd_status d tab ⟨cache, [], io.calls⟩ 0
    (u32 (sector * 2352)) (cdCacheSize * 2352)
  refine ⟨settleFill tag io buf sector remaining r, by rw [fillCache, hr]; rfl, ?_⟩
  rcases status with ⟨hret, ok⟩ | ⟨hret, failed⟩
  · intro _
    obtain ⟨new, hnew, good⟩ := ok
    simp only [settleFill, hret, ne_eq, not_true_eq_false, if_false]
    exact ⟨new, hnew, good⟩
  · intro zero
    simp [settleFill, hret] at zero

theorem refill_status (alloc : Allocation) (st : CdState) (io : Io)
    (buf sector remaining : Nat) :
    ∃ r, refill d tab alloc st io buf sector remaining = some r ∧ (r.1 = 0 → AllOk io r.2.1) := by
  cases hc : st.cache with
  | some cache =>
    simp only [refill, hc]
    exact fillCache_status d tab st.tag cache io buf sector remaining
  | none =>
    simp only [refill, hc]
    split
    · rename_i failed
      exact ⟨_, rfl, fun h => absurd h failed⟩
    · exact fillCache_status d tab st.tag alloc.mem io buf sector remaining

/-- The cache lookup issues no calls. -/
theorem planCached_calls (st : CdState) (io : Io) (buf sector remaining : Nat) :
    match planCached st io buf sector remaining with
    | .served io' => io'.calls = io.calls
    | .missing io' _ _ _ => io'.calls = io.calls
    | .wild => True := by
  simp only [planCached]
  cases cacheCopy st.tag sector remaining with
  | none => rfl
  | some copy =>
    cases st.cache with
    | none =>
      simp only
      by_cases zero : copy.ptr = 0
      · rw [if_pos zero]
      · rw [if_neg zero]
        trivial
    | some cache =>
      simp only
      by_cases whole : remaining = copy.size
      · rw [if_pos whole]
        rfl
      · rw [if_neg whole]
        by_cases head : windowDif st.tag sector ≤ 0
        · rw [if_pos head]
          rfl
        · rw [if_neg head]
          rfl

theorem processReadCd2352Cmd_status (alloc : Allocation) (st : CdState) (io : Io)
    (buf sector remaining : Nat) {r : Int × Io × CdState}
    (run : processReadCd2352Cmd d tab alloc st io buf sector remaining = some r)
    (zero : r.1 = 0) : AllOk io r.2.1 := by
  simp only [processReadCd2352Cmd] at run
  by_cases small : remaining ≤ cdCacheSize
  · rw [if_pos small] at run
    have same := planCached_calls st io buf sector remaining
    cases hp : planCached st io buf sector remaining with
    | served io' =>
      rw [hp] at run same
      cases run
      exact AllOk.of_same same
    | missing io' buf' sector' left =>
      rw [hp] at run same
      obtain ⟨r', hr', status⟩ := refill_status d tab alloc st io' buf' sector' left
      have heq : r' = r := Option.some.inj (hr'.symm.trans run)
      subst heq
      exact (AllOk.of_same same).trans (status zero)
    | wild =>
      rw [hp] at run
      cases run
  · rw [if_neg small] at run
    obtain ⟨r', hr', status⟩ := processReadIsoCmd_status d tab io buf (u32 (sector * 2352))
      (u32 (remaining * 2352))
    rw [hr'] at run
    cases run
    rcases status with ⟨-, ok⟩ | ⟨hret, -⟩
    · exact ok
    · rw [hret] at zero
      cases zero

theorem myMemcpy_calls (io : Io) (dst src n : Nat) : (myMemcpy io dst src n).calls = io.calls := by
  induction n with
  | zero => rfl
  | succ n ih => exact ih

theorem compact_calls (fit : Nat) (io : Io) (src out : Nat) :
    (compact fit io src out).calls = io.calls := by
  induction fit generalizing io src out with
  | zero => rfl
  | succ fit ih =>
    rw [compact, ih]
    exact myMemcpy_calls io out (src + 24) 2048

theorem readBlocks_logged (rem : Nat) (io : Io) (out startSector : Nat) :
    ∃ io', readBlocks d tab rem io out startSector = some io' ∧ Logged io io' := by
  induction rem generalizing io out startSector with
  | zero => exact ⟨io, rfl, [], by simp⟩
  | succ rem ih =>
    obtain ⟨r, hr, status⟩ := processReadIsoCmd_status d tab io out
      (u32 (u32 (startSector * 2352) + 24)) 2048
    obtain ⟨io', hio', logged⟩ := ih r.2 (out + 2048) (u32 (startSector + 1))
    exact ⟨io', by rw [readBlocks, hr]; exact hio', status.logged.trans logged⟩

/-- The compacting routine always ends with 0, whatever its calls reported. -/
theorem processReadCd2048Cmd_zero (io : Io) (buf startSector sectorCount : Nat) :
    ∃ io', processReadCd2048Cmd d tab io buf startSector sectorCount = some (0, io') ∧
      Logged io io' := by
  simp only [processReadCd2048Cmd]
  generalize u32 (sectorCount * 2048) / 2352 = fit
  by_cases bulk : fit > 0
  · obtain ⟨r, hr, status⟩ := processReadIsoCmd_status d tab io buf (u32 (startSector * 2352))
      (u32 (fit * 2352))
    obtain ⟨io', hio', logged⟩ := readBlocks_logged d tab (u32 (sectorCount + 2 ^ 32 - fit))
      (compact fit r.2 buf buf) (buf + fit * 2048) (u32 (startSector + fit))
    have compacted : Logged r.2 (compact fit r.2 buf buf) := ⟨[], by simp [compact_calls]⟩
    refine ⟨io', ?_, (status.logged.trans compacted).trans logged⟩
    rw [if_pos bulk, hr, Option.map_some, Option.bind_some, hio', Option.map_some]
  · obtain ⟨io', hio', logged⟩ := readBlocks_logged d tab (u32 (sectorCount + 2 ^ 32 - fit)) io
      (buf + fit * 2048) (u32 (startSector + fit))
    refine ⟨io', ?_, logged⟩
    rw [if_neg bulk, Option.bind_some, hio', Option.map_some]

end Status

end CommandThread
