import NtfsIsoMounter.SectionTables

/-!
# process_read_iso_cmd

The read loop of the plugin. Each turn looks up the section under the current
offset and copies as much of it as the request still wants: an unaligned head
through a 512-byte bounce buffer, whole sectors straight into the caller's
buffer, a partial tail through the bounce buffer again. The calls to the
storage device and the ranges stored to are kept as logs beside the memory.
-/

namespace IsoReads

open ByteMaps SectionTables

/-- One `sys_storage_read` with the section `idx` it was made for. -/
structure ReadCall where
  idx : Nat
  sector : Nat
  count : Nat
  ok : Bool

/-- The memory `buf` points into, every range stored to, every device call. -/
structure Io where
  mem : Nat → UInt8
  stores : List (Nat × Nat)
  calls : List ReadCall

def Io.store (io : Io) (a n : Nat) (f : Nat → UInt8) : Io :=
  { io with mem := fill io.mem a n f, stores := io.stores ++ [(a, n)] }

/-- The local variables of `process_read_iso_cmd`. -/
structure Cursor where
  io : Io
  buf : Nat
  offset : Nat
  remaining : Nat
  pos : Nat
  readsize : Nat

/-- Store `n` bytes at `buf` and advance every variable past them. -/
def Cursor.copy (c : Cursor) (n : Nat) (f : Nat → UInt8) : Cursor where
  io := c.io.store c.buf n f
  buf := c.buf + n
  offset := u64 (c.offset + n)
  remaining := c.remaining - n
  pos := c.pos + n
  readsize := c.readsize - n

def Io.call (d : Storage) (io : Io) (idx sector n : Nat) : StorageReply × Io :=
  let reply := d.reply io.calls.length sector n
  (reply, { io with calls := io.calls ++ [⟨idx, sector, n, reply.full n⟩] })

/-- `if (pos & 511)`: one sector into `tmp`, then its tail into the buffer. -/
def readHead (d : Storage) (idx start : Nat) (c : Cursor) : Except Io Cursor :=
  if c.pos % 512 = 0 then .ok c
  else
    let sector := u32 (start + c.pos / 512)
    let (reply, io) := c.io.call d idx sector 1
    if reply.full 1 then
      let csize := 512 - c.pos % 512
      let csize := if csize > c.readsize then c.readsize else csize
      .ok (Cursor.copy { c with io := io } csize (fun k => d.from sector (c.pos % 512 + k)))
    else .error io

/-- Whole sectors, read straight into the caller's buffer. -/
def readBulk (d : Storage) (idx start : Nat) (c : Cursor) : Except Io Cursor :=
  let n := u32 (c.readsize / 512)
  if n = 0 then .ok c
  else
    let sector := u32 (start + c.pos / 512)
    let (reply, io) := c.io.call d idx sector n
    if reply.full n then
      .ok (Cursor.copy { c with io := io } (u32 (n * 512)) (d.from sector))
    -- the kernel was handed the caller's buffer, whatever it left there stays
    else .error (io.store c.buf (n * 512) reply.leaves)

/-- What is left of the last sector. -/
def readTail (d : Storage) (idx start : Nat) (c : Cursor) : Except Io Cursor :=
  if c.readsize = 0 then .ok c
  else
    let sector := u32 (start + c.pos / 512)
    let (reply, io) := c.io.call d idx sector 1
    if reply.full 1 then .ok (Cursor.copy { c with io := io } c.readsize (d.from sector))
    else .error io

/-- One turn of the while loop; `.error` is the early `return -1`. -/
def readTurn (d : Storage) (tab : List Section) (c : Cursor) : Except Io Cursor :=
  let next := getNextRead tab c.offset c.remaining
  let c := { c with pos := next.offset, readsize := next.readsize }
  match next.found with
  | none => .ok (c.copy c.readsize (fun _ => 0))
  | some (idx, s) =>
    if s.IsHole then .ok (c.copy c.readsize (fun _ => 0))
    else do
      let c ← readHead d idx s.start.toNat c
      let c ← readBulk d idx s.start.toNat c
      readTail d idx s.start.toNat c

/-- `while (remaining > 0)` with a bound on the number of turns; `none` when
the bound is used up. -/
def readLoop (d : Storage) (tab : List Section) : Nat → Cursor → Option (Int × Io)
  | 0, c => if c.remaining > 0 then none else some (0, c.io)
  | fuel + 1, c =>
    if c.remaining > 0 then
      match readTurn d tab c with
      | .error io => some (-1, io)
      | .ok c => readLoop d tab fuel c
    else some (0, c.io)

/-- Every turn copies at least one byte, so `size` turns are enough. -/
def processReadIsoCmd (d : Storage) (tab : List Section) (io : Io) (buf offset size : Nat) :
    Option (Int × Io) :=
  readLoop d tab size ⟨io, buf, offset, size, 0, 0⟩

/-! ## What a piece of the loop may do -/

/-- New stores stay in `[buf, buf+n)`. -/
def StoresIn (io io' : Io) (buf n : Nat) : Prop :=
  ∃ new, io'.stores = io.stores ++ new ∧ ∀ r ∈ new, buf ≤ r.1 ∧ r.1 + r.2 ≤ buf + n

/-- `n` bytes given by `g` were stored at `buf`, by calls that all succeeded. -/
structure Advance (fits : ReadCall → Prop) (g : Nat → UInt8) (buf n : Nat) (io io' : Io) :
    Prop where
  mem : io'.mem = fill io.mem buf n g
  stores : StoresIn io io' buf n
  calls : ∃ new, io'.calls = io.calls ++ new ∧ ∀ c ∈ new, fits c ∧ c.ok = true

/-- A call failed; at most the `n` bytes at `buf` are spoiled. -/
structure Abort (fits : ReadCall → Prop) (buf n : Nat) (io io' : Io) : Prop where
  outside : ∀ i, i < buf ∨ buf + n ≤ i → io'.mem i = io.mem i
  stores : StoresIn io io' buf n
  calls : ∃ new, io'.calls = io.calls ++ new ∧ (∀ c ∈ new, fits c) ∧ ∃ c ∈ new, c.ok = false

variable {fits : ReadCall → Prop} {g : Nat → UInt8} {buf n k : Nat} {io io' io'' : Io}

theorem StoresIn.refl (io : Io) (buf n : Nat) : StoresIn io io buf n :=
  ⟨[], by simp, by simp⟩

/-- A larger range holds the same stores. -/
theorem StoresIn.within (h : StoresIn io io' buf n) {a : Nat} (low : a ≤ buf)
    (high : buf + n ≤ a + k) : StoresIn io io' a k := by
  obtain ⟨new, hnew, inside⟩ := h
  refine ⟨new, hnew, fun r hr => ?_⟩
  have := inside r hr
  omega

theorem StoresIn.append (first : StoresIn io io' buf n) (second : StoresIn io' io'' buf n) :
    StoresIn io io'' buf n := by
  obtain ⟨new, hnew, inside⟩ := first
  obtain ⟨more, hmore, inside'⟩ := second
  refine ⟨new ++ more, by rw [hmore, hnew, List.append_assoc], ?_⟩
  intro r hr
  rcases List.mem_append.mp hr with hr | hr
  · exact inside r hr
  · exact inside' r hr

theorem StoresIn.trans (first : StoresIn io io' buf n) (second : StoresIn io' io'' (buf + n) k) :
    StoresIn io io'' buf (n + k) :=
  (first.within le_rfl (by omega)).append (second.within (by omega) (by omega))

theorem storesIn_store (io : Io) (buf n : Nat) (f : Nat → UInt8) :
    StoresIn io (io.store buf n f) buf n :=
  ⟨[(buf, n)], rfl, by simp⟩

theorem Advance.refl (io : Io) : Advance fits g buf 0 io io :=
  ⟨by simp, StoresIn.refl io buf 0, [], by simp, by simp⟩

theorem Advance.trans (first : Advance fits g buf n io io')
    (second : Advance fits (fun i => g (n + i)) (buf + n) k io' io'') :
    Advance fits g buf (n + k) io io'' := by
  refine ⟨?_, first.stores.trans second.stores, ?_⟩
  · rw [second.mem, first.mem, fill_append]
  · obtain ⟨new, hnew, good⟩ := first.calls
    obtain ⟨more, hmore, good'⟩ := second.calls
    refine ⟨new ++ more, by rw [hmore, hnew, List.append_assoc], ?_⟩
    intro c hc
    rcases List.mem_append.mp hc with hc | hc
    · exact good c hc
    · exact good' c hc

theorem Advance.congr {g' : Nat → UInt8} (h : Advance fits g buf n io io')
    (same : ∀ i, i < n → g i = g' i) : Advance fits g' buf n io io' :=
  ⟨by rw [h.mem, fill_congr _ _ same], h.stores, h.calls⟩

theorem Advance.abort (first : Advance fits g buf n io io')
    (second : Abort fits (buf + n) k io' io'') : Abort fits buf (n + k) io io'' := by
  refine ⟨?_, first.stores.trans second.stores, ?_⟩
  · intro i hi
    rw [second.outside i (by omega), first.mem, fill_outside _ _ (by omega)]
  · obtain ⟨new, hnew, good⟩ := first.calls
    obtain ⟨more, hmore, good', failed⟩ := second.calls
    refine ⟨new ++ more, by rw [hmore, hnew, List.append_assoc], ?_, ?_⟩
    · intro c hc
      rcases List.mem_append.mp hc with hc | hc
      · exact (good c hc).1
      · exact good' c hc
    · obtain ⟨c, hc, bad⟩ := failed
      exact ⟨c, List.mem_append_right new hc, bad⟩

theorem Abort.mono (h : Abort fits buf n io io') (le : n ≤ k) : Abort fits buf k io io' :=
  ⟨fun i hi => h.outside i (by omega), h.stores.within le_rfl (by omega), h.calls⟩

/-- A store of `n` bytes after one successful call. -/
theorem advance_call_store (d : Storage) (io : Io) (buf n idx sector count : Nat)
    (g : Nat → UInt8) (ok : (io.call d idx sector count).1.full count = true)
    (good : ∀ ok, fits ⟨idx, sector, count, ok⟩) :
    Advance fits g buf n io ((io.call d idx sector count).2.store buf n g) := by
  refine ⟨rfl, storesIn_store _ buf n g, _, rfl, ?_⟩
  intro c hc
  rw [List.mem_singleton] at hc
  subst c
  exact ⟨good _, ok⟩

/-- A store of zeros, or of anything else, needs no call. -/
theorem advance_store (io : Io) (buf n : Nat) (g : Nat → UInt8) :
    Advance fits g buf n io (io.store buf n g) :=
  ⟨rfl, storesIn_store io buf n g, [], by simp [Io.store], by simp⟩

theorem abort_call (d : Storage) (io : Io) (buf n idx sector count : Nat)
    (failed : ¬ (io.call d idx sector count).1.full count = true)
    (good : ∀ ok, fits ⟨idx, sector, count, ok⟩) :
    Abort fits buf n io (io.call d idx sector count).2 := by
  refine ⟨fun i _ => rfl, StoresIn.refl io buf n, _, rfl, ?_, ?_⟩
  · intro c hc
    rw [List.mem_singleton] at hc
    subst c
    exact good _
  · exact ⟨_, List.mem_singleton_self _, Bool.eq_false_iff.mpr failed⟩

theorem abort_call_store (d : Storage) (io : Io) (buf n idx sector count : Nat)
    (f : Nat → UInt8) (failed : ¬ (io.call d idx sector count).1.full count = true)
    (good : ∀ ok, fits ⟨idx, sector, count, ok⟩) :
    Abort fits buf n io ((io.call d idx sector count).2.store buf n f) := by
  have h := abort_call d io buf n idx sector count failed good
  refine ⟨fun i hi => ?_, storesIn_store _ buf n f, h.calls⟩
  exact fill_outside _ f hi

/-! ## The three pieces of a turn -/

/-- Every variable moved `n` bytes on. -/
def Cursor.Moved (c : Cursor) (n : Nat) (c' : Cursor) : Prop :=
  c'.buf = c.buf + n ∧ (c.offset < 2 ^ 64 → c'.offset = u64 (c.offset + n)) ∧
    c'.remaining = c.remaining - n ∧
    c'.pos = c.pos + n ∧ c'.readsize = c.readsize - n

theorem Cursor.copy_moved (c : Cursor) (n : Nat) (f : Nat → UInt8) : c.Moved n (c.copy n f) :=
  ⟨rfl, fun _ => rfl, rfl, rfl, rfl⟩

theorem Cursor.moved_zero (c : Cursor) : c.Moved 0 c :=
  ⟨rfl, fun h => (Nat.mod_eq_of_lt h).symm, rfl, rfl, rfl⟩

theorem Cursor.Moved.trans {c c' c'' : Cursor} (first : c.Moved n c') (second : c'.Moved k c'') :
    c.Moved (n + k) c'' := by
  obtain ⟨h1, h2, h3, h4, h5⟩ := first
  obtain ⟨k1, k2, k3, k4, k5⟩ := second
  refine ⟨by omega, fun h => ?_, by omega, by omega, by omega⟩
  have hmid := h2 h
  rw [k2 (by unfold u64 at hmid; omega), hmid]
  unfold u64
  omega

/-- A piece that starts with cursor `c` copies part of the extent `e`, or fails. -/
def Piece (fits : ReadCall → Prop) (e : Nat → UInt8) (c : Cursor) (done : Cursor → Prop) :
    Except Io Cursor → Prop
  | .ok c' => done c' ∧ ∃ n, n ≤ c.readsize ∧ c.Moved n c' ∧
      Advance fits (fun i => e (c.pos + i)) c.buf n c.io c'.io
  | .error io => Abort fits c.buf c.readsize c.io io

variable {e : Nat → UInt8} {mid last : Cursor → Prop}

theorem Piece.bind {c : Cursor} {r : Except Io Cursor} {f : Cursor → Except Io Cursor}
    (first : Piece fits e c mid r)
    (next : ∀ c', mid c' → c'.pos + c'.readsize = c.pos + c.readsize →
      c'.readsize ≤ c.readsize → Piece fits e c' last (f c')) :
    Piece fits e c last (r >>= f) := by
  cases r with
  | error io => exact first
  | ok c' =>
    obtain ⟨hmid, n, hn, moved, adv⟩ := first
    obtain ⟨hbuf, -, -, hpos, hsize⟩ := id moved
    have second := next c' hmid (by omega) (by omega)
    show Piece fits e c last (f c')
    cases hf : f c' with
    | error io =>
      rw [hf] at second
      have abort : Abort fits (c.buf + n) c'.readsize c'.io io := hbuf ▸ second
      exact (adv.abort abort).mono (by omega)
    | ok c'' =>
      rw [hf] at second
      obtain ⟨hlast, k, hk, moved', adv'⟩ := second
      refine ⟨hlast, n + k, by omega, moved.trans moved', adv.trans ?_⟩
      rw [← hbuf]
      exact adv'.congr (fun i _ => by rw [hpos, Nat.add_assoc])

/-- The device call a piece makes stays inside section `s`. -/
def InSection (tab : List Section) (c : ReadCall) : Prop :=
  ∃ s, tab[c.idx]? = some s ∧ ¬ s.IsHole ∧ s.start.toNat ≤ c.sector ∧
    c.sector + c.count ≤ s.start.toNat + s.size.toNat

section Pieces
variable (d : Storage) {tab : List Section} {idx : Nat} {s : Section}

theorem extentByte_aligned (hs : ¬ s.IsHole) {p : Nat} (aligned : p % 512 = 0) (i : Nat) :
    d.from (s.start.toNat + p / 512) i = extentByte d s (p + i) := by
  have hq : s.start.toNat + p / 512 + i / 512 = s.start.toNat + (p + i) / 512 := by omega
  have hr : i % 512 = (p + i) % 512 := by omega
  simp only [extentByte, if_neg hs, Storage.from, hq, hr]

/-- The sector number of a byte inside the section does not wrap. -/
theorem sector_exact (fit : s.Fits) {p : Nat} (inside : p < s.bytes) :
    u32 (s.start.toNat + p / 512) = s.start.toNat + p / 512 := by
  unfold Section.Fits at fit
  unfold Section.bytes at inside
  exact Nat.mod_eq_of_lt (by omega)

variable (here : tab[idx]? = some s) (hs : ¬ s.IsHole) (fit : s.Fits)
include here hs fit

theorem readHead_piece {c : Cursor} (inside : c.pos + c.readsize ≤ s.bytes)
    (some' : 0 < c.readsize) :
    Piece (InSection tab) (extentByte d s) c
      (fun c' => c'.readsize = 0 ∨ c'.pos % 512 = 0) (readHead d idx s.start.toNat c) := by
  have exact := sector_exact fit (show c.pos < s.bytes by omega)
  have good : ∀ ok, InSection tab ⟨idx, s.start.toNat + c.pos / 512, 1, ok⟩ := by
    intro ok
    refine ⟨s, here, hs, by simp, ?_⟩
    unfold Section.bytes at inside
    show s.start.toNat + c.pos / 512 + 1 ≤ _
    omega
  unfold readHead
  by_cases aligned : c.pos % 512 = 0
  · rw [if_pos aligned]
    exact ⟨Or.inr aligned, 0, by omega, Cursor.moved_zero c, Advance.refl _⟩
  · rw [if_neg aligned, exact]
    by_cases ok : (c.io.call d idx (s.start.toNat + c.pos / 512) 1).1.full 1 = true
    · simp only [ok, if_true]
      set csize := if 512 - c.pos % 512 > c.readsize then c.readsize else 512 - c.pos % 512
        with hcsize
      have small : csize ≤ c.readsize ∧ csize ≤ 512 - c.pos % 512 ∧
          (csize = c.readsize ∨ csize = 512 - c.pos % 512) := by
        split at hcsize <;> omega
      refine ⟨?_, csize, small.1, Cursor.copy_moved _ _ _, ?_⟩
      · show c.readsize - csize = 0 ∨ (c.pos + csize) % 512 = 0
        omega
      · refine (advance_call_store d c.io c.buf csize idx _ 1 _ ok good).congr ?_
        intro i hi
        have split : c.pos + i = (c.pos - c.pos % 512) + (c.pos % 512 + i) := by omega
        have same : c.pos / 512 = (c.pos - c.pos % 512) / 512 := by omega
        rw [split, same]
        exact extentByte_aligned d hs (by omega) _
    · simp only [ok]
      exact abort_call d c.io c.buf c.readsize idx _ 1 ok good

theorem readBulk_piece {c : Cursor} (inside : c.pos + c.readsize ≤ s.bytes)
    (small : c.readsize < 2 ^ 32) (aligned : c.readsize = 0 ∨ c.pos % 512 = 0) :
    Piece (InSection tab) (extentByte d s) c
      (fun c' => c'.readsize < 512 ∧ (c'.readsize = 0 ∨ c'.pos % 512 = 0))
      (readBulk d idx s.start.toNat c) := by
  have hn : u32 (c.readsize / 512) = c.readsize / 512 := Nat.mod_eq_of_lt (by omega)
  have hs' : u32 (c.readsize / 512 * 512) = c.readsize / 512 * 512 :=
    Nat.mod_eq_of_lt (by omega)
  unfold readBulk
  simp only [hn, hs']
  by_cases none : c.readsize / 512 = 0
  · rw [if_pos none]
    exact ⟨⟨by omega, aligned⟩, 0, by omega, Cursor.moved_zero c, Advance.refl _⟩
  · have aligned' : c.pos % 512 = 0 := by omega
    have good : ∀ ok, InSection tab
        ⟨idx, s.start.toNat + c.pos / 512, c.readsize / 512, ok⟩ := by
      intro ok
      refine ⟨s, here, hs, by simp, ?_⟩
      unfold Section.bytes at inside
      show s.start.toNat + c.pos / 512 + c.readsize / 512 ≤ _
      omega
    rw [if_neg none, sector_exact fit (show c.pos < s.bytes by omega)]
    by_cases ok : (c.io.call d idx (s.start.toNat + c.pos / 512) (c.readsize / 512)).1.full
        (c.readsize / 512) = true
    · simp only [ok, if_true]
      refine ⟨?_, c.readsize / 512 * 512, by omega, Cursor.copy_moved _ _ _, ?_⟩
      · show c.readsize - c.readsize / 512 * 512 < 512 ∧
          (c.readsize - c.readsize / 512 * 512 = 0 ∨ (c.pos + c.readsize / 512 * 512) % 512 = 0)
        omega
      · exact (advance_call_store d c.io c.buf _ idx _ _ _ ok good).congr
          (fun i _ => extentByte_aligned d hs aligned' i)
    · simp only [ok]
      exact (abort_call_store d c.io c.buf _ idx _ _ _ ok good).mono (by omega)

theorem readTail_piece {c : Cursor} (inside : c.pos + c.readsize ≤ s.bytes)
    (small : c.readsize < 512) (aligned : c.readsize = 0 ∨ c.pos % 512 = 0) :
    Piece (InSection tab) (extentByte d s) c (fun c' => c'.readsize = 0)
      (readTail d idx s.start.toNat c) := by
  unfold readTail
  by_cases none : c.readsize = 0
  · rw [if_pos none]
    exact ⟨none, 0, by omega, Cursor.moved_zero c, Advance.refl _⟩
  · have good : ∀ ok, InSection tab ⟨idx, s.start.toNat + c.pos / 512, 1, ok⟩ := by
      intro ok
      refine ⟨s, here, hs, by simp, ?_⟩
      unfold Section.bytes at inside
      show s.start.toNat + c.pos / 512 + 1 ≤ _
      omega
    rw [if_neg none, sector_exact fit (show c.pos < s.bytes by omega)]
    by_cases ok : (c.io.call d idx (s.start.toNat + c.pos / 512) 1).1.full 1 = true
    · simp only [ok, if_true]
      refine ⟨?_, c.readsize, le_rfl, Cursor.copy_moved _ _ _, ?_⟩
      · show c.readsize - c.readsize = 0
        omega
      · exact (advance_call_store d c.io c.buf _ idx _ _ _ ok good).congr
          (fun i _ => extentByte_aligned d hs (by omega) i)
    · simp only [ok]
      exact abort_call d c.io c.buf c.readsize idx _ 1 ok good

/-- All three pieces together copy the whole of `readsize`. -/
theorem readPieces_piece {c : Cursor} (inside : c.pos + c.readsize ≤ s.bytes)
    (some' : 0 < c.readsize) (small : c.readsize < 2 ^ 32) :
    Piece (InSection tab) (extentByte d s) c (fun c' => c'.readsize = 0)
      (readHead d idx s.start.toNat c >>= fun c => readBulk d idx s.start.toNat c >>= fun c =>
        readTail d idx s.start.toNat c) := by
  apply (readHead_piece d here hs fit inside some').bind
  intro c' aligned sum le
  apply (readBulk_piece d here hs fit (by omega) (by omega) aligned).bind
  intro c'' rest sum' le'
  exact readTail_piece d here hs fit (by omega) rest.1 rest.2

end Pieces

/-! ## The loop -/

section Loop
variable (d : Storage) {tab : List Section} (fit : ∀ s ∈ tab, s.IsHole ∨ s.Fits)
include fit

/-- One turn copies a positive number of bytes of the image, or fails. -/
theorem readTurn_spec {c : Cursor} (small : NoWrap tab (c.offset + 1)) (some' : 0 < c.remaining)
    (hr : c.remaining < 2 ^ 32) (ho : c.offset < 2 ^ 64) :
    match readTurn d tab c with
    | .ok c' => ∃ n, 0 < n ∧ n ≤ c.remaining ∧ c'.buf = c.buf + n ∧
        c'.offset = u64 (c.offset + n) ∧ c'.remaining = c.remaining - n ∧
        Advance (InSection tab) (fun i => image d tab (c.offset + i)) c.buf n c.io c'.io
    | .error io => Abort (InSection tab) c.buf c.remaining c.io io := by
  unfold readTurn
  rcases getNextRead_spec d c.remaining small ho with
    ⟨i, s, pos, readsize, heq, here, le, pos', inside, bytes⟩ | ⟨heq, zero⟩
  · simp only [heq]
    have positive := pos' some'
    by_cases hole : s.IsHole
    · rw [if_pos hole]
      refine ⟨readsize, positive, le, rfl, rfl, rfl, (advance_store _ _ _ _).congr ?_⟩
      intro k hk
      rw [bytes k hk, extentByte, if_pos hole]
    · rw [if_neg hole]
      have hfit : s.Fits := (fit s (List.mem_of_getElem? here)).resolve_left hole
      have whole := readPieces_piece d here hole hfit
        (c := { c with pos := pos, readsize := readsize }) inside positive (by simp only; omega)
      split
      · rename_i c' hc'
        rw [hc'] at whole
        obtain ⟨done, n, hn, ⟨h1, h2, h3, h4, h5⟩, adv⟩ := whole
        simp only at hn h1 h2 h3 h4 h5 adv
        have hall : n = readsize := by omega
        subst hall
        exact ⟨n, positive, le, h1, h2 ho, h3, adv.congr (fun k hk => (bytes k hk).symm)⟩
      · rename_i io hio
        rw [hio] at whole
        exact whole.mono le
  · simp only [heq]
    exact ⟨c.remaining, some', le_rfl, rfl, rfl, rfl,
      (advance_store _ _ _ _).congr (fun k _ => (zero k).symm)⟩

/-- With enough turns the loop ends: at 0 with the whole request copied, or at
-1 because a call failed. -/
theorem readLoop_spec (fuel : Nat) (c : Cursor) (enough : c.remaining ≤ fuel)
    (small : NoWrap tab (c.offset + c.remaining)) (hr : c.remaining < 2 ^ 32)
    (ho : c.offset + c.remaining < 2 ^ 64) :
    ∃ ret io, readLoop d tab fuel c = some (ret, io) ∧
      ((ret = 0 ∧ Advance (InSection tab) (fun i => image d tab (c.offset + i))
        c.buf c.remaining c.io io) ∨
      (ret = -1 ∧ Abort (InSection tab) c.buf c.remaining c.io io)) := by
  induction fuel generalizing c with
  | zero =>
    have zero : c.remaining = 0 := by omega
    refine ⟨0, c.io, by simp [readLoop, zero], Or.inl ⟨rfl, ?_⟩⟩
    rw [zero]
    exact Advance.refl _
  | succ fuel ih =>
    by_cases some' : 0 < c.remaining
    · have turn := readTurn_spec d fit (small.mono (by omega)) some' hr (by omega)
      cases h : readTurn d tab c with
      | error io =>
        rw [h] at turn
        exact ⟨-1, io, by simp [readLoop, some', h], Or.inr ⟨rfl, turn⟩⟩
      | ok c' =>
        rw [h] at turn
        obtain ⟨n, positive, le, hbuf, hoff, hrem, adv⟩ := turn
        have hoff' : c'.offset = c.offset + n := by
          rw [hoff]
          exact Nat.mod_eq_of_lt (by omega)
        obtain ⟨ret, io, hloop, result⟩ := ih c' (by omega)
          (small.mono (by omega)) (by omega) (by omega)
        refine ⟨ret, io, by simp [readLoop, some', h, hloop], ?_⟩
        have whole : c.remaining = n + c'.remaining := by omega
        rcases result with ⟨hret, adv'⟩ | ⟨hret, abort⟩
        · refine Or.inl ⟨hret, ?_⟩
          rw [whole]
          refine adv.trans ?_
          rw [← hbuf]
          exact adv'.congr (fun i _ => by rw [hoff', Nat.add_assoc])
        · refine Or.inr ⟨hret, ?_⟩
          rw [whole]
          exact adv.abort (hbuf ▸ abort)
    · have zero : c.remaining = 0 := by omega
      refine ⟨0, c.io, by simp [readLoop, zero], Or.inl ⟨rfl, ?_⟩⟩
      rw [zero]
      exact Advance.refl _

theorem processReadIsoCmd_spec (io : Io) (buf offset size : Nat)
    (small : NoWrap tab (offset + size)) (hsize : size < 2 ^ 32)
    (hend : offset + size < 2 ^ 64) :
    ∃ ret io', processReadIsoCmd d tab io buf offset size = some (ret, io') ∧
      ((ret = 0 ∧ Advance (InSection tab) (fun i => image d tab (offset + i)) buf size io io') ∨
      (ret = -1 ∧ Abort (InSection tab) buf size io io')) :=
  readLoop_spec d fit size _ le_rfl small hsize hend

end Loop

/-! ## What the caller is promised -/

/-- The call ends; it returns 0 with the image's bytes when every device call
succeeded and -1 when one failed; it only reads sectors of the section it is in
and only stores to the `size` bytes of the request. -/
def ServesImage (d : Storage) (tab : List Section) (io : Io) (buf offset size : Nat) : Prop :=
  ∃ ret io' new, processReadIsoCmd d tab io buf offset size = some (ret, io') ∧
    io'.calls = io.calls ++ new ∧
    ((∀ c ∈ new, c.ok = true) →
      ret = 0 ∧ io'.mem = fill io.mem buf size (fun k => image d tab (offset + k))) ∧
    ((∃ c ∈ new, c.ok = false) → ret = -1) ∧
    (∀ c ∈ new, InSection tab c) ∧ StoresIn io io' buf size ∧
    (∀ i, i < buf ∨ buf + size ≤ i → io'.mem i = io.mem i)

theorem processReadIsoCmd_servesImage (d : Storage) {tab : List Section}
    (fit : ∀ s ∈ tab, s.IsHole ∨ s.Fits) (io : Io) (buf : Nat) {offset size : Nat}
    (small : NoWrap tab (offset + size)) (hsize : size < 2 ^ 32) (hend : offset + size < 2 ^ 64) :
    ServesImage d tab io buf offset size := by
  obtain ⟨ret, io', run, result⟩ := processReadIsoCmd_spec d fit io buf offset size small hsize hend
  rcases result with ⟨hret, adv⟩ | ⟨hret, abort⟩
  · obtain ⟨new, hnew, good⟩ := adv.calls
    refine ⟨ret, io', new, run, hnew, fun _ => ⟨hret, adv.mem⟩, ?_, fun c hc => (good c hc).1,
      adv.stores, fun i hi => ?_⟩
    · rintro ⟨c, hc, bad⟩
      rw [(good c hc).2] at bad
      cases bad
    · rw [adv.mem, fill_outside _ _ hi]
  · obtain ⟨new, hnew, good, c, hc, bad⟩ := abort.calls
    refine ⟨ret, io', new, run, hnew, fun all => ?_, fun _ => hret, good, abort.stores,
      abort.outside⟩
    rw [all c hc] at bad
    cases bad

/-- A disk whose every byte is `b` and whose every call succeeds. -/
def constantDisk (b : UInt8) : Storage := ⟨fun _ _ => b, fun _ _ n => ⟨0, n, fun _ => 0⟩⟩

def blankIo : Io := ⟨fun _ => 0, [], []⟩

/-- Three sectors from device sector 5, then a two-sector hole: the request
starts unaligned and ends behind the table. -/
theorem processReadIsoCmd_servesImage_at_hole :
    ServesImage (constantDisk 7) [⟨5, 3⟩, ⟨holeMark, 2⟩] blankIo 0 100 3000 :=
  processReadIsoCmd_servesImage (constantDisk 7) (by decide) blankIo 0 (by decide) (by decide)
    (by decide)

/-- The running `base` is a 64-bit number: when the last section passes byte
2^64 of the image, `get_next_read` does not find its first byte. -/
theorem not_servesImage_of_wrap (before : List Section) (s : Section) (hole : ¬ s.IsHole)
    (below : imageSize before < 2 ^ 64) (wrap : 2 ^ 64 ≤ imageSize before + s.bytes) :
    ¬ ServesImage (constantDisk 1) (before ++ [s]) blankIo 0 (imageSize before) 1 := by
  have size := s.bytes_lt
  have wrapped : u64 (imageSize before + s.bytes) < imageSize before := by
    unfold u64
    omega
  have past : getNextRead (before ++ [s]) (imageSize before) 1 = ⟨none, 0, 1⟩ := by
    unfold getNextRead
    rw [nextReadFrom_skip _ _ before _ 0 0 (by omega) below, nextReadFrom]
    simp only [Nat.zero_add]
    rw [if_neg (by omega), nextReadFrom]
  have there : image (constantDisk 1) (before ++ [s]) (imageSize before + 0) = 1 := by
    rw [image_in_section _ _ _ _ (by omega), extentByte, if_neg hole]
    rfl
  have run : processReadIsoCmd (constantDisk 1) (before ++ [s]) blankIo 0 (imageSize before) 1 =
      some (0, blankIo.store 0 1 (fun _ => 0)) := by
    simp [processReadIsoCmd, readLoop, readTurn, past, Cursor.copy]
  rintro ⟨ret, io', new, run', hnew, whole, -⟩
  rw [run] at run'
  obtain ⟨rfl, rfl⟩ : (0 : Int) = ret ∧ blankIo.store 0 1 (fun _ => 0) = io' := by
    simpa using run'
  have none' : new = [] := by simpa [blankIo, Io.store] using hnew
  have same := congrFun (whole (by simp [none'])).2 (0 + 0)
  rw [fill_inside _ _ Nat.one_pos, there] at same
  exact absurd same (by decide)

/-- 2^23 sections of the largest size end below byte 2^64, one more passes it. -/
theorem processReadIsoCmd_wraps :
    (∀ s ∈ List.replicate (2 ^ 23) (⟨0, 0xFFFFFFFF⟩ : Section) ++ [⟨0, 0xFFFFFFFF⟩],
        s.IsHole ∨ s.Fits) ∧ 2 ^ 64 - 2 ^ 32 + 1 < 2 ^ 64 ∧
      ¬ ServesImage (constantDisk 1)
        (List.replicate (2 ^ 23) ⟨0, 0xFFFFFFFF⟩ ++ [⟨0, 0xFFFFFFFF⟩]) blankIo 0
        (2 ^ 64 - 2 ^ 32) 1 := by
  generalize hs : (⟨0, 0xFFFFFFFF⟩ : Section) = s
  have hbytes : s.bytes = 2 ^ 41 - 512 := by rw [← hs]; decide
  have fits : s.Fits := by rw [← hs]; decide
  have hole : ¬ s.IsHole := by rw [← hs]; decide
  have before : imageSize (List.replicate (2 ^ 23) s) = 2 ^ 64 - 2 ^ 32 := by
    rw [imageSize_replicate, hbytes]
    norm_num
  refine ⟨fun t ht => Or.inr ?_, by norm_num, ?_⟩
  · rcases List.mem_append.mp ht with ht | ht
    · rw [List.eq_of_mem_replicate ht]
      exact fits
    · rw [List.mem_singleton.mp ht]
      exact fits
  · rw [← before]
    exact not_servesImage_of_wrap _ s hole (by rw [before]; norm_num)
      (by rw [before, hbytes]; norm_num)

end IsoReads
