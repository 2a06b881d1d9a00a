import NtfsIsoMounter.BlockReads
import NtfsIsoMounter.CdAddresses

/-!
# The storage reads a request needs

From the section table, the offset and the size alone follow the sectors that
are read for a request. The routines issue these reads in order, up to the
first one that fails: so it is the device that decides, by its answers to
them, whether a read of the request fails.
-/

namespace ReadPlans

open ByteMaps SectionTables IsoReads CdSectorCache CommandThread BlockReads CdAddresses

structure SectorRead where
  sector : Nat
  count : Nat
  deriving DecidableEq

/-- The bytes up to the first sector border. -/
def headSize (pos readsize : Nat) : Nat :=
  if pos % 512 = 0 then 0 else min (512 - pos % 512) readsize

def headReads (start pos : Nat) : List SectorRead :=
  if pos % 512 = 0 then [] else [⟨u32 (start + pos / 512), 1⟩]

def bulkReads (start pos readsize : Nat) : List SectorRead :=
  if readsize < 512 then [] else [⟨u32 (start + pos / 512), readsize / 512⟩]

def tailReads (start pos readsize : Nat) : List SectorRead :=
  if readsize = 0 then [] else [⟨u32 (start + pos / 512), 1⟩]

/-- The reads for `readsize` bytes from byte `pos` of an extent on: the sector it
starts within, whole sectors, and the sector it ends within. -/
def extentReads (start pos readsize : Nat) : List SectorRead :=
  let head := headSize pos readsize
  let bulk := (readsize - head) / 512 * 512
  headReads start pos ++ (bulkReads start (pos + head) (readsize - head) ++
    tailReads start (pos + head + bulk) (readsize - head - bulk))

/-- The reads for bytes that one section holds; none for a hole or past the table. -/
def sectionReads (next : NextRead) : List SectorRead :=
  match next.found with
  | none => []
  | some (_, s) =>
    if s.IsHole then [] else extentReads s.start.toNat next.offset next.readsize

/-- The reads for `size` bytes of the image, section by section; no request has
more sections than bytes. -/
def imageReads (tab : List Section) : Nat → Nat → Nat → List SectorRead
  | 0, _, _ => []
  | turns + 1, offset, size =>
    if size = 0 then []
    else
      let next := getNextRead tab offset size
      sectionReads next ++
        imageReads tab turns (u64 (offset + next.readsize)) (size - next.readsize)

def requestReads (tab : List Section) (r : IsoRequest) : List SectorRead :=
  imageReads tab r.size r.offset r.size

/-- From call number `k` on the device answers these reads in full. -/
def Answered (d : Storage) : Nat → List SectorRead → Prop
  | _, [] => True
  | k, r :: rest => (d.reply k r.sector r.count).full r.count = true ∧ Answered d (k + 1) rest

instance decidableAnswered (d : Storage) : ∀ k reads, Decidable (Answered d k reads)
  | _, [] => inferInstanceAs (Decidable True)
  | k, _ :: rest =>
    have := decidableAnswered d (k + 1) rest
    inferInstanceAs (Decidable (_ ∧ _))

variable {d : Storage} {tab : List Section}

theorem answered_append (k : Nat) (reads more : List SectorRead) :
    Answered d k (reads ++ more) ↔
      Answered d k reads ∧ Answered d (k + reads.length) more := by
  induction reads generalizing k with
  | nil => simp [Answered]
  | cons r rest ih =>
    have count : k + (r :: rest).length = k + 1 + rest.length := by
      rw [List.length_cons]
      omega
    rw [List.cons_append, Answered, Answered, ih, count, and_assoc]

/-! ## Reads that are issued -/

/-- All of the reads were issued and answered, or one was not answered. -/
def Follows (d : Storage) (reads : List SectorRead) (io io' : Io) : Prop :=
  (Answered d io.calls.length reads ∧ AllOk io io' ∧
    io'.calls.length = io.calls.length + reads.length) ∨
  (¬ Answered d io.calls.length reads ∧ SomeFailed io io')

/-- The same of a piece of a turn, which goes on with the part that is left. -/
def PieceFollows (d : Storage) (reads : List SectorRead) (c : Cursor) (n : Nat) :
    Except Io Cursor → Prop
  | .ok c' => Answered d c.io.calls.length reads ∧ AllOk c.io c'.io ∧
      c'.io.calls.length = c.io.calls.length + reads.length ∧
      c'.pos = c.pos + n ∧ c'.readsize = c.readsize - n ∧ n ≤ c.readsize ∧
      c'.offset = u64 (c.offset + n) ∧ c'.remaining = c.remaining - n
  | .error io => ¬ Answered d c.io.calls.length reads ∧ SomeFailed c.io io

theorem SomeFailed.before {io io' io'' : Io} (first : SomeFailed io io')
    (second : Logged io' io'') : SomeFailed io io'' := by
  obtain ⟨new, hnew, c, among, bad⟩ := first
  obtain ⟨more, hmore⟩ := second
  exact ⟨new ++ more, by rw [hmore, hnew, List.append_assoc], c,
    List.mem_append_left more among, bad⟩

theorem AllOk.logged {io io' : Io} (all : AllOk io io') : Logged io io' := by
  obtain ⟨new, hnew, -⟩ := all
  exact ⟨new, hnew⟩

theorem SomeFailed.logged {io io' : Io} (failed : SomeFailed io io') : Logged io io' := by
  obtain ⟨new, hnew, -⟩ := failed
  exact ⟨new, hnew⟩

theorem Follows.logged {reads : List SectorRead} {io io' : Io} (h : Follows d reads io io') :
    Logged io io' := by
  rcases h with ⟨-, all, -⟩ | ⟨-, failed⟩
  · exact AllOk.logged all
  · exact SomeFailed.logged failed

theorem Follows.same {io io' : Io} (same : io'.calls = io.calls) : Follows d [] io io' :=
  Or.inl ⟨trivial, AllOk.of_same same, by rw [same]; rfl⟩

/-- Behind a read that failed it does not matter which reads follow. -/
theorem Follows.trans {reads more : List SectorRead} {io io' io'' : Io}
    (first : Follows d reads io io') (second : Follows d more io' io'') :
    Follows d (reads ++ more) io io'' := by
  unfold Follows
  rw [answered_append, List.length_append]
  rcases first with ⟨answered, all, count⟩ | ⟨missed, failed⟩
  · rcases second with ⟨answered', all', count'⟩ | ⟨missed', failed'⟩
    · rw [← count]
      exact Or.inl ⟨⟨answered, answered'⟩, all.trans all', by omega⟩
    · rw [← count]
      exact Or.inr ⟨fun both => missed' both.2, all.failed failed'⟩
  · exact Or.inr ⟨fun both => missed both.1, SomeFailed.before failed second.logged⟩

/-- The reads succeed exactly where the device answers what was asked. -/
theorem Follows.allOk_iff {reads : List SectorRead} {io io' : Io} (h : Follows d reads io io') :
    AllOk io io' ↔ Answered d io.calls.length reads := by
  rcases h with ⟨answered, all, -⟩ | ⟨missed, failed⟩
  · exact ⟨fun _ => answered, fun _ => all⟩
  · exact ⟨fun all => absurd all (not_allOk_of_failed failed),
      fun answered => absurd answered missed⟩

/-! ## The pieces of a turn -/

theorem piece_none (c : Cursor) (below : c.offset < 2 ^ 64) : PieceFollows d [] c 0 (.ok c) :=
  ⟨trivial, AllOk.of_same rfl, rfl, rfl, rfl, Nat.zero_le _, (Nat.mod_eq_of_lt below).symm, rfl⟩

theorem piece_call (c : Cursor) (idx sector count : Nat) {n : Nat} (le : n ≤ c.readsize)
    (f : Nat → UInt8) (ok : (c.io.call d idx sector count).1.full count = true) :
    PieceFollows d [⟨sector, count⟩] c n
      (.ok (Cursor.copy { c with io := (c.io.call d idx sector count).2 } n f)) := by
  refine ⟨⟨ok, trivial⟩, allOk_call d c.io idx sector count ok, ?_, rfl, rfl, le, rfl, rfl⟩
  exact List.length_append

theorem piece_missed (c : Cursor) (idx sector count : Nat) (n : Nat) {io : Io}
    (failed : ¬ (c.io.call d idx sector count).1.full count = true)
    (same : io.calls = (c.io.call d idx sector count).2.calls) :
    PieceFollows d [⟨sector, count⟩] c n (.error io) := by
  refine ⟨fun answered => failed answered.1, ?_⟩
  obtain ⟨new, hnew, bad⟩ := someFailed_call d c.io idx sector count failed
  exact ⟨new, same.trans hnew, bad⟩

theorem readHead_follows (idx start : Nat) (c : Cursor) (below : c.offset < 2 ^ 64) :
    PieceFollows d (headReads start c.pos) c (headSize c.pos c.readsize)
      (readHead d idx start c) := by
  unfold headReads headSize readHead
  by_cases aligned : c.pos % 512 = 0
  · rw [if_pos aligned, if_pos aligned, if_pos aligned]
    exact piece_none c below
  · rw [if_neg aligned, if_neg aligned, if_neg aligned]
    by_cases ok : (c.io.call d idx (u32 (start + c.pos / 512)) 1).1.full 1 = true
    · simp only [ok, if_true]
      have size : (if 512 - c.pos % 512 > c.readsize then c.readsize else 512 - c.pos % 512) =
          min (512 - c.pos % 512) c.readsize := by
        split <;> omega
      rw [size]
      exact piece_call c idx _ 1 (Nat.min_le_right _ _) _ ok
    · simp only [ok]
      exact piece_missed c idx _ 1 _ ok rfl

theorem readBulk_follows (idx start : Nat) (c : Cursor) (below : c.offset < 2 ^ 64)
    (small : c.readsize < 2 ^ 32) :
    PieceFollows d (bulkReads start c.pos c.readsize) c (c.readsize / 512 * 512)
      (readBulk d idx start c) := by
  have count : u32 (c.readsize / 512) = c.readsize / 512 := Nat.mod_eq_of_lt (by omega)
  have size : u32 (c.readsize / 512 * 512) = c.readsize / 512 * 512 := Nat.mod_eq_of_lt (by omega)
  unfold bulkReads readBulk
  simp only [count, size]
  by_cases short : c.readsize < 512
  · have zero : c.readsize / 512 = 0 := by omega
    rw [if_pos short, if_pos zero, zero]
    exact piece_none c below
  · rw [if_neg short, if_neg (by omega)]
    by_cases ok : (c.io.call d idx (u32 (start + c.pos / 512)) (c.readsize / 512)).1.full
        (c.readsize / 512) = true
    · simp only [ok, if_true]
      exact piece_call c idx _ _ (by omega) _ ok
    · simp only [ok]
      exact piece_missed c idx _ _ _ ok rfl

theorem readTail_follows (idx start : Nat) (c : Cursor) (below : c.offset < 2 ^ 64) :
    PieceFollows d (tailReads start c.pos c.readsize) c c.readsize (readTail d idx start c) := by
  unfold tailReads readTail
  by_cases none' : c.readsize = 0
  · rw [if_pos none', if_pos none', none']
    exact piece_none c below
  · rw [if_neg none', if_neg none']
    by_cases ok : (c.io.call d idx (u32 (start + c.pos / 512)) 1).1.full 1 = true
    · simp only [ok, if_true]
      exact piece_call c idx _ 1 (Nat.le_refl _) _ ok
    · simp only [ok]
      exact piece_missed c idx _ 1 _ ok rfl

/-- A piece goes on only where its reads were answered. -/
theorem PieceFollows.bind {reads more : List SectorRead} {c : Cursor} {n m : Nat}
    {r : Except Io Cursor} {f : Cursor → Except Io Cursor} (first : PieceFollows d reads c n r)
    (next : ∀ c', r = .ok c' → c'.pos = c.pos + n → c'.readsize = c.readsize - n →
      c'.offset < 2 ^ 64 → PieceFollows d more c' m (f c')) :
    PieceFollows d (reads ++ more) c (n + m) (r >>= f) := by
  cases r with
  | error io =>
    obtain ⟨missed, failed⟩ := first
    exact ⟨fun both => missed ((answered_append _ _ _).mp both).1, failed⟩
  | ok c' =>
    obtain ⟨answered, all, count, pos, readsize, le, offset, remaining⟩ := first
    have below : c'.offset < 2 ^ 64 := by
      rw [offset]
      exact Nat.mod_lt _ (by decide)
    have second := next c' rfl pos readsize below
    change PieceFollows d (reads ++ more) c (n + m) (f c')
    cases hf : f c' with
    | error io =>
      rw [hf] at second
      obtain ⟨missed, failed⟩ := second
      refine ⟨fun both => missed ?_, all.failed failed⟩
      rw [count]
      exact ((answered_append _ _ _).mp both).2
    | ok c'' =>
      rw [hf] at second
      obtain ⟨answered', all', count', pos', readsize', le', offset', remaining'⟩ := second
      rw [count] at answered'
      refine ⟨(answered_append _ _ _).mpr ⟨answered, answered'⟩, all.trans all', ?_, ?_, ?_, ?_,
        ?_, ?_⟩
      · rw [count', count, List.length_append, Nat.add_assoc]
      · rw [pos', pos, Nat.add_assoc]
      · rw [readsize', readsize, Nat.sub_sub]
      · omega
      · rw [offset', offset]
        unfold u64
        omega
      · rw [remaining', remaining, Nat.sub_sub]

/-- The three pieces make the reads of the extent and leave nothing. -/
theorem readPieces_follows (idx start : Nat) (c : Cursor) (below : c.offset < 2 ^ 64)
    (small : c.readsize < 2 ^ 32) :
    PieceFollows d (extentReads start c.pos c.readsize) c c.readsize
      (readHead d idx start c >>= fun c => readBulk d idx start c >>= fun c =>
        readTail d idx start c) := by
  have head : headSize c.pos c.readsize ≤ c.readsize := by
    unfold headSize
    split <;> omega
  generalize hsize : headSize c.pos c.readsize = size at head
  have first := readHead_follows (d := d) idx start c below
  rw [hsize] at first
  have sum : c.readsize = size + ((c.readsize - size) / 512 * 512 +
      (c.readsize - size - (c.readsize - size) / 512 * 512)) := by omega
  have whole : PieceFollows d (extentReads start c.pos c.readsize) c (size +
      ((c.readsize - size) / 512 * 512 + (c.readsize - size - (c.readsize - size) / 512 * 512)))
      (readHead d idx start c >>= fun c => readBulk d idx start c >>= fun c =>
        readTail d idx start c) := by
    unfold extentReads
    dsimp only
    rw [hsize]
    apply first.bind
    intro c' _ pos readsize below'
    rw [← pos, ← readsize]
    apply (readBulk_follows idx start c' below' (by omega)).bind
    intro c'' _ pos' readsize' below''
    rw [← pos', ← readsize']
    exact readTail_follows idx start c'' below''
  rwa [← sum] at whole

/-! ## Whole requests -/

theorem readTurn_follows (c : Cursor) (below : c.offset < 2 ^ 64) (small : c.remaining < 2 ^ 32)
    (some' : 0 < c.remaining) :
    match readTurn d tab c with
    | .ok c' => Follows d (sectionReads (getNextRead tab c.offset c.remaining)) c.io c'.io ∧
        c'.offset = u64 (c.offset + (getNextRead tab c.offset c.remaining).readsize) ∧
        c'.remaining = c.remaining - (getNextRead tab c.offset c.remaining).readsize
    | .error io => ¬ Answered d c.io.calls.length
        (sectionReads (getNextRead tab c.offset c.remaining)) ∧ SomeFailed c.io io := by
  have within := (nextReadFrom_progress tab c.offset some' 0 0).2
  unfold readTurn
  change (getNextRead tab c.offset c.remaining).readsize ≤ c.remaining at within
  generalize getNextRead tab c.offset c.remaining = next at within ⊢
  obtain ⟨found, pos, readsize⟩ := next
  unfold sectionReads
  dsimp only at within ⊢
  cases found with
  | none => exact ⟨Follows.same rfl, rfl, rfl⟩
  | some found =>
    obtain ⟨idx, s⟩ := found
    dsimp only
    by_cases hole : s.IsHole
    · rw [if_pos hole, if_pos hole]
      exact ⟨Follows.same rfl, rfl, rfl⟩
    · rw [if_neg hole, if_neg hole]
      have pieces := readPieces_follows (d := d) idx s.start.toNat
        { c with pos := pos, readsize := readsize } below (by dsimp only; omega)
      split
      · rename_i c' hc'
        rw [hc'] at pieces
        obtain ⟨answered, all, count, -, -, -, offset, remaining⟩ := pieces
        exact ⟨Or.inl ⟨answered, all, count⟩, offset, remaining⟩
      · rename_i io hio
        rw [hio] at pieces
        exact pieces

theorem readLoop_follows (turns : Nat) (c : Cursor) (below : c.offset < 2 ^ 64)
    (small : c.remaining < 2 ^ 32) {r : Int × Io} (run : readLoop d tab turns c = some r) :
    Follows d (imageReads tab turns c.offset c.remaining) c.io r.2 := by
  induction turns generalizing c with
  | zero =>
    rw [readLoop] at run
    split at run
    · cases run
    · cases run
      exact Follows.same rfl
  | succ turns ih =>
    rw [readLoop] at run
    rw [imageReads]
    by_cases some' : 0 < c.remaining
    · have turn := @readTurn_follows d tab c below small some'
      rw [if_pos some'] at run
      rw [if_neg (by omega)]
      dsimp only
      cases h : readTurn d tab c with
      | error io =>
        rw [h] at turn run
        cases run
        refine Or.inr ⟨fun both => turn.1 ((answered_append _ _ _).mp both).1, turn.2⟩
      | ok c' =>
        rw [h] at turn run
        obtain ⟨follows, offset, remaining⟩ := turn
        have later := ih c' (by rw [offset]; exact Nat.mod_lt _ (by decide)) (by omega) run
        rw [offset, remaining] at later
        exact follows.trans later
    · rw [if_neg some'] at run
      rw [if_pos (by omega)]
      cases run
      exact Follows.same rfl

theorem processReadIsoCmd_follows (io : Io) (buf : Nat) {offset size : Nat}
    (below : offset < 2 ^ 64) (small : size < 2 ^ 32) {r : Int × Io}
    (run : processReadIsoCmd d tab io buf offset size = some r) :
    Follows d (requestReads tab ⟨offset, size⟩) io r.2 :=
  readLoop_follows size ⟨io, buf, offset, size, 0, 0⟩ below small run

/-! ## Block reads -/

/-- Requests one behind the other are all issued, whatever became of those before. -/
theorem serve_follows (requests : List IsoRequest) (io : Io) (out : Nat)
    (low : ∀ r ∈ requests, r.offset < 2 ^ 64 ∧ r.size < 2 ^ 32) {io' : Io}
    (run : serve d tab requests io out = some io') :
    Follows d (requests.flatMap (requestReads tab)) io io' := by
  induction requests generalizing io out with
  | nil =>
    cases run
    exact Follows.same rfl
  | cons r rest ih =>
    rw [serve] at run
    obtain ⟨reply, first, later⟩ := Option.bind_eq_some_iff.mp run
    obtain ⟨offset, size⟩ := low r List.mem_cons_self
    rw [List.flatMap_cons]
    exact (processReadIsoCmd_follows io out offset size first).trans
      (ih reply.2 _ (fun r' among => low r' (List.mem_cons_of_mem r among)) later)

theorem blockRequests_low (rem startSector : Nat) :
    ∀ r ∈ blockRequests rem startSector, r.offset < 2 ^ 64 ∧ r.size < 2 ^ 32 := by
  induction rem generalizing startSector with
  | zero => exact fun r among => (List.not_mem_nil among).elim
  | succ rem ih =>
    intro r among
    rcases List.mem_cons.mp among with rfl | later
    · exact ⟨Nat.lt_of_lt_of_le (Nat.mod_lt _ (by decide)) (by decide),
        show 2048 < 2 ^ 32 by decide⟩
    · exact ih _ r later

/-- The block read issues the reads of its list and returns 0. -/
theorem processReadCd2048Cmd_follows (io : Io) (buf startSector sectorCount : Nat) :
    ∃ io', processReadCd2048Cmd d tab io buf startSector sectorCount = some (0, io') ∧
      Follows d ((cd2048Requests startSector sectorCount).flatMap (requestReads tab)) io io' := by
  obtain ⟨io', run, -⟩ := processReadCd2048Cmd_zero d tab io buf startSector sectorCount
  refine ⟨io', run, ?_⟩
  unfold cd2048Requests
  dsimp only
  rw [processReadCd2048Cmd] at run
  generalize u32 (sectorCount * 2048) / 2352 = fit at run ⊢
  generalize u32 (sectorCount + 2 ^ 32 - fit) = rem at run ⊢
  simp only [readBlocks_eq_serve] at run
  obtain ⟨io₂, blocks, same⟩ := Option.map_eq_some_iff.mp run
  obtain ⟨io₁, bulk, later⟩ := Option.bind_eq_some_iff.mp blocks
  have behind := serve_follows _ _ _ (blockRequests_low rem _) later
  rw [(Prod.mk.inj same).2] at behind
  rw [List.flatMap_append]
  refine Follows.trans ?_ behind
  unfold bulkRequest
  by_cases some' : fit > 0
  · rw [if_pos some'] at bulk ⊢
    obtain ⟨r, first, moved⟩ := Option.map_eq_some_iff.mp bulk
    have raw := processReadIsoCmd_follows io buf
      (Nat.lt_of_lt_of_le (Nat.mod_lt _ (by decide)) (by decide)) (Nat.mod_lt _ (by decide)) first
    have same' : io₁.calls = r.2.calls := by
      rw [← moved]
      exact compact_calls fit r.2 buf buf
    have whole := raw.trans (Follows.same same')
    rw [List.append_nil] at whole
    rw [Option.toList_some, List.flatMap_cons, List.flatMap_nil, List.append_nil]
    exact whole
  · rw [if_neg some'] at bulk ⊢
    cases bulk
    exact Follows.same rfl

end ReadPlans
