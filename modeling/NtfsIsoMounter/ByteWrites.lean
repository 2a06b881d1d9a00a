import NtfsIsoMounter.ByteMaps

/-!
# Write logs and reads of the memory they leave

A program that fills a buffer field by field is a log of writes. Where the
writes are pairwise apart, each of them is found unchanged in the final memory,
whatever their order. A reader sees a window of the memory; what it needs to
know is that a byte string stands at an address of its window.
-/

namespace ByteWrites

open ByteMaps

universe u
variable {α : Type u}

structure Write (α : Type u) where
  addr : Nat
  cells : List α

def Write.stop (w : Write α) : Nat := w.addr + w.cells.length

/-- The two writes have no address in common, or one of them is empty. -/
def Apart (v w : Write α) : Prop := v.stop ≤ w.addr ∨ w.stop ≤ v.addr

instance (v w : Write α) : Decidable (Apart v w) := inferInstanceAs (Decidable (_ ∨ _))

def put [Inhabited α] (mem : Nat → α) (w : Write α) : Nat → α :=
  fill mem w.addr w.cells.length (fun i => w.cells.getD i default)

/-- The memory after all writes of the log, first to last. -/
def replay [Inhabited α] (mem : Nat → α) (log : List (Write α)) : Nat → α := log.foldl put mem

/-- The cells `xs` stand at address `a` of a window. -/
def Holds (window : Nat → Option α) : Nat → List α → Prop
  | _, [] => True
  | a, x :: xs => window a = some x ∧ Holds window (a + 1) xs

/-- Read `n` cells from address `a` on; a read outside the window fails. -/
def readCells (window : Nat → Option α) : Nat → Nat → Option (List α)
  | _, 0 => some []
  | a, n + 1 => (window a).bind (fun x => (readCells window (a + 1) n).map (x :: ·))

/-- Read `n` records, `stride` apart. -/
def readRecords {β : Type u} (read : Nat → Option β) (stride : Nat) : Nat → Nat → Option (List β)
  | _, 0 => some []
  | a, n + 1 =>
    (read a).bind (fun y => (readRecords read stride (a + stride) n).map (y :: ·))

/-- The first `n` cells of a memory. -/
def window (n : Nat) (mem : Nat → α) : Nat → Option α :=
  fun a => if a < n then some (mem a) else none

theorem Apart.symm {v w : Write α} (apart : Apart v w) : Apart w v :=
  Or.symm apart

/-- A log below an address and a log above it are apart. -/
theorem pairwise_append_of_split {xs ys : List (Write α)} {m : Nat} (hx : xs.Pairwise Apart)
    (hy : ys.Pairwise Apart) (below : ∀ w ∈ xs, w.stop ≤ m) (above : ∀ w ∈ ys, m ≤ w.addr) :
    (xs ++ ys).Pairwise Apart := by
  apply List.pairwise_append.mpr
  refine ⟨hx, hy, ?_⟩
  intro v hv w hw
  exact Or.inl ((below v hv).trans (above w hw))

theorem holds_append (s : Nat → Option α) (a : Nat) (xs ys : List α) :
    Holds s a (xs ++ ys) ↔ Holds s a xs ∧ Holds s (a + xs.length) ys := by
  induction xs generalizing a with
  | nil => exact iff_of_eq (true_and _).symm
  | cons x xs ih =>
    have shifted : a + (x :: xs).length = a + 1 + xs.length := by
      rw [List.length_cons]
      omega
    rw [shifted, List.cons_append]
    exact (and_congr_right (fun _ => ih (a + 1))).trans and_assoc.symm

theorem Holds.left {s : Nat → Option α} {a : Nat} {xs ys : List α}
    (h : Holds s a (xs ++ ys)) : Holds s a xs :=
  ((holds_append s a xs ys).mp h).1

theorem Holds.right {s : Nat → Option α} {a b : Nat} {xs ys : List α}
    (h : Holds s a (xs ++ ys)) (hb : b = a + xs.length) : Holds s b ys := by
  subst hb
  exact ((holds_append s a xs ys).mp h).2

theorem holds_of_getElem {s : Nat → Option α} {a : Nat} {xs : List α}
    (each : ∀ i (hi : i < xs.length), s (a + i) = some xs[i]) : Holds s a xs := by
  induction xs generalizing a with
  | nil => trivial
  | cons x xs ih =>
    constructor
    · exact each 0 (Nat.zero_lt_succ _)
    · apply ih
      intro i hi
      have next := each (i + 1) (Nat.succ_lt_succ hi)
      rwa [List.getElem_cons_succ, Nat.add_left_comm, Nat.add_comm i] at next

theorem readCells_holds {s : Nat → Option α} {a : Nat} {xs : List α} (h : Holds s a xs) :
    readCells s a xs.length = some xs := by
  induction xs generalizing a with
  | nil => rfl
  | cons x xs ih => simp only [List.length_cons, readCells, h.1, ih h.2, Option.bind_some,
      Option.map_some]

/-- Records laid out one after the other are read back. -/
theorem readRecords_holds {β : Type u} {s : Nat → Option α} {read : Nat → Option β}
    {encode : β → List α} {stride : Nat} (width : ∀ y, (encode y).length = stride)
    (reads : ∀ y a, Holds s a (encode y) → read a = some y) {a : Nat} {ys : List β}
    (h : Holds s a (ys.flatMap encode)) : readRecords read stride a ys.length = some ys := by
  induction ys generalizing a with
  | nil => rfl
  | cons y ys ih =>
    rw [List.flatMap_cons] at h
    have first := reads y a h.left
    have rest := ih (h.right (congrArg (a + ·) (width y).symm))
    simp only [List.length_cons, readRecords, first, rest, Option.bind_some, Option.map_some]

section Replay
variable [Inhabited α]

theorem replay_append (mem : Nat → α) (first second : List (Write α)) :
    replay mem (first ++ second) = replay (replay mem first) second :=
  List.foldl_append

/-- A write stays as it is under writes apart from it. -/
theorem replay_keeps (mem : Nat → α) (w : Write α) (log : List (Write α))
    (apart : ∀ v ∈ log, Apart w v) {i : Nat} (hi : i < w.cells.length) :
    replay mem log (w.addr + i) = mem (w.addr + i) := by
  induction log generalizing mem with
  | nil => rfl
  | cons v log ih =>
    have later := ih (put mem v) (fun u hu => apart u (List.mem_cons_of_mem v hu))
    have here := apart v List.mem_cons_self
    simp only [Apart, Write.stop] at here
    exact later.trans (fill_outside mem _ (by omega))

/-- Every write of a log of pairwise apart writes is found in the memory it leaves. -/
theorem replay_holds (mem : Nat → α) {n : Nat} {w : Write α} {log : List (Write α)}
    (apart : log.Pairwise Apart) (member : w ∈ log) (inside : w.stop ≤ n) :
    Holds (window n (replay mem log)) w.addr w.cells := by
  obtain ⟨before, after, hlog⟩ := List.append_of_mem member
  subst hlog
  have rest : ∀ v ∈ after, Apart w v :=
    (List.pairwise_cons.mp (List.pairwise_append.mp apart).2.1).1
  apply holds_of_getElem
  intro i hi
  have low : w.addr + i < n := by
    simp only [Write.stop] at inside
    omega
  rw [window, if_pos low, replay_append]
  apply congrArg some
  calc replay (put (replay mem before) w) after (w.addr + i)
      = put (replay mem before) w (w.addr + i) := replay_keeps _ w after rest hi
    _ = w.cells.getD i default := fill_inside _ _ hi
    _ = w.cells[i] := by rw [List.getD_eq_getElem _ _ hi]

/-- A cell no write covers keeps its initial value. -/
theorem replay_untouched (mem : Nat → α) (log : List (Write α)) (a : Nat)
    (outside : ∀ w ∈ log, a < w.addr ∨ w.stop ≤ a) : replay mem log a = mem a := by
  induction log generalizing mem with
  | nil => rfl
  | cons w log ih =>
    have here := outside w List.mem_cons_self
    have later := ih (put mem w) (fun v hv => outside v (List.mem_cons_of_mem w hv))
    exact later.trans (fill_outside mem _ here)

end Replay

end ByteWrites
