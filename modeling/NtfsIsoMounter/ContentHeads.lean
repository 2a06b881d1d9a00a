import NtfsIsoMounter.ContentPasses

/-!
# The first record of every content

Whatever the names are, also where a record length wraps, each content begins with the
record of its own extent, and the extents follow one another: no directory built later
finds its string in that record, so none writes to it. The relocation moves it once.
-/

namespace ContentHeads

open ByteOrder CText SectorPacking SourceTrees DirectoryRecords ImageBuild RecordPasses
  ContentPasses

/-! ## One content -/

/-- The content begins with a record `.` of this extent. -/
def Headed (start size : Nat) (content : List UInt8) : Prop :=
  ∃ time more, content = (⟨start, size, time, isoDirectory, [0]⟩ : Record).bytes ++ more

theorem nextDirRecord_ge {pos at' : Nat} {rest behind : List UInt8}
    (next : nextDirRecord pos rest = some (at', behind)) : pos ≤ at' := by
  cases rest with
  | nil => cases next
  | cons b rest =>
    rw [nextDirRecord, nextRecord] at next
    split at next
    · cases next
      exact le_rfl
    · split at next
      · cases next
      · split at next
        · cases next
          exact Nat.le_add_right _ _
        · cases next

/-- The walk goes forward. -/
theorem findFrom_ge {key : List UInt8} {fuel pos at' : Nat} {rest : List UInt8}
    (found : findFrom key fuel pos rest = some at') : pos ≤ at' := by
  induction fuel generalizing pos rest with
  | zero => cases found
  | succ fuel ih =>
    rw [findFrom] at found
    split at found
    · cases found
    · rename_i next
      have forward := nextDirRecord_ge next
      split at found
      · cases found
        exact forward
      · have later := ih found
        omega

/-- A record at the head is found at once. -/
theorem nextDirRecord_first {dot : Record} (self : dot.ident = [0]) (more : List UInt8) :
    nextDirRecord 0 (dot.bytes ++ more) = some (0, dot.bytes ++ more) := by
  obtain ⟨pad, split, -⟩ := Record.bytes_eq (self ▸ short_dot)
  rw [split, self]
  rfl

namespace Headed
variable {start size : Nat} {content : List UInt8}

theorem getExtent_eq (headed : Headed start size content) :
    getExtent content 0 = extentBytes start size := by
  obtain ⟨time, more, rfl⟩ := headed
  exact Record.getExtent_bytes (r := ⟨start, size, time, isoDirectory, [0]⟩) short_dot [] more

/-- A string other than that of `.` is found behind the first record. -/
theorem find_behind (headed : Headed start size content) {key : List UInt8} (other : key ≠ [0])
    {pos : Nat} (found : findDirRecord key content = some pos) : 40 ≤ pos := by
  obtain ⟨time, more, rfl⟩ := headed
  obtain ⟨dot, this⟩ : ∃ dot : Record, dot = ⟨start, size, time, isoDirectory, [0]⟩ := ⟨_, rfl⟩
  have self : dot.ident = [0] := by rw [this]
  rw [← this, findDirRecord] at found
  obtain ⟨fuel, length⟩ : ∃ fuel, (dot.bytes ++ more).length = fuel + 1 :=
    ⟨39 + more.length, by rw [List.length_append, dot_length self]; omega⟩
  have differs : (dot.ident == key) = false := by
    rw [self, beq_eq_false_iff_ne]
    exact other.symm
  rw [length, findFrom, nextDirRecord_first self] at found
  simp only [Record.hasIdent_bytes (self ▸ short_dot), differs, Bool.false_eq_true, if_false,
    Record.first_byte (self ▸ short_dot), dot_length self] at found
  have forward := findFrom_ge found
  omega

/-- An extent stored behind it leaves the first record. -/
theorem setExtent_behind (headed : Headed start size content) {pos : Nat} (behind : 40 ≤ pos)
    (extent : List UInt8) : Headed start size (setExtent content pos extent) := by
  obtain ⟨time, more, rfl⟩ := headed
  refine ⟨time, more.take (pos + 2 - 40) ++ extent ++
    ((⟨start, size, time, isoDirectory, [0]⟩ : Record).bytes ++ more).drop (pos + 18), ?_⟩
  have length : (⟨start, size, time, isoDirectory, [0]⟩ : Record).bytes.length = 40 :=
    dot_length rfl
  rw [setExtent, List.take_append, List.take_of_length_le (by omega), length]
  simp only [List.append_assoc]

/-- A content that begins with a record `.` once its extent is stored. -/
theorem of_dot {time : RecordTime} (first : Nat) (more : List UInt8) (start size : Nat) :
    Headed start size
      (setExtent ((dotRecord first time).bytes ++ more) 0 (extentBytes start size)) := by
  refine ⟨time, more, ?_⟩
  exact Record.setExtent_bytes (r := dotRecord first time) short_dot [] more start size

/-- The start is stored in 32 bits. -/
theorem mod (headed : Headed start size content) : Headed (start % 2 ^ 32) size content := by
  have same : extentBytes (start % 2 ^ 32) size = extentBytes start size := by
    have four := leBytes_mod 4 start
    have four' := beBytes_mod 4 start
    rw [show 256 ^ 4 = 2 ^ 32 from rfl] at four four'
    rw [extentBytes, extentBytes, four, four']
  obtain ⟨time, more, rfl⟩ := headed
  refine ⟨time, more, ?_⟩
  simp only [Record.bytes, same]
  rfl

/-- The relocation adds to the first record. -/
theorem fixDirLba_moved (headed : Headed start size content) (small : start < 2 ^ 32)
    (dirLba filesLba : Nat) :
    Headed (start + dirLba) size (fixDirLba content dirLba filesLba) := by
  obtain ⟨time, more, rfl⟩ := headed
  obtain ⟨dot, this⟩ : ∃ dot : Record, dot = ⟨start, size, time, isoDirectory, [0]⟩ := ⟨_, rfl⟩
  have self : dot.ident = [0] := by rw [this]
  have self' : (dot.relocate dirLba filesLba).ident = [0] := self
  have small' : dot.start < 2 ^ 32 := by rw [this]; exact small
  obtain ⟨fuel, length⟩ : ∃ fuel, (dot.bytes ++ more).length = fuel + 1 :=
    ⟨39 + more.length, by rw [List.length_append, dot_length self]; omega⟩
  rw [← this, fixDirLba, length, fixFrom, nextDirRecord_first self]
  simp only [Record.fixRecord_bytes (self ▸ short_dot) small',
    Record.first_byte (r := dot.relocate dirLba filesLba) (self' ▸ short_dot), Nat.sub_self,
    List.take_zero, List.nil_append, List.take_left]
  refine ⟨time, _, congrArg (fun r : Record => r.bytes ++ _) ?_⟩
  have directory : isoDirectory &&& isoDirectory ≠ 0 := by decide
  rw [this, Record.relocate, Record.base, if_pos directory]

end Headed

/-! ## A pass -/

/-- Where the content behind the first `i` contents starts, in 32 bits. -/
def startOf (sizes : List Nat) (i : Nat) : Nat := ((sizes.take i).map bytesToSectors).sum % 2 ^ 32

theorem startOf_append {sizes : List Nat} {i : Nat} (inside : i ≤ sizes.length) (size : Nat) :
    startOf (sizes ++ [size]) i = startOf sizes i := by
  rw [startOf, startOf, List.take_append_of_le_length inside]

theorem startOf_succ {sizes : List Nat} {i size : Nat} (here : sizes[i]? = some size) :
    startOf sizes (i + 1) = (startOf sizes i + bytesToSectors size) % 2 ^ 32 := by
  rw [startOf, startOf, List.take_add_one, here, List.map_append, List.sum_append, Nat.mod_add_mod]
  rfl

/-- The contents of the directories built so far are headed by extents of these sizes,
one behind another. -/
structure Heads (sizes : List Nat) (st : Pass) : Prop where
  count : st.contents.length = sizes.length
  sectors : st.sectors = startOf sizes sizes.length
  headed : ∀ i content size, st.contents[i]? = some content → sizes[i]? = some size →
    Headed (startOf sizes i) size content

/-- A new content behind the others, and another extent in one of them. -/
theorem Heads.snoc {sizes : List Nat} {st : Pass} (heads : Heads sizes st) {size : Nat}
    {content : List UInt8} {contents : List (List UInt8)}
    (new : Headed st.sectors size content) (count : contents.length = st.contents.length)
    (kept : ∀ i content size, contents[i]? = some content → sizes[i]? = some size →
      Headed (startOf sizes i) size content) :
    Heads (sizes ++ [size]) ⟨contents ++ [content],
      (st.sectors + bytesToSectors size) % 2 ^ 32⟩ := by
  constructor
  · rw [List.length_append, List.length_append, count, heads.count]
    rfl
  · have here : (sizes ++ [size])[sizes.length]? = some size := List.getElem?_concat_length
    rw [List.length_append, List.length_singleton, startOf_succ here, startOf_append le_rfl,
      heads.sectors]
  · intro i content' size' at' size_eq
    rcases Nat.lt_trichotomy i sizes.length with low | same | high
    · rw [List.getElem?_append_left low] at size_eq
      rw [List.getElem?_append_left (by rw [count, heads.count]; exact low)] at at'
      rw [startOf_append low.le]
      exact kept i content' size' at' size_eq
    · subst same
      rw [List.getElem?_concat_length] at size_eq
      rw [← heads.count, ← count, List.getElem?_concat_length] at at'
      cases at'
      cases size_eq
      rw [startOf_append le_rfl, ← heads.sectors]
      exact new
    · rw [List.getElem?_eq_none] at size_eq
      · cases size_eq
      · rw [List.length_append, List.length_singleton]
        exact high

section Turn
variable {stat : List UInt8 → Option Stat} {joliet : Bool} {tempBufSize : Nat} {dirs : List Dir}

/-- What a turn leaves in its new content, before the extent of a child. -/
theorem headed_placed {time : RecordTime} {up : List UInt8} {records : List (List UInt8)}
    {first : Nat} {placed : List UInt8}
    (ok : placeAll tempBufSize records ((dotRecord first time).bytes ++ up) = some placed)
    (start size : Nat) (zeros : List UInt8) :
    Headed start size (setExtent (placed ++ zeros) 0 (extentBytes start size)) := by
  rw [placeAll_eq ok, List.append_assoc, List.append_assoc]
  exact Headed.of_dot first _ start size

theorem buildContent_heads {files : List FileEntry} {sizes : List Nat} {st st' : Pass}
    {d : Dir} (heads : Heads sizes st)
    (key : st.contents.length ≠ getParent dirs st.contents.length →
      strCheck joliet (baseName d.path) ≠ [0])
    (ok : buildContent stat joliet tempBufSize dirs files st st.contents.length d = .ok st') :
    ∃ size, Heads (sizes ++ [size]) st' := by
  by_cases root : getParent dirs st.contents.length = st.contents.length
  · simp only [buildContent, if_pos root, bind_ok, need_ok, pure_bind, pure_ok] at ok
    obtain ⟨own, -, above, -, entries, -, children, -, placed, hplaced, rfl⟩ := ok
    exact ⟨_, heads.snoc ((headed_placed hplaced _ _ _).setExtent_behind le_rfl _) rfl heads.headed⟩
  · simp only [buildContent, if_neg root, bind_ok, need_ok] at ok
    obtain ⟨own, -, parentRecord, stored, above, -, entries, -, children, -, placed, hplaced,
      last⟩ := ok
    obtain ⟨content, above', rfl⟩ : ∃ content,
        st.contents[getParent dirs st.contents.length]? = some content ∧
          some content = parentRecord := by
      cases at' : st.contents[getParent dirs st.contents.length]? with
      | none =>
        rw [at'] at stored
        cases stored
      | some content =>
        rw [at'] at stored
        cases stored
        exact ⟨content, rfl, rfl⟩
    obtain ⟨pos, found, last⟩ := bind_ok.mp last
    rw [need_ok] at found
    rw [pure_ok] at last
    subst last
    refine ⟨_, heads.snoc (headed_placed hplaced _ _ _) List.length_set ?_⟩
    intro i content' size at' size_eq
    by_cases here : getParent dirs st.contents.length = i
    · subst here
      rw [List.getElem?_set_self (List.getElem?_eq_some_iff.mp above').1] at at'
      cases at'
      have headed := heads.headed _ content size above' size_eq
      exact headed.setExtent_behind (headed.find_behind (key fun h => root h.symm) found) _
    · rw [List.getElem?_set_ne here] at at'
      exact heads.headed i content' size at' size_eq

theorem buildContents_heads (keys : ∀ j, j ≠ 0 → j < dirs.length → keyAt joliet dirs j ≠ [0])
    {files : List (List FileEntry)} (rest : List Dir) {sizes : List Nat} {st st' : Pass}
    (split : rest <+: dirs.drop st.contents.length) (heads : Heads sizes st)
    (ok : buildContents stat joliet tempBufSize dirs files st.contents.length rest st = .ok st') :
    ∃ more, more.length = rest.length ∧ Heads (sizes ++ more) st' := by
  induction rest generalizing sizes st with
  | nil =>
    cases ok
    exact ⟨[], rfl, by rw [List.append_nil]; exact heads⟩
  | cons d rest ih =>
    obtain ⟨mid, turn, ok⟩ := bind_ok.mp ok
    obtain ⟨beyond, split⟩ := split
    have here : dirs[st.contents.length]? = some d := by
      rw [← List.head?_drop, ← split, List.cons_append, List.head?_cons]
    have behind : rest <+: dirs.drop (st.contents.length + 1) := by
      rw [← List.drop_drop, ← split, List.cons_append, List.drop_succ_cons, List.drop_zero]
      exact List.prefix_append rest beyond
    have key : st.contents.length ≠ getParent dirs st.contents.length →
        strCheck joliet (baseName d.path) ≠ [0] := by
      intro child
      have later : st.contents.length ≠ 0 := by
        intro first
        rw [first, getParent_zero] at child
        exact child rfl
      have own := keys _ later (List.getElem?_eq_some_iff.mp here).1
      rwa [keyAt, here] at own
    obtain ⟨size, heads'⟩ := buildContent_heads heads key turn
    have next : mid.contents.length = st.contents.length + 1 := by
      rw [heads'.count, heads.count, List.length_append, List.length_singleton]
    obtain ⟨more, length, heads''⟩ := ih (by rw [next]; exact behind) heads'
      (by rw [next]; exact ok)
    refine ⟨size :: more, ?_, ?_⟩
    · rw [List.length_cons, List.length_cons, length]
    · rw [List.append_assoc] at heads''
      exact heads''

/-- After a whole pass. -/
theorem buildContents_headed (keys : ∀ j, j ≠ 0 → j < dirs.length → keyAt joliet dirs j ≠ [0])
    {files : List (List FileEntry)} {st : Pass}
    (ok : buildContents stat joliet tempBufSize dirs files 0 dirs ⟨[], 0⟩ = .ok st) :
    ∃ sizes, sizes.length = dirs.length ∧ Heads sizes st := by
  have empty : Heads [] ⟨[], 0⟩ := ⟨rfl, rfl, fun i content size at' => nomatch at'⟩
  exact buildContents_heads keys dirs (List.prefix_refl _) empty ok

end Turn

end ContentHeads
