import NtfsIsoMounter.ContentPasses

/-!
# Path tables

A table is one entry behind another, each with the location of a directory, the
number of its parent and an identifier. `buildPathTable` copies the locations from
the contents, `fixPathTableLba` walks the entries by their identifier lengths and
moves each once.
-/

namespace PathTables

open ByteOrder CText SourceTrees DirectoryRecords ImageBuild RecordPasses ContentPasses

structure Entry where
  location : Nat
  parent : Nat
  ident : List UInt8

/-- An entry with its numbers in one of the two byte orders. -/
def Entry.bytes (msb : Bool) (e : Entry) : List UInt8 :=
  [UInt8.ofNat e.ident.length, 0] ++
    (if msb then beBytes 4 e.location else leBytes 4 e.location) ++
    (if msb then beBytes 2 e.parent else leBytes 2 e.parent) ++
    (e.ident ++ List.replicate (e.ident.length % 2) 0)

def Entry.moved (dirLba : Nat) (e : Entry) : Entry := { e with location := e.location + dirLba }

/-- The path table of some entries. -/
def tableOf (msb : Bool) (entries : List Entry) : List UInt8 := entries.flatMap (Entry.bytes msb)

theorem tableOf_cons (msb : Bool) (e : Entry) (rest : List Entry) :
    tableOf msb (e :: rest) = e.bytes msb ++ tableOf msb rest := List.flatMap_cons

@[simp] theorem Entry.bytes_length (msb : Bool) (e : Entry) :
    (e.bytes msb).length = 8 + e.ident.length + e.ident.length % 2 := by
  cases msb with
  | true => simp [Entry.bytes]; omega
  | false => simp [Entry.bytes]; omega

theorem tableOf_length (msb msb' : Bool) (entries entries' : List Entry)
    (same : entries.map Entry.ident = entries'.map Entry.ident) :
    (tableOf msb entries).length = (tableOf msb' entries').length := by
  induction entries generalizing entries' with
  | nil =>
    rw [List.map_nil, eq_comm, List.map_eq_nil_iff] at same
    rw [same]
    rfl
  | cons e rest ih =>
    cases entries' with
    | nil => cases same
    | cons e' rest' =>
      obtain ⟨head, tail⟩ := List.cons.inj same
      rw [tableOf_cons, tableOf_cons, List.length_append, List.length_append, ih rest' tail,
        Entry.bytes_length, Entry.bytes_length, head]

/-! ## Building a table -/

section Build
variable {joliet : Bool} {dirs : List Dir} {start : Nat → Nat}

/-- The entry of directory `i`. -/
def entryAt (joliet : Bool) (dirs : List Dir) (start : Nat → Nat) (i : Nat) : Entry :=
  ⟨start i, getParent dirs i + 1, ((dirs[i]?).map (tableIdent joliet i)).getD []⟩

/-- The location is copied from the first record of the content. -/
theorem tableEntry_first (msb : Bool) {dot : Record} (self : dot.ident = [0]) (more : List UInt8)
    (parent : Nat) (ident : List UInt8) :
    tableEntry msb (dot.bytes ++ more) parent ident =
      Entry.bytes msb ⟨dot.start, parent, ident⟩ := by
  have extent : getExtent (dot.bytes ++ more) 0 = extentBytes dot.start dot.length :=
    Record.getExtent_bytes (self ▸ short_dot) [] more
  rw [getExtent, Nat.zero_add] at extent
  have first : (extentBytes dot.start dot.length).take 4 = leBytes 4 dot.start := by
    rw [extentBytes, List.append_assoc, List.append_assoc, List.take_left' (leBytes_length 4 _)]
  have second : ((extentBytes dot.start dot.length).drop 4).take 4 = beBytes 4 dot.start := by
    rw [extentBytes, List.append_assoc, List.append_assoc, List.drop_left' (leBytes_length 4 _),
      List.take_left' (beBytes_length 4 _)]
  have lsb : ((dot.bytes ++ more).drop 2).take 4 = leBytes 4 dot.start := by
    rw [← first, ← extent, List.take_take]
    rfl
  have msb' : ((dot.bytes ++ more).drop 6).take 4 = beBytes 4 dot.start := by
    rw [← second, ← extent, List.drop_take, List.drop_drop, List.take_take]
    rfl
  rw [tableEntry, Entry.bytes, lsb, msb']

theorem tableFrom_eq {msb : Bool} {tempBufSize : Nat} {contents : List (List UInt8)}
    (stored : ∀ i < dirs.length, ∃ dot more, contents[i]? = some (Record.bytes dot ++ more) ∧
      dot.ident = [0] ∧ dot.start = start i) (rest : List Dir) {k : Nat}
    (split : (dirs.drop k).take rest.length = rest) {table out : List UInt8}
    (ok : tableFrom msb joliet tempBufSize dirs contents k rest table = .ok out) :
    out = table ++ tableOf msb ((List.range' k rest.length).map (entryAt joliet dirs start)) := by
  induction rest generalizing k table with
  | nil =>
    cases ok
    exact (List.append_nil _).symm
  | cons d rest ih =>
    have here : dirs[k]? = some d := by
      rw [← List.head?_drop]
      cases behind : dirs.drop k with
      | nil =>
        rw [behind] at split
        cases split
      | cons e more =>
        rw [behind, List.length_cons, List.take_succ_cons] at split
        rw [(List.cons.inj split).1]
        rfl
    have next : (dirs.drop (k + 1)).take rest.length = rest := by
      rw [← List.drop_drop]
      cases behind : dirs.drop k with
      | nil =>
        rw [behind] at split
        cases split
      | cons e more =>
        rw [behind, List.length_cons, List.take_succ_cons] at split
        rw [List.drop_succ_cons, List.drop_zero]
        exact (List.cons.inj split).2
    obtain ⟨dot, more, content, self, place⟩ := stored k (List.getElem?_eq_some_iff.mp here).1
    rw [tableFrom] at ok
    obtain ⟨record, found, ok⟩ := bind_ok.mp ok
    rw [deref_ok, content] at found
    cases found
    dsimp only at ok
    split at ok
    · cases ok
    · rw [ih next ok, tableEntry_first msb self, List.length_cons, List.range'_succ, List.map_cons,
        tableOf_cons, List.append_assoc, entryAt, here, ← place]
      rfl

theorem buildPathTable_eq {msb : Bool} {tempBufSize : Nat} {contents : List (List UInt8)}
    {out : List UInt8} (stored : ∀ i < dirs.length, ∃ dot more,
      contents[i]? = some (Record.bytes dot ++ more) ∧ dot.ident = [0] ∧ dot.start = start i)
    (ok : buildPathTable msb joliet tempBufSize dirs contents = .ok out) :
    out = tableOf msb ((List.range (min 65536 dirs.length)).map (entryAt joliet dirs start)) := by
  have split : (dirs.drop 0).take (dirs.take 65536).length = dirs.take 65536 := by
    rw [List.drop_zero, List.length_take, List.take_eq_take_iff]
    omega
  have table := tableFrom_eq stored (dirs.take 65536) split ok
  rwa [List.nil_append, List.length_take, ← List.range_eq_range'] at table

end Build

/-! ## Relocating a table -/

theorem fixTableEntry_bytes (dirLba : Nat) (msb : Bool) {e : Entry} (small : e.location < 2 ^ 32)
    (more : List UInt8) :
    fixTableEntry dirLba msb (e.bytes msb ++ more) = (e.moved dirLba).bytes msb ++ more := by
  have two : [UInt8.ofNat e.ident.length, (0 : UInt8)].length = 2 := rfl
  cases msb with
  | true =>
    have regroup : e.bytes true ++ more = [UInt8.ofNat e.ident.length, 0] ++
        (beBytes 4 e.location ++
          (beBytes 2 e.parent ++ (e.ident ++ List.replicate (e.ident.length % 2) 0) ++ more)) := by
      simp only [Entry.bytes, if_true, List.append_assoc]
    have six : ([UInt8.ofNat e.ident.length, 0] ++ beBytes 4 e.location).length = 6 := by simp
    rw [regroup, fixTableEntry, List.take_left' two, List.drop_left' two,
      List.take_left' (beBytes_length 4 _), ← List.append_assoc _ (beBytes 4 e.location),
      List.drop_left' six, if_pos rfl, beValue_beBytes_exact (by omega)]
    simp only [Entry.bytes, Entry.moved, if_true, List.append_assoc]
  | false =>
    have regroup : e.bytes false ++ more = [UInt8.ofNat e.ident.length, 0] ++
        (leBytes 4 e.location ++
          (leBytes 2 e.parent ++ (e.ident ++ List.replicate (e.ident.length % 2) 0) ++ more)) := by
      simp only [Entry.bytes, Bool.false_eq_true, if_false, List.append_assoc]
    have six : ([UInt8.ofNat e.ident.length, 0] ++ leBytes 4 e.location).length = 6 := by simp
    rw [regroup, fixTableEntry, List.take_left' two, List.drop_left' two,
      List.take_left' (leBytes_length 4 _), ← List.append_assoc _ (leBytes 4 e.location),
      List.drop_left' six, if_neg Bool.false_ne_true, leValue_leBytes_exact (by omega)]
    simp only [Entry.bytes, Entry.moved, Bool.false_eq_true, if_false, List.append_assoc]

theorem fixTableFrom_tableOf {dirLba : Nat} {msb : Bool} (entries : List Entry) (fuel : Nat)
    (enough : entries.length ≤ fuel) (small : ∀ e ∈ entries, e.location < 2 ^ 32)
    (short : ∀ e ∈ entries, e.ident.length < 256) :
    fixTableFrom dirLba msb fuel (tableOf msb entries) =
      tableOf msb (entries.map (Entry.moved dirLba)) := by
  induction entries generalizing fuel with
  | nil =>
    cases fuel with
    | zero => rfl
    | succ fuel => rfl
  | cons e rest ih =>
    cases fuel with
    | zero => simp at enough
    | succ fuel =>
      have fixed := fixTableEntry_bytes dirLba msb (small e List.mem_cons_self) (tableOf msb rest)
      have lenDi : (UInt8.ofNat e.ident.length).toNat = e.ident.length := by
        rw [UInt8.toNat_ofNat']
        exact Nat.mod_eq_of_lt (short e List.mem_cons_self)
      have head : ∃ more, e.bytes msb ++ tableOf msb rest = UInt8.ofNat e.ident.length :: more :=
        ⟨_, rfl⟩
      obtain ⟨more, bytes⟩ := head
      have length : ((e.moved dirLba).bytes msb).length =
          8 + e.ident.length + e.ident.length % 2 := Entry.bytes_length _ _
      rw [tableOf_cons, bytes, fixTableFrom, ← bytes, fixed, lenDi, List.take_left' length,
        List.drop_left' length, ih fuel (by simpa using enough)
          (fun f hf => small f (List.mem_cons_of_mem e hf))
          fun f hf => short f (List.mem_cons_of_mem e hf), List.map_cons, tableOf_cons]

theorem length_le_tableOf (msb : Bool) (entries : List Entry) :
    entries.length ≤ (tableOf msb entries).length := by
  induction entries with
  | nil => exact Nat.le_refl 0
  | cons e rest ih =>
    rw [tableOf_cons, List.length_append, List.length_cons, Entry.bytes_length]
    omega

theorem fixPathTableLba_tableOf {dirLba : Nat} {msb : Bool} (entries : List Entry)
    (small : ∀ e ∈ entries, e.location < 2 ^ 32) (short : ∀ e ∈ entries, e.ident.length < 256) :
    fixPathTableLba (tableOf msb entries) dirLba msb =
      tableOf msb (entries.map (Entry.moved dirLba)) :=
  fixTableFrom_tableOf entries _ (length_le_tableOf msb entries) small short

end PathTables
