import NtfsIsoMounter.CText

/-!
# The fields of a PARAM.SFO

`parse_param_sfo` reads the file into a buffer with sixteen zeros behind it and walks through
three tables at once: the keys, the index entries, one for each key, and the values, whose
places are the sums of the lengths in the entries. Only the cursor of the keys is compared
with the size of the file.
-/

namespace ParamSfo

open CText

/-! ## Reading the buffer -/

/-- The value of a field, as `strncpy` copies it; the two errors; a read behind the buffer. -/
inductive Parsed where
  | title (text : List UInt8)
  | missing
  | noMemory
  | outside
deriving DecidableEq

/-- The string a pointer stands at, as `strcmp` and the loop that skips it read it; none where
the buffer ends before its terminator. -/
def readString : List UInt8 → Option (List UInt8)
  | [] => none
  | b :: p => if b = 0 then some [] else (readString p).map (b :: ·)

/-- `strncpy` of `n` bytes from place `pos` of the buffer. -/
def copyTitle (mem : List UInt8) : Nat → Nat → Option (List UInt8)
  | 0, _ => some []
  | n + 1, pos => do
    let b ← mem[pos]?
    if b = 0 then some (List.replicate (n + 1) 0) else (copyTitle mem n (pos + 1)).map (b :: ·)

/-- A 16-bit number with its low byte first. -/
def short (mem : List UInt8) (i : Nat) : Nat :=
  (mem.getD i 0).toNat + (mem.getD (i + 1) 0).toNat * 256

/-- The place of the length in an index entry; `indx` is an `int`. -/
def entryInside (mem : List UInt8) (indx : Nat) : Prop :=
  0x1d + indx < mem.length ∧ 0x1d + indx < 2 ^ 31

instance (mem : List UInt8) (indx : Nat) : Decidable (entryInside mem indx) :=
  inferInstanceAs (Decidable (_ ∧ _))

/-- The loop over the keys. -/
def parseKeys (mem : List UInt8) (len : Nat) (field : List UInt8) (str pos indx : Nat) : Parsed :=
  if str < len then
    match readString (mem.drop str) with
    | none => .outside
    | some [] => .missing
    | some (b :: key) =>
      if b :: key = field then
        match copyTitle mem 63 pos with
        | none => .outside
        | some text => .title text
      else if entryInside mem indx then
        parseKeys mem len field (str + (b :: key).length + 1)
          ((pos + short mem (0x1c + indx)) % 2 ^ 32) (indx + 16)
      else .outside
  else .missing
termination_by len - str
decreasing_by
  rw [List.length_cons]
  omega

/-- The buffer: what is read of the file and zeros. -/
def buffer (content : List UInt8) : List UInt8 := content ++ List.replicate 16 0

/-- `len` is the size in 32 bits. For the sizes closest to 2^32 the block that is allocated is
smaller than what is read into it. -/
def parseParamSfo (malloc : Nat → Bool) (file : Option (List UInt8)) (field : List UInt8) :
    Parsed :=
  match file with
  | none => .missing
  | some content =>
    let len := content.length % 2 ^ 32
    if !malloc ((len + 16) % 2 ^ 32) then .noMemory
    else if 2 ^ 32 ≤ len + 16 then .outside
    else
      let mem := buffer (content.take len)
      parseKeys mem len field (short mem 8) (short mem 0xc) 0

/-! ## The tables -/

/-- The names in the key table, up to an empty one or to the end of the file. -/
def keyTable (content : List UInt8) (str : Nat) : List (List UInt8) :=
  ((content.drop str).splitOn 0).takeWhile (· ≠ [])

/-- Where the value of key `n` stands, counted from the one at `pos` with entry `indx`. -/
def valueAt (mem : List UInt8) (pos indx : Nat) : Nat → Nat
  | 0 => pos
  | n + 1 => valueAt mem ((pos + short mem (0x1c + indx)) % 2 ^ 32) (indx + 16) n

/-- The entries of the keys in front of the field lie in the buffer, and if the field is
there the value begins in it. -/
def TablesInside (mem field : List UInt8) (keys : List (List UInt8)) (pos indx : Nat) : Prop :=
  (∀ i < (keys.takeWhile (· ≠ field)).length, entryInside mem (indx + 16 * i)) ∧
    (field ∈ keys → valueAt mem pos indx (keys.takeWhile (· ≠ field)).length < mem.length)

theorem readString_terminated {key : List UInt8} (plain : 0 ∉ key) (rest : List UInt8) :
    readString (key ++ 0 :: rest) = some key := by
  induction key with
  | nil => rfl
  | cons b key ih =>
    rw [List.mem_cons, not_or] at plain
    rw [List.cons_append, readString, if_neg fun zero => plain.1 zero.symm, ih plain.2]
    rfl

/-- The copy of a value that begins in the buffer ends in it, at a zero behind the file at
the latest. -/
theorem copyTitle_isSome (content : List UInt8) (n pos : Nat) (some' : n ≠ 0) :
    (copyTitle (buffer content) n pos).isSome ↔ pos < (buffer content).length := by
  induction n generalizing pos with
  | zero => exact absurd rfl some'
  | succ n ih =>
    by_cases inside : pos < (buffer content).length
    · refine iff_of_true ?_ inside
      rw [copyTitle, List.getElem?_eq_getElem inside, Option.bind_eq_bind, Option.bind_some]
      by_cases zero : (buffer content)[pos] = 0
      · rw [if_pos zero]
        rfl
      · rw [if_neg zero, Option.isSome_map]
        -- a byte that is not zero is one of the file
        have early : pos < content.length := by
          by_contra late
          apply zero
          simp only [buffer]
          rw [List.getElem_append_right (by omega), List.getElem_replicate]
        have next : pos + 1 < (buffer content).length := by
          rw [buffer, List.length_append, List.length_replicate]
          omega
        cases n with
        | zero => rfl
        | succ n => exact (ih (pos + 1) (Nat.succ_ne_zero n)).mpr next
    · refine iff_of_false ?_ inside
      rw [copyTitle, List.getElem?_eq_none (by omega), Option.bind_eq_bind, Option.bind_none]
      exact Bool.false_ne_true

theorem keyTable_none {content : List UInt8} {str : Nat} (beyond : content.length ≤ str) :
    keyTable content str = [] := by
  rw [keyTable, List.drop_eq_nil_of_le beyond]
  rfl

/-- The key at `str` and the table behind it. -/
theorem keyTable_some {content : List UInt8} {str : Nat} (inside : str < content.length) :
    ∃ key, readString ((buffer content).drop str) = some key ∧
      ((key = [] ∧ keyTable content str = []) ∨
        (key ≠ [] ∧ keyTable content str = key :: keyTable content (str + key.length + 1))) := by
  have behind : (buffer content).drop str = content.drop str ++ List.replicate 16 0 := by
    rw [buffer, List.drop_append_of_le_length inside.le]
  by_cases ended : 0 ∈ content.drop str
  · obtain ⟨key, rest, split, plain⟩ := List.eq_append_cons_of_mem ended
    have next : content.drop (str + key.length + 1) = rest := by
      have right : (key ++ 0 :: rest).drop (key.length + 1) = rest := by
        rw [← List.drop_drop, List.drop_left]
        rfl
      rw [Nat.add_assoc, ← List.drop_drop, split, right]
    have table : keyTable content str = (key :: rest.splitOn 0).takeWhile (· ≠ []) := by
      rw [keyTable, split, List.splitOn_append_cons_self, List.splitOn_eq_singleton plain]
      rfl
    refine ⟨key, ?_, ?_⟩
    · rw [behind, split, List.append_assoc, List.cons_append]
      exact readString_terminated plain _
    · by_cases empty : key = []
      · left
        refine ⟨empty, ?_⟩
        rw [table, List.takeWhile_cons_of_neg (by simp [empty])]
      · right
        refine ⟨empty, ?_⟩
        rw [table, List.takeWhile_cons_of_pos (by simp [empty]), keyTable, next]
  · have whole : content.drop str ≠ [] := by
      rw [ne_eq, List.drop_eq_nil_iff]
      omega
    refine ⟨content.drop str, ?_, Or.inr ⟨whole, ?_⟩⟩
    · rw [behind]
      exact readString_terminated ended _
    · have none' : keyTable content (str + (content.drop str).length + 1) = [] :=
        keyTable_none (by rw [List.length_drop]; omega)
      rw [none', keyTable, List.splitOn_eq_singleton ended,
        List.takeWhile_cons_of_pos (by simp [whole])]
      rfl

/-- The walk stays inside the buffer exactly if the tables do. -/
theorem parseKeys_inside (content field : List UInt8) (str pos indx : Nat) :
    parseKeys (buffer content) content.length field str pos indx ≠ .outside ↔
      TablesInside (buffer content) field (keyTable content str) pos indx := by
  induction size : content.length - str using Nat.strong_induction_on generalizing str pos indx with
  | _ left ih =>
    rw [parseKeys]
    by_cases inside : str < content.length
    · rw [if_pos inside]
      obtain ⟨key, read, ⟨rfl, table⟩ | ⟨some', table⟩⟩ := keyTable_some inside
      · rw [read, table]
        refine iff_of_true nofun ⟨?_, fun none' => absurd none' List.not_mem_nil⟩
        intro i low
        exact absurd low (Nat.not_lt_zero i)
      · obtain ⟨b, key, rfl⟩ := List.exists_cons_of_ne_nil some'
        obtain ⟨next, hnext⟩ : ∃ next, next = str + (b :: key).length + 1 := ⟨_, rfl⟩
        have shorter : content.length - next < left := by
          rw [hnext, List.length_cons]
          omega
        simp only [read, table, ← hnext]
        by_cases found : b :: key = field
        · rw [if_pos found, TablesInside, List.takeWhile_cons_of_neg (by simp [found])]
          have copied := copyTitle_isSome content 63 pos (by decide)
          cases copy : copyTitle (buffer content) 63 pos with
          | none =>
            rw [copy] at copied
            refine iff_of_false (fun other => other rfl) ?_
            rintro ⟨-, value⟩
            exact Bool.false_ne_true
              (copied.mpr (value (found ▸ List.mem_cons_self)))
          | some text =>
            rw [copy] at copied
            refine iff_of_true nofun ⟨fun i low => absurd low (Nat.not_lt_zero i), fun _ => ?_⟩
            exact copied.mp rfl
        · have front : ((b :: key) :: keyTable content next).takeWhile (· ≠ field) =
              (b :: key) :: (keyTable content next).takeWhile (· ≠ field) :=
            List.takeWhile_cons_of_pos (by simp [found])
          have later : field ∈ (b :: key) :: keyTable content next ↔
              field ∈ keyTable content next := by
            rw [List.mem_cons, or_iff_right fun same => found same.symm]
          rw [if_neg found, TablesInside, front, later, List.length_cons]
          by_cases entry : entryInside (buffer content) indx
          · rw [if_pos entry, ih _ shorter _ _ _ rfl, TablesInside]
            refine and_congr ?_ Iff.rfl
            constructor
            · intro each i low
              cases i with
              | zero => exact entry
              | succ i =>
                have shift : indx + 16 * (i + 1) = indx + 16 + 16 * i := by omega
                rw [shift]
                exact each i (by omega)
            · intro each i low
              have shift : indx + 16 + 16 * i = indx + 16 * (i + 1) := by omega
              rw [shift]
              exact each (i + 1) (by omega)
          · rw [if_neg entry]
            refine iff_of_false (fun other => other rfl) ?_
            rintro ⟨each, -⟩
            exact entry (each 0 (Nat.succ_pos _))
    · rw [if_neg inside, keyTable_none (by omega)]
      refine iff_of_true nofun ⟨?_, fun none' => absurd none' List.not_mem_nil⟩
      intro i low
      exact absurd low (Nat.not_lt_zero i)

/-- The tables of a file lie in the buffer that is made for it. -/
def FileInside (content field : List UInt8) : Prop :=
  content.length % 2 ^ 32 + 16 < 2 ^ 32 ∧
    TablesInside (buffer (content.take (content.length % 2 ^ 32))) field
      (keyTable (content.take (content.length % 2 ^ 32))
        (short (buffer (content.take (content.length % 2 ^ 32))) 8))
      (short (buffer (content.take (content.length % 2 ^ 32))) 0xc) 0

/-- Reading a field ends, and no place behind the buffer is read, exactly if the tables lie in
it or no memory is given for it. -/
theorem parseParamSfo_inside_iff (malloc : Nat → Bool) (content field : List UInt8) :
    parseParamSfo malloc (some content) field ≠ .outside ↔
      (malloc ((content.length % 2 ^ 32 + 16) % 2 ^ 32) = true → FileInside content field) := by
  rw [parseParamSfo]
  obtain ⟨len, hlen⟩ : ∃ len, len = content.length % 2 ^ 32 := ⟨_, rfl⟩
  simp only [FileInside, ← hlen]
  cases given : malloc ((len + 16) % 2 ^ 32) with
  | false => exact iff_of_true nofun nofun
  | true =>
    simp only [Bool.not_true, Bool.false_eq_true, if_false, forall_const]
    by_cases wide : 2 ^ 32 ≤ len + 16
    · rw [if_pos wide]
      exact iff_of_false (fun other => other rfl) fun fits => by omega
    · have length : (content.take len).length = len := by
        rw [List.length_take]
        exact Nat.min_eq_left (hlen ▸ Nat.mod_le _ _)
      rw [if_neg wide, and_iff_right (by omega)]
      have walk := parseKeys_inside (content.take len) field (short (buffer (content.take len)) 8)
        (short (buffer (content.take len)) 0xc) 0
      rwa [length] at walk

/-- Twenty bytes: the key table stands at 18, the values are said to be at 0xFFFF. -/
def farValue : List UInt8 :=
  [0, 80, 83, 70, 1, 1, 0, 0, 18, 0, 0, 0, 0xFF, 0xFF, 0, 0, 1, 0, 65, 0]

theorem farValue_outside : parseParamSfo (fun _ => true) (some farValue) [65] = .outside := by
  have read : readString ((buffer farValue).drop 18) = some [65] := by decide
  have copy : copyTitle (buffer farValue) 63 0xFFFF = none := by
    rw [copyTitle, List.getElem?_eq_none (by decide)]
    rfl
  have walk : parseKeys (buffer farValue) 20 [65] 18 0xFFFF 0 = .outside := by
    rw [parseKeys]
    simp only [read, copy]
    rfl
  exact walk

end ParamSfo
