import NtfsIsoMounter.MappingPairs

/-!
# What is built from a runlist is read as that runlist

`ntfs_mapping_pairs_build` puts pairs into an array as long as they fit, and
`ntfs_mapping_pairs_decompress` makes runs of them. Here are the bytes of the pairs of some runs,
and that both functions, and the one that measures the array beforehand, agree about them.
-/

namespace MappingPairs

open SignedBytes GekkoIo

variable (majorVer : Nat)

/-! ## The bytes of a number -/

theorem s64_self {n : Int} (lower : -2 ^ 63 ≤ n) (upper : n < 2 ^ 63) : s64 n = n :=
  Int.bmod_eq_of_le (by omega) (by omega)

theorem s64_bounds (n : Int) : -2 ^ 63 ≤ s64 n ∧ s64 n < 2 ^ 63 :=
  ⟨Int.le_bmod (by decide), Int.bmod_lt (by decide)⟩

/-- What is behind a sum that an `s64` holds. -/
theorem s64_change {l k : Int} (lower : -2 ^ 63 ≤ l) (upper : l < 2 ^ 63) :
    s64 (k + s64 (l - k)) = l := by
  have sum : k + (l - k) = l := by omega
  rw [s64, s64, Int.add_bmod_bmod, sum]
  exact s64_self lower upper

theorem encode_head (k : Nat) (n : Int) : encode k n = low n :: (encode k n).tail := by
  cases k with
  | zero => rfl
  | succ k =>
    rw [encode]
    split
    · rfl
    · rfl

theorem significantRest_eq (turns room : Nat) (n : Int) :
    significantRest turns room n =
      if (encode turns n).length ≤ room + 1 then some (encode turns n).tail else none := by
  induction turns generalizing room n with
  | zero => exact (if_pos (Nat.succ_le_succ (Nat.zero_le room))).symm
  | succ turns ih =>
    rw [significantRest, encode]
    by_cases large : n > 0x7f ∨ n < -0x80
    · have rest := (length_encode turns (n / 256)).1
      rw [if_pos large, if_neg (show ¬ (-128 ≤ n ∧ n ≤ 127) by omega), List.length_cons]
      by_cases full : room = 0
      · rw [if_pos full, if_neg (by omega)]
      · rw [if_neg full, ih]
        by_cases fits : (encode turns (n / 256)).length ≤ room
        · rw [if_pos (by omega), if_pos (by omega), List.tail_cons, Option.map_some,
            ← encode_head]
        · rw [if_neg (by omega), if_neg (by omega), Option.map_none]
    · rw [if_neg large, if_pos (show -128 ≤ n ∧ n ≤ 127 by omega)]
      exact (if_pos (Nat.succ_le_succ (Nat.zero_le room))).symm

theorem writeSignificantBytes_eq (room : Nat) (n : Int) :
    writeSignificantBytes room n =
      if (encode 7 n).length ≤ room then some (encode 7 n) else none := by
  have some' := (length_encode 7 n).1
  rw [writeSignificantBytes, significantRest_eq]
  by_cases full : room = 0
  · rw [if_pos full, if_neg (by omega)]
  · rw [if_neg full, Nat.sub_add_cancel (Nat.pos_of_ne_zero full)]
    split
    · rw [Option.map_some, ← encode_head]
    · rfl

/-- How far a number is from zero, where its first bit is not counted. -/
def size (n : Int) : Nat := (if n < 0 then -n - 1 else n).toNat

theorem size_div (n : Int) : size (n / 256) = size n / 256 := by
  unfold size
  split
  · split
    · omega
    · omega
  · split
    · omega
    · omega

theorem small_iff (n : Int) : size n < 128 ↔ -128 ≤ n ∧ n ≤ 127 := by
  unfold size
  split
  · omega
  · omega

/-- The bytes of a number are counted from its highest bits on. -/
theorem bytesAbove_encode {k : Nat} {n : Int} (fits : size n < 128 * 256 ^ k) :
    (if size n ≥ 128 then 1 + bytesAbove (k + 1) (size n / 128) else 1) =
      (encode k n).length := by
  induction k generalizing n with
  | zero => exact if_neg (by omega)
  | succ k ih =>
    have power : 256 ^ (k + 1) = 256 * 256 ^ k := pow_succ' 256 k
    have rest := ih (n := n / 256) (by rw [size_div]; omega)
    have small := small_iff n
    have order : size n / 128 / 256 = size (n / 256) / 128 := by
      rw [size_div]
      omega
    rw [encode]
    by_cases one : size n < 128
    · rw [if_neg (by omega), if_pos (small.mp one), List.length_singleton]
    · rw [if_pos (by omega), if_neg (fun few => one (small.mpr few)), List.length_cons, ← rest,
        bytesAbove, order]
      by_cases next : size (n / 256) < 128
      · rw [if_pos (by omega), if_neg (by omega)]
      · rw [if_neg (by omega), if_pos (by omega)]
        omega

theorem getNrSignificantBytes_eq {n : Int} (lower : -2 ^ 63 ≤ n) (upper : n < 2 ^ 63) :
    getNrSignificantBytes n = (encode 7 n).length := by
  have fits : size n < 128 * 256 ^ 7 := by
    unfold size
    split
    · omega
    · omega
  exact bytesAbove_encode fits

theorem signed_eq {bs : List UInt8} (few : bs.length ≤ 8) : signed bs = decode bs := by
  induction bs with
  | nil => rfl
  | cons b bs ih =>
    rw [List.length_cons] at few
    cases bs with
    | nil => rfl
    | cons c bs =>
      have bounds : _ ≤ decode (b :: c :: bs) ∧ _ :=
        decode_bounds (k := 7) (by simpa using few)
      have value := decode_cons (b := b) (List.cons_ne_nil c bs)
      have inner := ih (by omega)
      rw [value] at bounds ⊢
      rw [signed, inner]
      · exact s64_self (by omega) (by omega)
      · exact fun alone => absurd alone (List.cons_ne_nil c bs)

theorem signed_encode {n : Int} (lower : -2 ^ 63 ≤ n) (upper : n < 2 ^ 63) :
    signed (encode 7 n) = n := by
  rw [signed_eq (length_encode 7 n).2]
  exact decode_encode (by omega) (by omega)

theorem field_eq (beyond : UInt8) (front bytes back : List UInt8) :
    field beyond (front ++ bytes ++ back) front.length bytes.length = bytes := by
  refine List.ext_getElem (by simp [field]) fun i inside early => ?_
  have place : (front ++ bytes ++ back)[front.length + i]? = some bytes[i] := by
    rw [List.append_assoc, List.getElem?_append_right (Nat.le_add_right _ _),
      Nat.add_sub_cancel_left, List.getElem?_append_left early, List.getElem?_eq_getElem early]
  rw [List.append_assoc] at place
  simp [field, List.getD_eq_getElem?_getD, place]

/-! ## The bytes of some runs -/

/-- The change of place that is stored with a run. -/
def change (majorVer : Nat) (prevLcn : Int) (r : RunlistElement) : List UInt8 :=
  if r.placed majorVer then encode 7 (s64 (r.lcn - prevLcn)) else []

def pair (majorVer : Nat) (prevLcn : Int) (r : RunlistElement) : List UInt8 :=
  UInt8.ofNat ((change majorVer prevLcn r).length * 16 + (encode 7 r.length).length) ::
    (encode 7 r.length ++ change majorVer prevLcn r)

def packed (majorVer : Nat) : Int → List RunlistElement → List UInt8
  | _, [] => []
  | prevLcn, r :: rs => pair majorVer prevLcn r ++ packed majorVer (nextLcn majorVer prevLcn r) rs

/-- A run that can be stored. -/
structure RunlistElement.Whole (r : RunlistElement) : Prop where
  positive : 0 < r.length
  short : r.length < 2 ^ 63
  place : -1 ≤ r.lcn
  far : r.lcn + r.length ≤ 2 ^ 63

/-- Runs that follow each other from one cluster on up to another. -/
def Runs : Int → List RunlistElement → Int → Prop
  | start, [], stop => start = stop
  | start, r :: rs, stop => r.vcn = start ∧ r.Whole ∧ Runs (start + r.length) rs stop

theorem Runs.le {start stop : Int} {rs : List RunlistElement} (runs : Runs start rs stop) :
    start ≤ stop := by
  induction rs generalizing start with
  | nil => exact le_of_eq runs
  | cons r rs ih =>
    have positive := runs.2.1.positive
    have rest := ih runs.2.2
    omega

theorem length_change (prevLcn : Int) (r : RunlistElement) :
    (change majorVer prevLcn r).length ≤ 8 := by
  rw [change]
  split
  · exact (length_encode 7 _).2
  · exact Nat.zero_le 8

theorem length_pair (prevLcn : Int) (r : RunlistElement) :
    (pair majorVer prevLcn r).length =
      (encode 7 r.length).length + (change majorVer prevLcn r).length + 1 := by
  rw [pair, List.length_cons, List.length_append]

theorem pairSize_eq (prevLcn : Int) {r : RunlistElement} (whole : r.Whole) :
    pairSize majorVer prevLcn r = (pair majorVer prevLcn r).length := by
  have short := whole.short
  have positive := whole.positive
  have place := s64_bounds (r.lcn - prevLcn)
  rw [pairSize, length_pair, change, getNrSignificantBytes_eq (by omega) short]
  split
  · rw [getNrSignificantBytes_eq place.1 place.2]
    omega
  · rw [List.length_nil]
    omega

theorem writePair_eq (left : Nat) (prevLcn : Int) (r : RunlistElement) :
    writePair majorVer left prevLcn r =
      if (pair majorVer prevLcn r).length < left then some (pair majorVer prevLcn r) else none := by
  have size := length_pair majorVer prevLcn r
  rw [writePair, writeSignificantBytes_eq]
  by_cases room : (encode 7 r.length).length ≤ left - 1
  · rw [if_pos room, Option.bind_some]
    have placed : (if r.placed majorVer then writeSignificantBytes
        (left - 1 - (encode 7 r.length).length) (s64 (r.lcn - prevLcn)) else some []) =
        if (change majorVer prevLcn r).length ≤ left - 1 - (encode 7 r.length).length then
          some (change majorVer prevLcn r) else none := by
      rw [change]
      split
      · exact writeSignificantBytes_eq _ _
      · exact (if_pos (Nat.zero_le _)).symm
    rw [placed]
    by_cases fits : (pair majorVer prevLcn r).length < left
    · rw [if_pos (by omega), Option.bind_some, if_neg (by omega), if_pos fits, pair]
    · rw [if_neg fits]
      split
      · rw [Option.bind_some, if_pos (by omega)]
      · rfl
  · rw [if_neg room, if_neg (by omega)]
    rfl

theorem packed_append (prevLcn : Int) (rs ss : List RunlistElement) :
    packed majorVer prevLcn (rs ++ ss) =
      packed majorVer prevLcn rs ++ packed majorVer (rs.foldl (nextLcn majorVer) prevLcn) ss := by
  induction rs generalizing prevLcn with
  | nil => rfl
  | cons r rs ih =>
    rw [List.cons_append, packed, packed, ih, List.append_assoc]
    rfl

theorem Whole.good {r : RunlistElement} (whole : r.Whole) : r.length ≠ 0 ∧ ¬ r.bad := by
  have positive := whole.positive
  have place := whole.place
  exact ⟨by omega, fun bad => by
    rcases bad with negative | below
    · omega
    · rw [lcnHole] at below
      omega⟩

theorem sizeRuns_spec {maxSize : Nat} {t : RunlistElement} (ends : t.length = 0)
    {rs : List RunlistElement} (whole : ∀ r ∈ rs, r.Whole) (prevLcn : Int) (rls : Nat) :
    ∃ n, sizeRuns majorVer maxSize (rs ++ [t]) prevLcn rls = some (.ok n) ∧
      (n = rls + (packed majorVer prevLcn rs).length ∨
        maxSize < n ∧ n ≤ rls + (packed majorVer prevLcn rs).length) := by
  induction rs generalizing prevLcn rls with
  | nil => exact ⟨rls, if_pos (Or.inl ends), Or.inl rfl⟩
  | cons r rs ih =>
    have own := whole r List.mem_cons_self
    rw [List.cons_append, sizeRuns, packed, List.length_append]
    by_cases past : rls ≤ maxSize
    · rw [if_neg (by simp [past, (Whole.good own).1]), if_neg (Whole.good own).2,
        pairSize_eq _ prevLcn own]
      obtain ⟨n, size, exact'⟩ := ih (fun r' inside => whole r' (List.mem_cons_of_mem r inside))
        (nextLcn majorVer prevLcn r) (rls + (pair majorVer prevLcn r).length)
      exact ⟨n, size, by omega⟩
    · exact ⟨rls, if_pos (Or.inr past), Or.inr ⟨by omega, by omega⟩⟩

/-- As many pairs are built as fit with a byte behind them, and where to go on is told. -/
theorem buildRuns_spec {t : RunlistElement} (ends : t.length = 0) {rs : List RunlistElement}
    (whole : ∀ r ∈ rs, r.Whole) (left : Nat) (prevLcn : Int) :
    ∃ done rest, rs = done ++ rest ∧
      buildRuns majorVer (rs ++ [t]) left prevLcn =
        some (if rest = [] then .ok () else .error .enospc, packed majorVer prevLcn done ++ [0],
          some (rest ++ [t])) ∧
      (done ≠ [] → (packed majorVer prevLcn done).length < left) ∧
      ∀ r ∈ rest.head?, left ≤ (packed majorVer prevLcn (done ++ [r])).length := by
  induction rs generalizing left prevLcn with
  | nil => exact ⟨[], [], rfl, if_pos ends, fun none' => absurd rfl none', fun r inside => by
      cases inside⟩
  | cons r rs ih =>
    have own := Whole.good (whole r List.mem_cons_self)
    rw [List.cons_append, buildRuns, if_neg own.1, if_neg own.2, writePair_eq]
    by_cases fits : (pair majorVer prevLcn r).length < left
    · rw [if_pos fits]
      obtain ⟨done, rest, parts, built, room, full⟩ :=
        ih (fun r' inside => whole r' (List.mem_cons_of_mem r inside))
          (left - (pair majorVer prevLcn r).length) (nextLcn majorVer prevLcn r)
      refine ⟨r :: done, rest, by rw [parts, List.cons_append], ?_, fun _ => ?_,
        fun r' next => ?_⟩
      · dsimp only
        rw [built, Option.map_some, packed, List.append_assoc]
      · rw [packed, List.length_append]
        by_cases none' : done = []
        · rw [none', packed, List.length_nil]
          omega
        · have inner := room none'
          omega
      · have inner := full r' next
        rw [List.cons_append, packed, List.length_append]
        omega
    · rw [if_neg fits]
      refine ⟨[], r :: rs, rfl, rfl, fun none' => absurd rfl none', fun r' next => ?_⟩
      rw [← Option.some.inj next, List.nil_append, packed, packed, List.append_nil]
      omega

/-- A pair that is inside of the array, with the bytes of both numbers. -/
theorem readPairs_pair (beyond : UInt8) {h : UInt8} {len lcn back : List UInt8}
    (size : h.toNat = lcn.length * 16 + len.length) (some' : 0 < len.length)
    (few : len.length < 16) {vcn prevLcn next : Int} (positive : 0 ≤ signed len)
    (moved : (if lcn.length = 0 then prevLcn else s64 (prevLcn + signed lcn)) = next)
    (placed : lcn.length ≠ 0 → -1 ≤ next) (turns : Nat) :
    readPairs beyond (turns + 1) (h :: (len ++ lcn ++ back)) vcn prevLcn =
      (readPairs beyond turns back (s64 (vcn + signed len)) next).map fun e =>
        e.map fun p =>
          (⟨vcn, if lcn.length = 0 then lcnHole else next, signed len⟩ :: p.1, p.2) := by
  have lower : h.toNat % 16 = len.length := by omega
  have upper : h.toNat / 16 = lcn.length := by omega
  have started : h ≠ 0 := by
    rintro rfl
    rw [UInt8.toNat_zero] at size
    omega
  have total : (h :: (len ++ lcn ++ back)).length = len.length + lcn.length + back.length + 1 := by
    rw [List.length_cons, List.length_append, List.length_append]
  have first : field beyond (h :: (len ++ lcn ++ back)) 1 len.length = len := by
    rw [List.append_assoc]
    exact field_eq beyond [h] len (lcn ++ back)
  have second : field beyond (h :: (len ++ lcn ++ back)) (1 + len.length) lcn.length = lcn := by
    have place : (h :: len).length = 1 + len.length := by rw [List.length_cons, Nat.add_comm]
    rw [← place]
    exact field_eq beyond (h :: len) lcn back
  have behind : (h :: (len ++ lcn ++ back)).drop (len.length + lcn.length + 1) = back := by
    rw [List.drop_succ_cons, ← List.length_append, List.drop_left]
  rw [readPairs]
  simp only [lower, upper, total, first, second, behind, moved]
  rw [if_neg started, if_neg (by omega), if_neg (show ¬ len.length = 0 by omega),
    if_neg (by omega), if_neg (by omega), if_neg (by omega)]

/-- The pairs of some runs are read as these runs, whatever is behind the byte that ends them. -/
theorem readPairs_packed (beyond : UInt8) (junk : List UInt8) {stop : Int} (far : stop < 2 ^ 63)
    {rs : List RunlistElement} {vcn : Int} (runs : Runs vcn rs stop) (start : 0 ≤ vcn)
    (lcn : Int) {turns : Nat} (enough : rs.length < turns) :
    readPairs beyond turns (packed majorVer lcn rs ++ 0 :: junk) vcn lcn =
      some (.ok (rs, stop)) := by
  induction rs generalizing vcn lcn turns with
  | nil =>
    obtain ⟨turns, rfl⟩ := Nat.exists_eq_succ_of_ne_zero (Nat.ne_of_gt enough)
    rw [show vcn = stop from runs, packed, List.nil_append, readPairs]
    exact if_pos rfl
  | cons r rs ih =>
    obtain ⟨turns, rfl⟩ := Nat.exists_eq_succ_of_ne_zero (Nat.ne_of_gt (Nat.zero_lt_of_lt enough))
    obtain ⟨first, whole, rest⟩ := runs
    have positive := whole.positive
    have place := whole.place
    have next := rest.le
    have some' := length_encode 7 r.length
    have few := length_change majorVer lcn r
    have header : (UInt8.ofNat ((change majorVer lcn r).length * 16 +
        (encode 7 r.length).length)).toNat =
        (change majorVer lcn r).length * 16 + (encode 7 r.length).length := by
      rw [UInt8.toNat_ofNat', Nat.mod_eq_of_lt (by omega)]
    have bytes := signed_encode (n := r.length) (by omega) whole.short
    have changed := length_encode 7 (s64 (r.lcn - lcn))
    have bounds := s64_bounds (r.lcn - lcn)
    have moved : (if (change majorVer lcn r).length = 0 then lcn else
        s64 (lcn + signed (change majorVer lcn r))) = nextLcn majorVer lcn r := by
      rw [change, nextLcn]
      split
      · rw [if_neg (by omega), signed_encode bounds.1 bounds.2]
        exact s64_change (by omega) (by have far := whole.far; omega)
      · exact if_pos rfl
    have own : (if (change majorVer lcn r).length = 0 then lcnHole else
        nextLcn majorVer lcn r) = r.lcn := by
      rw [change, nextLcn]
      split
      · exact if_neg (by omega)
      · rename_i hole
        rw [RunlistElement.placed, not_or] at hole
        rw [List.length_nil, if_pos rfl, lcnHole]
        omega
    have placed (stored : (change majorVer lcn r).length ≠ 0) : -1 ≤ nextLcn majorVer lcn r := by
      rw [if_neg stored] at own
      omega
    rw [packed, pair, List.append_assoc, List.cons_append,
      readPairs_pair beyond header some'.1 (by omega) (by omega) moved placed, own, bytes,
      s64_self (by omega) (by omega), ih rest (by omega) _ (Nat.lt_of_succ_lt_succ enough), ← first]
    rfl

/-! ## The runs behind a cluster -/

/-- The runs from a cluster on. -/
def cut (v : Int) : List RunlistElement → List RunlistElement
  | [] => []
  | r :: rs =>
    if r.vcn + r.length ≤ v then cut v rs
    else if r.vcn < v then r.behind v :: rs
    else r :: rs

theorem Runs.append {start stop : Int} (rs ss : List RunlistElement)
    (runs : Runs start (rs ++ ss) stop) : ∃ mid, Runs start rs mid ∧ Runs mid ss stop := by
  induction rs generalizing start with
  | nil => exact ⟨start, rfl, runs⟩
  | cons r rs ih =>
    obtain ⟨mid, first, second⟩ := ih runs.2.2
    exact ⟨mid, ⟨runs.1, runs.2.1, first⟩, second⟩

theorem Runs.whole {start stop : Int} {rs : List RunlistElement} (runs : Runs start rs stop) :
    ∀ r ∈ rs, r.Whole := by
  induction rs generalizing start with
  | nil => exact fun r inside => by cases inside
  | cons r rs ih =>
    intro r' inside
    rcases List.mem_cons.mp inside with rfl | inside
    · exact runs.2.1
    · exact ih runs.2.2 r' inside

theorem cut_self {start stop v : Int} {rs : List RunlistElement} (runs : Runs start rs stop)
    (before : v ≤ start) : cut v rs = rs := by
  cases rs with
  | nil => rfl
  | cons r rs =>
    have positive := runs.2.1.positive
    have first := runs.1
    rw [cut, if_neg (by omega), if_neg (by omega)]

/-- Nothing of the runs before a cluster is left. -/
theorem cut_behind {start mid v : Int} {rs : List RunlistElement} (first : Runs start rs mid)
    (before : mid ≤ v) (ss : List RunlistElement) :
    cut v (rs ++ ss) = cut v ss := by
  induction rs generalizing start with
  | nil => rfl
  | cons r rs ih =>
    have next := first.2.2.le
    have start' := first.1
    rw [List.cons_append, cut, if_pos (by omega), ih first.2.2]

theorem behind_whole {r : RunlistElement} (whole : r.Whole) {v : Int} (low : r.vcn ≤ v)
    (high : v < r.vcn + r.length) : (r.behind v).Whole := by
  obtain ⟨positive, short, place, far⟩ := whole
  rw [RunlistElement.behind]
  refine ⟨?_, ?_, ?_, ?_⟩ <;> dsimp only
  · omega
  · omega
  · split <;> omega
  · split <;> omega

theorem Runs.cut {start stop v : Int} {rs : List RunlistElement} (runs : Runs start rs stop)
    (low : start ≤ v) (high : v ≤ stop) : Runs v (cut v rs) stop := by
  induction rs generalizing start with
  | nil => exact le_antisymm high ((show start = stop from runs) ▸ low)
  | cons r rs ih =>
    obtain ⟨first, whole, rest⟩ := runs
    have positive := whole.positive
    rw [MappingPairs.cut]
    by_cases past : r.vcn + r.length ≤ v
    · rw [if_pos past]
      exact ih rest (by omega)
    · rw [if_neg past]
      by_cases inside : r.vcn < v
      · have ends : v + (r.length - (v - r.vcn)) = start + r.length := by omega
        rw [if_pos inside]
        refine ⟨rfl, behind_whole whole (by omega) (by omega), ?_⟩
        show Runs (v + (r.length - (v - r.vcn))) rs stop
        rw [ends]
        exact rest
      · have same : v = start := by omega
        rw [if_neg inside]
        exact ⟨by omega, whole, same ▸ rest⟩

/-- Runs that end behind a cluster are not all before it. -/
theorem nil_of_cut {start stop v : Int} {rs : List RunlistElement} (runs : Runs start rs stop)
    (high : v < stop) (none' : cut v rs = []) : rs = [] := by
  induction rs generalizing start with
  | nil => rfl
  | cons r rs ih =>
    obtain ⟨first, -, rest⟩ := runs
    rw [cut] at none'
    by_cases past : r.vcn + r.length ≤ v
    · rw [if_pos past] at none'
      rw [ih rest none'] at rest
      exact absurd (show start + r.length = stop from rest) (by omega)
    · rw [if_neg past] at none'
      split at none' <;> exact absurd none' (List.cons_ne_nil _ _)

/-- The loop stops at the run with the cluster. -/
theorem skipTo_spec {t : RunlistElement} {rs : List RunlistElement} {start v : Int}
    (runs : Runs start rs t.vcn) (low : start ≤ v) (high : v < t.vcn) :
    ∃ front r rest, rs = front ++ r :: rest ∧ skipTo v (rs ++ [t]) = some (r :: (rest ++ [t])) ∧
      r.vcn ≤ v ∧ v < r.vcn + r.length ∧ Runs r.vcn (r :: rest) t.vcn ∧
      cut v rs = if r.vcn < v then r.behind v :: rest else r :: rest := by
  induction rs generalizing start with
  | nil => exact absurd (show start = t.vcn from runs) (by omega)
  | cons r rs ih =>
    have whole := Runs.whole runs
    obtain ⟨first, own, rest⟩ := runs
    have positive := own.positive
    -- what follows the run starts where the run ends
    have next : ∃ r' rs', rs ++ [t] = r' :: rs' ∧ r'.vcn = start + r.length := by
      cases rs with
      | nil => exact ⟨t, [], rfl, (show start + r.length = t.vcn from rest).symm⟩
      | cons r' rs => exact ⟨r', rs ++ [t], rfl, rest.1⟩
    obtain ⟨r', rs', after, place⟩ := next
    by_cases past : r.vcn + r.length ≤ v
    · obtain ⟨front, r'', rest', parts, skipped, inside⟩ := ih rest (by omega)
      refine ⟨r :: front, r'', rest', by rw [parts, List.cons_append], ?_, ?_⟩
      · rw [List.cons_append, after, skipTo, if_pos ⟨by omega, by omega⟩, ← after, skipped]
      · rw [cut, if_pos past]
        exact inside
    · refine ⟨[], r, rs, rfl, ?_, by omega, by omega, ⟨rfl, own, first ▸ rest⟩, ?_⟩
      · rw [List.cons_append, after, skipTo, if_neg (by omega)]
      · rw [cut, if_neg past]

/-- As many pairs are built as fit with a byte behind them. The list from where to go on starts with
the run that holds the cluster where nothing has been built. -/
theorem mappingPairsBuild_spec {t : RunlistElement} (ends : t.length = 0)
    {rs : List RunlistElement} {start v : Int} (runs : Runs start rs t.vcn) (first : 0 ≤ v)
    (low : start ≤ v) (high : v < t.vcn) (dstLen : Nat) :
    ∃ done front rest, rs = front ++ rest ∧ cut v rs = done ++ cut v rest ∧
      mappingPairsBuild majorVer dstLen (rs ++ [t]) v =
        some (if rest = [] then .ok () else .error .enospc, packed majorVer 0 done ++ [0],
          some (rest ++ [t])) ∧
      (done ≠ [] → (packed majorVer 0 done).length < dstLen ∧ cut v rest = rest) ∧
      ∀ r ∈ (cut v rest).head?, dstLen ≤ (packed majorVer 0 (done ++ [r])).length := by
  obtain ⟨front, r, rest, parts, skipped, before, inside, left, clipped⟩ :=
    skipTo_spec runs low high
  have own := left.2.1
  have later : v ≤ r.vcn + r.length := by omega
  have whole := left.2.2.whole
  have nonempty : rs ++ [t] ≠ [] := by simp
  rw [mappingPairsBuild, if_neg (by omega), if_neg nonempty, skipped, Option.bind_some]
  dsimp only
  rw [if_neg (show ¬ ((r.length = 0 ∧ v > r.vcn) ∨ v < r.vcn) by
    have positive := own.positive
    omega)]
  by_cases partly : v > r.vcn
  · rw [if_pos partly, if_neg (Whole.good own).2, writePair_eq]
    rw [if_pos partly] at clipped
    by_cases fits : (pair majorVer 0 (r.behind v)).length < dstLen
    · rw [if_pos fits]
      obtain ⟨done, rest', parts', built, room, full⟩ := buildRuns_spec majorVer ends whole
        (dstLen - (pair majorVer 0 (r.behind v)).length) (nextLcn majorVer 0 (r.behind v))
      obtain ⟨mid, first', second⟩ := Runs.append done rest'
        (parts' ▸ left.2.2)
      have same : cut v rest' = rest' := cut_self second (later.trans first'.le)
      refine ⟨r.behind v :: done, front ++ r :: done, rest', ?_, ?_, ?_, fun _ => ?_, ?_⟩
      · rw [parts, parts', List.append_assoc, List.cons_append]
      · rw [clipped, same, parts', List.cons_append]
      · dsimp only
        rw [built, Option.map_some, packed, List.append_assoc]
      · rw [packed, List.length_append]
        by_cases none' : done = []
        · rw [none', packed, List.length_nil]
          exact ⟨by omega, same⟩
        · have inner := room none'
          exact ⟨by omega, same⟩
      · intro r' next
        rw [same] at next
        have inner := full r' next
        rw [List.cons_append, packed, List.length_append]
        omega
    · rw [if_neg fits]
      have kept : cut v (r :: rest) = r.behind v :: rest := by
        rw [cut, if_neg (by omega), if_pos partly]
      refine ⟨[], front, r :: rest, parts, ?_, rfl, fun none' => absurd rfl none', ?_⟩
      · rw [clipped, kept, List.nil_append]
      · intro r' next
        rw [kept] at next
        rw [← Option.some.inj next, List.nil_append, packed, packed, List.append_nil]
        omega
  · rw [if_neg partly, ← List.cons_append]
    rw [if_neg partly] at clipped
    obtain ⟨done, rest', parts', built, room, full⟩ :=
      buildRuns_spec majorVer ends left.whole dstLen 0
    obtain ⟨mid, first', second⟩ := Runs.append done rest' (parts' ▸ left)
    have same : cut v rest' = rest' := cut_self second (by have further := first'.le; omega)
    refine ⟨done, front ++ done, rest', ?_, ?_, built,
      fun some' => ⟨room some', same⟩, ?_⟩
    · rw [parts, parts', List.append_assoc]
    · rw [clipped, same, parts']
    · rw [same]
      exact full

theorem getSizeForMappingPairs_spec {t : RunlistElement} (ends : t.length = 0)
    {rs : List RunlistElement} {start v : Int} (runs : Runs start rs t.vcn) (first : 0 ≤ v)
    (low : start ≤ v) (high : v < t.vcn) (maxSize : Nat) :
    ∃ n, getSizeForMappingPairs majorVer (rs ++ [t]) v maxSize = some (.ok n) ∧
      (n = 1 + (packed majorVer 0 (cut v rs)).length ∨
        maxSize < n ∧ n ≤ 1 + (packed majorVer 0 (cut v rs)).length) := by
  obtain ⟨front, r, rest, parts, skipped, before, inside, left, clipped⟩ :=
    skipTo_spec runs low high
  have own := left.2.1
  have nonempty : rs ++ [t] ≠ [] := by simp
  rw [getSizeForMappingPairs, if_neg (by omega), if_neg nonempty, skipped, Option.bind_some]
  dsimp only
  rw [if_neg (show ¬ ((r.length = 0 ∧ v > r.vcn) ∨ v < r.vcn) by
    have positive := own.positive
    omega), clipped]
  by_cases partly : v > r.vcn
  · rw [if_pos partly, if_pos partly, if_neg (Whole.good own).2,
      pairSize_eq _ 0 (behind_whole own before inside), packed, List.length_append, ← Nat.add_assoc]
    exact sizeRuns_spec majorVer ends left.2.2.whole _ _
  · rw [if_neg partly, if_neg partly, ← List.cons_append]
    exact sizeRuns_spec majorVer ends left.whole 0 1

/-- The array is as long as it has been measured, it is built where it has room for that, and it is
never built past its room. -/
theorem pairs_measured {t : RunlistElement} (ends : t.length = 0) {rs : List RunlistElement}
    {start v : Int} (runs : Runs start rs t.vcn) (first : 0 ≤ v) (low : start ≤ v)
    (high : v < t.vcn) : ∃ n,
    (∀ maxSize, ∃ k, getSizeForMappingPairs majorVer (rs ++ [t]) v maxSize = some (.ok k) ∧
      (n ≤ maxSize → k = n) ∧ (maxSize < n → maxSize < k)) ∧
    ∀ dstLen, ∃ ret bytes stop, mappingPairsBuild majorVer dstLen (rs ++ [t]) v =
        some (ret, bytes, some stop) ∧
      ret = (if n ≤ dstLen then .ok () else .error .enospc) ∧
      (n ≤ dstLen → bytes.length = n ∧ stop = [t]) ∧ (0 < dstLen → bytes.length ≤ dstLen) := by
  refine ⟨1 + (packed majorVer 0 (cut v rs)).length, fun maxSize => ?_, fun dstLen => ?_⟩
  · obtain ⟨k, size, bound⟩ :=
      getSizeForMappingPairs_spec majorVer ends runs first low high maxSize
    exact ⟨k, size, by omega, by omega⟩
  · obtain ⟨done, front, rest, parts, clipped, built, room, full⟩ :=
      mappingPairsBuild_spec majorVer ends runs first low high dstLen
    have length : (packed majorVer 0 (cut v rs)).length = _ :=
      congrArg (fun rs => (packed majorVer 0 rs).length) clipped
    have whole : rest = [] ↔ 1 + (packed majorVer 0 (cut v rs)).length ≤ dstLen := by
      obtain ⟨mid, -, left⟩ := Runs.append front rest (parts ▸ runs)
      refine ⟨fun all => ?_, fun fits => nil_of_cut left high ?_⟩
      · have some' : done ≠ [] := by
          rintro rfl
          rw [all] at clipped
          rw [nil_of_cut runs high clipped] at runs
          exact absurd (show start = t.vcn from runs) (by omega)
        rw [all, cut, List.append_nil] at length
        have inner := (room some').1
        omega
      · cases next : cut v rest with
        | nil => rfl
        | cons r after =>
          have bound := full r (by rw [next]; rfl)
          rw [next, List.append_cons, packed_append, List.length_append] at length
          omega
    refine ⟨_, _, _, built, if_congr whole rfl rfl, fun fits => ?_, fun some' => ?_⟩
    · have all := whole.mpr fits
      rw [all, cut, List.append_nil] at length
      rw [all, List.length_append, List.length_singleton, length]
      exact ⟨Nat.add_comm _ 1, rfl⟩
    · rw [List.length_append, List.length_singleton]
      by_cases none' : done = []
      · rw [none', packed, List.length_nil]
        omega
      · exact (room none').1

/-- Some clusters, a hole, and clusters in front of the first ones. -/
def threeRuns : List RunlistElement := [⟨0, 1000, 10⟩, ⟨10, lcnHole, 5⟩, ⟨15, 50, 300⟩]

def threeRunsEnd : RunlistElement := ⟨315, lcnEnoent, 0⟩

theorem threeRuns_runs : Runs 0 threeRuns 315 :=
  ⟨rfl, ⟨by decide, by decide, by decide, by decide⟩, rfl,
    ⟨by decide, by decide, by decide, by decide⟩, rfl,
    ⟨by decide, by decide, by decide, by decide⟩, rfl⟩

theorem threeRuns_measured : ∃ n,
    (∀ maxSize, ∃ k, getSizeForMappingPairs 3 (threeRuns ++ [threeRunsEnd]) 3 maxSize =
        some (.ok k) ∧ (n ≤ maxSize → k = n) ∧ (maxSize < n → maxSize < k)) ∧
    ∀ dstLen, ∃ ret bytes stop, mappingPairsBuild 3 dstLen (threeRuns ++ [threeRunsEnd]) 3 =
        some (ret, bytes, some stop) ∧
      ret = (if n ≤ dstLen then .ok () else .error .enospc) ∧
      (n ≤ dstLen → bytes.length = n ∧ stop = [threeRunsEnd]) ∧
      (0 < dstLen → bytes.length ≤ dstLen) :=
  pairs_measured 3 (t := threeRunsEnd) rfl threeRuns_runs (by decide) (by decide) (by decide)

end MappingPairs
