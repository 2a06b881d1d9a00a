import NtfsIsoMounter.CommandThread

/-!
# 2048-byte blocks of a raw disc

The buffer of a block read has room for some raw sectors. They are read in one
piece and moved together in place, the blocks that are still missing are read
one at a time behind them. Every byte is moved towards the start of the buffer,
so that the bytes not moved yet are still raw.
-/

namespace BlockReads

open ByteMaps SectionTables IsoReads CommandThread

/-- Byte `k` of the blocks from a sector on, each the data of its raw sector. -/
def blockByte (d : Storage) (tab : List Section) (startSector k : Nat) : UInt8 :=
  image d tab ((startSector + k / 2048) * 2352 + 24 + k % 2048)

/-! ## Moving the blocks together -/

/-- Destination and source of every copy of the compaction. -/
def copies : Nat → Nat → Nat → List (Nat × Nat)
  | 0, _, _ => []
  | fit + 1, src, out => (out, src + 24) :: copies fit (src + 2352) (out + 2048)

theorem compact_eq_copies (fit : Nat) (io : Io) (src out : Nat) :
    compact fit io src out =
      (copies fit src out).foldl (fun io c => myMemcpy io c.1 c.2 2048) io := by
  induction fit generalizing io src out with
  | zero => rfl
  | succ fit ih => rw [compact, ih, copies, List.foldl_cons]

/-- No copy reads behind the raw sectors. -/
theorem copies_source {fit src out : Nat} :
    ∀ c ∈ copies fit src out, src ≤ c.2 ∧ c.2 + 2048 ≤ src + fit * 2352 := by
  induction fit generalizing src out with
  | zero => rintro c ⟨⟩
  | succ fit ih =>
    intro c hc
    rcases List.mem_cons.mp hc with rfl | later
    · constructor
      · exact Nat.le_add_right src 24
      · omega
    · have := ih c later
      omega

/-- The bytes still to be copied are not stored to. -/
theorem myMemcpy_mem (io : Io) {dst src : Nat} (back : dst ≤ src) (n : Nat) :
    (myMemcpy io dst src n).mem = fill io.mem dst n (fun k => io.mem (src + k)) := by
  induction n with
  | zero => exact (fill_zero _ _ _).symm
  | succ n ih =>
    have raw : (myMemcpy io dst src n).mem (src + n) = io.mem (src + n) := by
      rw [ih, fill_outside _ _ (by omega)]
    calc (myMemcpy io dst src (n + 1)).mem
        = fill (myMemcpy io dst src n).mem (dst + n) 1
            (fun _ => (myMemcpy io dst src n).mem (src + n)) := rfl
      _ = fill (fill io.mem dst n (fun k => io.mem (src + k))) (dst + n) 1
            (fun k => io.mem (src + (n + k))) := by
          rw [raw, ih]
          apply fill_congr
          intro k hk
          rw [Nat.lt_one_iff.mp hk, Nat.add_zero]
      _ = _ := fill_append _ _ _ _ _

theorem myMemcpy_stores (io : Io) (dst src n : Nat) :
    StoresIn io (myMemcpy io dst src n) dst n := by
  induction n with
  | zero => exact StoresIn.refl io dst 0
  | succ n ih => exact ih.trans (storesIn_store _ (dst + n) 1 _)

/-- Block `i` ends up behind block `i - 1`, taken from the raw sector it had before. -/
theorem compact_mem (fit : Nat) (io : Io) {src out : Nat} (back : out ≤ src) :
    (compact fit io src out).mem =
      fill io.mem out (fit * 2048) (fun k => io.mem (src + k / 2048 * 2352 + 24 + k % 2048)) := by
  induction fit generalizing io src out with
  | zero => rw [Nat.zero_mul, fill_zero, compact]
  | succ fit ih =>
    have first := myMemcpy_mem io (show out ≤ src + 24 by omega) 2048
    have raw : ∀ a, src + 2352 ≤ a → (myMemcpy io out (src + 24) 2048).mem a = io.mem a := by
      intro a ha
      rw [first, fill_outside _ _ (by omega)]
    rw [compact, ih _ (by omega), Nat.succ_mul, Nat.add_comm (fit * 2048), ← fill_append, first]
    have head : fill io.mem out 2048 (fun k => io.mem (src + 24 + k)) =
        fill io.mem out 2048 (fun k => io.mem (src + k / 2048 * 2352 + 24 + k % 2048)) := by
      apply fill_congr
      intro k hk
      rw [Nat.div_eq_of_lt hk, Nat.mod_eq_of_lt hk, Nat.zero_mul, Nat.add_zero]
    rw [head]
    apply fill_congr
    intro k _
    rw [← head, ← first, raw _ (by omega)]
    congr 1
    omega

theorem compact_stores (fit : Nat) (io : Io) (src out : Nat) :
    StoresIn io (compact fit io src out) out (fit * 2048) := by
  induction fit generalizing io src out with
  | zero => exact (StoresIn.refl io out 0).within le_rfl (by omega)
  | succ fit ih =>
    have both := (myMemcpy_stores io out (src + 24) 2048).trans
      (ih (myMemcpy io out (src + 24) 2048) (src + 2352) (out + 2048))
    exact both.within le_rfl (by omega)

/-! ## Requests one after another -/

/-- The `n` bytes at `buf` were asked for: unless a call failed they are those of
`g`, and nothing else was stored to. -/
structure Asked (g : Nat → UInt8) (buf n : Nat) (io io' : Io) : Prop where
  stores : StoresIn io io' buf n
  mem : AllOk io io' → io'.mem = fill io.mem buf n g
  logged : Logged io io'

/-- Calls that all succeeded did so in each of two parts. -/
theorem allOk_parts {io io' io'' : Io} (first : Logged io io') (second : Logged io' io'')
    (all : AllOk io io'') : AllOk io io' ∧ AllOk io' io'' := by
  obtain ⟨new, hnew⟩ := first
  obtain ⟨more, hmore⟩ := second
  obtain ⟨both, hboth, ok⟩ := all
  have same : both = new ++ more := by
    refine List.append_cancel_left (?_ : io.calls ++ both = io.calls ++ (new ++ more))
    rw [← hboth, hmore, hnew, List.append_assoc]
  constructor
  · exact ⟨new, hnew, fun c hc => ok c (same ▸ List.mem_append_left more hc)⟩
  · exact ⟨more, hmore, fun c hc => ok c (same ▸ List.mem_append_right new hc)⟩

theorem Asked.trans {g : Nat → UInt8} {buf n k : Nat} {io io' io'' : Io}
    (first : Asked g buf n io io')
    (second : Asked (fun i => g (n + i)) (buf + n) k io' io'') : Asked g buf (n + k) io io'' := by
  refine ⟨first.stores.trans second.stores, ?_, first.logged.trans second.logged⟩
  intro all
  obtain ⟨before, behind⟩ := allOk_parts first.logged second.logged all
  rw [second.mem behind, first.mem before, fill_append]

/-- The blocks behind the first `n` start `n` sectors on. -/
theorem Asked.shift {d : Storage} {tab : List Section} {startSector buf k : Nat} {io io' : Io}
    (n : Nat) (asked : Asked (blockByte d tab (startSector + n)) buf k io io') :
    Asked (fun i => blockByte d tab startSector (n * 2048 + i)) buf k io io' := by
  refine ⟨asked.stores, fun all => ?_, asked.logged⟩
  rw [asked.mem all]
  apply fill_congr
  intro i _
  have sector : startSector + (n * 2048 + i) / 2048 = startSector + n + i / 2048 := by omega
  have inside : (n * 2048 + i) % 2048 = i % 2048 := by omega
  rw [blockByte, blockByte, sector, inside]

theorem not_allOk_of_failed {io io' : Io} (failed : SomeFailed io io') : ¬ AllOk io io' := by
  rintro ⟨new, hnew, good⟩
  obtain ⟨more, hmore, c, hc, bad⟩ := failed
  have same : more = new := List.append_cancel_left (hmore.symm.trans hnew)
  rw [good c (same ▸ hc)] at bad
  cases bad

section Reads
variable (d : Storage) {tab : List Section} (fit : ∀ s ∈ tab, s.IsHole ∨ s.Fits)
include fit

/-- A request below byte 2^32 asks for consecutive bytes of the image. -/
theorem processReadIsoCmd_asked (io : Io) (buf offset size : Nat)
    (ends : offset + size < 2 ^ 32) :
    ∃ r, processReadIsoCmd d tab io buf offset size = some r ∧
      Asked (fun k => image d tab (offset + k)) buf size io r.2 := by
  obtain ⟨ret, io', run, result⟩ := processReadIsoCmd_spec d fit io buf
    offset size (Or.inr (by omega)) (by omega) (by omega)
  refine ⟨(ret, io'), run, ?_⟩
  rcases result with ⟨-, adv⟩ | ⟨-, abort⟩
  · obtain ⟨new, hnew, -⟩ := adv.calls
    exact ⟨adv.stores, fun _ => adv.mem, new, hnew⟩
  · obtain ⟨new, hnew, -, failed⟩ := abort.calls
    exact ⟨abort.stores, fun all => absurd all (not_allOk_of_failed ⟨new, hnew, failed⟩),
      new, hnew⟩

/-- The blocks read one at a time follow each other. -/
theorem readBlocks_asked (rem : Nat) (io : Io) (out startSector : Nat)
    (ends : (startSector + rem) * 2352 < 2 ^ 32) :
    ∃ io', readBlocks d tab rem io out startSector = some io' ∧
      Asked (blockByte d tab startSector) out (rem * 2048) io io' := by
  induction rem generalizing io out startSector with
  | zero =>
    refine ⟨io, rfl, (StoresIn.refl io out 0).within le_rfl (by omega), ?_, [], by simp⟩
    intro _
    rw [Nat.zero_mul, fill_zero]
  | succ rem ih =>
    have start : u32 (u32 (startSector * 2352) + 24) = startSector * 2352 + 24 := by
      rw [u32_exact (n := startSector * 2352) (by lia), u32_exact (by lia)]
    have next : u32 (startSector + 1) = startSector + 1 := u32_exact (by omega)
    obtain ⟨r, run, asked⟩ := processReadIsoCmd_asked d fit io out
      (startSector * 2352 + 24) 2048 (by omega)
    obtain ⟨io', rest, asked'⟩ := ih r.2 (out + 2048) (startSector + 1) (by lia)
    refine ⟨io', ?_, ?_⟩
    · rw [readBlocks, start, run, Option.bind_some, next, rest]
    · have first : Asked (blockByte d tab startSector) out 2048 io r.2 := by
        refine ⟨asked.stores, fun all => ?_, asked.logged⟩
        rw [asked.mem all]
        apply fill_congr
        intro k hk
        rw [blockByte, Nat.div_eq_of_lt hk, Nat.mod_eq_of_lt hk, Nat.add_zero startSector]
      have later : Asked (fun i => blockByte d tab startSector (2048 + i)) (out + 2048)
          (rem * 2048) r.2 io' := asked'.shift 1
      have sum : (rem + 1) * 2048 = 2048 + rem * 2048 := by omega
      rw [sum]
      exact first.trans later

/-- The raw sectors that fit are read and moved together; their rest behind the
blocks stays inside the buffer. -/
theorem bulk_asked (io : Io) (buf startSector count : Nat)
    (ends : (startSector + count) * 2352 < 2 ^ 32) :
    ∃ r, processReadIsoCmd d tab io buf (u32 (startSector * 2352)) (u32 (count * 2352)) = some r ∧
      StoresIn io (compact count r.2 buf buf) buf (count * 2352) ∧
      Logged io (compact count r.2 buf buf) ∧
      (AllOk io (compact count r.2 buf buf) →
        (compact count r.2 buf buf).mem =
          fill (fill io.mem buf (count * 2352) (fun k => image d tab (startSector * 2352 + k)))
            buf (count * 2048) (blockByte d tab startSector)) := by
  rw [u32_exact (n := startSector * 2352) (by lia), u32_exact (n := count * 2352) (by lia)]
  obtain ⟨r, run, asked⟩ := processReadIsoCmd_asked d fit io buf
    (startSector * 2352) (count * 2352) (by lia)
  have same : (compact count r.2 buf buf).calls = r.2.calls := compact_calls count r.2 buf buf
  refine ⟨r, run, ?_, ?_, ?_⟩
  · exact asked.stores.append ((compact_stores count r.2 buf buf).within le_rfl (by omega))
  · obtain ⟨new, hnew⟩ := asked.logged
    exact ⟨new, same.trans hnew⟩
  · rintro ⟨new, hnew, good⟩
    have raw := asked.mem ⟨new, same.symm.trans hnew, good⟩
    rw [compact_mem count r.2 le_rfl, raw]
    apply fill_congr
    intro k hk
    have inside : k / 2048 * 2352 + (24 + k % 2048) < count * 2352 := by lia
    have split : startSector * 2352 + (k / 2048 * 2352 + (24 + k % 2048)) =
        (startSector + k / 2048) * 2352 + 24 + k % 2048 := by ring
    rw [Nat.add_assoc, Nat.add_assoc, fill_inside _ _ inside, split, blockByte]

end Reads

/-! ## The block read -/

/-- The command returns 0. If every storage read succeeds, the buffer holds the
blocks and no other byte of memory is changed; whether or not they do, every
store and every byte copied lies in the buffer. -/
def ServesBlocks (d : Storage) (tab : List Section) (io : Io) (buf startSector sectorCount : Nat) :
    Prop :=
  ∃ io', processReadCd2048Cmd d tab io buf startSector sectorCount = some (0, io') ∧
    Logged io io' ∧
    (AllOk io io' →
      io'.mem = fill io.mem buf (sectorCount * 2048) (blockByte d tab startSector)) ∧
    StoresIn io io' buf (sectorCount * 2048) ∧
    ∀ c ∈ copies (sectorCount * 2048 / 2352) buf buf,
      buf ≤ c.2 ∧ c.2 + 2048 ≤ buf + sectorCount * 2048

theorem processReadCd2048Cmd_servesBlocks (d : Storage) {tab : List Section}
    (fits : ∀ s ∈ tab, s.IsHole ∨ s.Fits) (io : Io) (buf : Nat) {startSector sectorCount : Nat}
    (room : sectorCount * 2048 < 2 ^ 32) (ends : (startSector + sectorCount) * 2352 < 2 ^ 32) :
    ServesBlocks d tab io buf startSector sectorCount := by
  obtain ⟨fit, hfit⟩ : ∃ fit, fit = sectorCount * 2048 / 2352 := ⟨_, rfl⟩
  have le : fit ≤ sectorCount := by omega
  have inside : fit * 2352 ≤ sectorCount * 2048 := by omega
  have hrem : u32 (sectorCount + 2 ^ 32 - fit) = sectorCount - fit := by
    unfold u32
    omega
  have hstart : u32 (startSector + fit) = startSector + fit := u32_exact (by omega)
  have hroom : u32 (sectorCount * 2048) = sectorCount * 2048 := u32_exact room
  have sum : sectorCount * 2048 = fit * 2048 + (sectorCount - fit) * 2048 := by omega
  have loads : ∀ c ∈ copies (sectorCount * 2048 / 2352) buf buf,
      buf ≤ c.2 ∧ c.2 + 2048 ≤ buf + sectorCount * 2048 := by
    intro c hc
    rw [← hfit] at hc
    have := copies_source c hc
    lia
  have cmd : processReadCd2048Cmd d tab io buf startSector sectorCount =
      ((if fit > 0 then
          (processReadIsoCmd d tab io buf (u32 (startSector * 2352)) (u32 (fit * 2352))).map
            (fun r => compact fit r.2 buf buf)
        else some io).bind (fun io => readBlocks d tab (sectorCount - fit) io (buf + fit * 2048)
          (startSector + fit))).map (fun io => (0, io)) := by
    simp only [processReadCd2048Cmd, hroom, ← hfit, hrem, hstart]
  by_cases bulk : fit > 0
  · obtain ⟨r, run, stores, logged, moved⟩ := bulk_asked d fits io buf startSector fit
      (by lia)
    obtain ⟨io', rest, asked⟩ := readBlocks_asked d fits (sectorCount - fit)
      (compact fit r.2 buf buf) (buf + fit * 2048) (startSector + fit) (by lia)
    refine ⟨io', ?_, logged.trans asked.logged, ?_, ?_, loads⟩
    · rw [cmd, if_pos bulk, run, Option.map_some, Option.bind_some, rest, Option.map_some]
    · intro all
      obtain ⟨before, behind⟩ := allOk_parts logged asked.logged all
      -- the rest of the raw sectors is overwritten by the blocks behind them
      rw [(asked.shift fit).mem behind, moved before, fill_append, ← sum,
        fill_overwrite _ _ _ _ inside]
    · exact (stores.within le_rfl (by omega)).append (asked.stores.within (by omega) (by omega))
  · have zero : fit = 0 := by omega
    obtain ⟨io', rest, asked⟩ := readBlocks_asked d fits (sectorCount - fit) io
      (buf + fit * 2048) (startSector + fit) (by lia)
    refine ⟨io', ?_, asked.logged, ?_, ?_, loads⟩
    · rw [cmd, if_neg bulk, Option.bind_some, rest, Option.map_some]
    · intro all
      rw [asked.mem all]
      subst zero
      simp only [Nat.zero_mul, Nat.add_zero, Nat.sub_zero]
    · exact asked.stores.within (by omega) (by omega)

/-- Three blocks of which two come with raw sectors. -/
theorem processReadCd2048Cmd_servesBlocks_three :
    ServesBlocks (constantDisk 7) [⟨5, 30⟩] blankIo 0 1 3 :=
  processReadCd2048Cmd_servesBlocks (constantDisk 7) (by decide) blankIo 0 (by decide) (by decide)

/-- A disk whose sectors from number 2^32 on hold other bytes. -/
def wideDisk : Storage :=
  ⟨fun sector _ => if sector < 2 ^ 32 then 0 else 1, fun _ _ n => ⟨0, n, fun _ => 0⟩⟩

/-- An extent that passes device sector 2^32: the sector number of the block is
computed in 32 bits, and the block is taken from the start of the device. -/
theorem not_servesBlocks_past_end :
    1 * 2048 < 2 ^ 32 ∧ (1 + 1) * 2352 < 2 ^ 32 ∧
      ¬ ServesBlocks wideDisk [⟨0xFFFFFFFE, 100⟩] blankIo 0 1 1 := by
  refine ⟨by decide, by decide, ?_⟩
  rintro ⟨io', run, -, served, -⟩
  have first : (processReadCd2048Cmd wideDisk [⟨0xFFFFFFFE, 100⟩] blankIo 0 1 1).map
      (fun r => (r.2.mem 0, r.2.calls.all ReadCall.ok)) = some (0, true) := by
    decide +kernel
  rw [run, Option.map_some] at first
  obtain ⟨byte, ok⟩ := Prod.mk.inj (Option.some.inj first)
  have block : blockByte wideDisk [⟨0xFFFFFFFE, 100⟩] 1 0 = 1 := by
    decide +kernel
  have same := congrFun (served ⟨io'.calls, rfl, List.all_eq_true.mp ok⟩) (0 + 0)
  rw [fill_inside _ _ (by decide), block] at same
  exact absurd (byte.symm.trans same) (by decide)

end BlockReads
