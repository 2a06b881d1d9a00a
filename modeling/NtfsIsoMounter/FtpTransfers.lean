import Mathlib

/-!
# The transfers of the FTP server

`sendfile` and `recvfile` relay a file piece by piece between the file system and a data
connection. The results of `send` and `recv` are signed and are compared as unsigned 64-bit
numbers, and a read that fails ends the loop as the end of the file does.
-/

namespace FtpTransfers

/-- `BUFFER_SIZE` -/
def bufferSize : Nat := 32768

/-- `(u64)` of a signed result. -/
def asU64 (r : Int64) : Nat := r.toUInt64.toNat

theorem asU64_cond (r : Int64) :
    r.toInt = if 2 * asU64 r < 2 ^ 64 then (asU64 r : Int) else asU64 r - 2 ^ 64 :=
  BitVec.toInt_eq_toNat_cond r.toBitVec

theorem asU64_lt (r : Int64) : asU64 r < 2 ^ 64 := r.toUInt64.toNat_lt

/-- A result is below a length, as the code compares them, if it is a short one; an error is
not. -/
theorem asU64_lt_iff {r : Int64} {len : Nat} (fits : len ≤ bufferSize) :
    asU64 r < len ↔ 0 ≤ r.toInt ∧ r.toInt < len := by
  have value := asU64_cond r
  have wide := asU64_lt r
  rw [bufferSize] at fits
  split at value
  · omega
  · omega

/-- Where the file stands when a transfer starts; `seek` is where `lv2FsLSeek64` leaves it. -/
def startOffset (seek : Int → Nat) (rest : Int) : Nat := if rest > 0 then seek rest else 0

/-! ## Sending -/

/-- What `lv2FsRead` does: it fails, or delivers as many bytes as it likes. -/
inductive ReadResult where
  | failed
  | atMost (n : Nat)

/-- The bytes in the buffer behind a read; none ends the loop. -/
def readPiece (remaining : List UInt8) : ReadResult → List UInt8
  | .failed => []
  | .atMost n => remaining.take (min n bufferSize)

/-- The outcomes of the calls of one `sendfile`: whether there is memory, whether the file opens,
and what the reads and the sends give, one after another. -/
structure SendCalls where
  malloc : Bool
  opens : Bool
  seek : Int → Nat
  read : Nat → ReadResult
  send : Nat → Int64

/-- The bytes of a piece that the connection took. -/
def accepted (r : Int64) (piece : List UInt8) : List UInt8 := piece.take r.toInt.toNat

theorem readPiece_length (remaining : List UInt8) (r : ReadResult) :
    (readPiece remaining r).length ≤ bufferSize := by
  cases r with
  | failed => exact Nat.zero_le _
  | atMost n =>
    rw [readPiece, List.length_take]
    omega

theorem readPiece_append_drop (remaining : List UInt8) (r : ReadResult) :
    readPiece remaining r ++ remaining.drop (readPiece remaining r).length = remaining := by
  apply List.prefix_iff_eq_append.mp
  cases r with
  | failed => exact List.nil_prefix
  | atMost n => exact List.take_prefix _ _

theorem drop_shorter {remaining : List UInt8} {r : ReadResult}
    (some' : ¬ readPiece remaining r = []) :
    (remaining.drop (readPiece remaining r).length).length < remaining.length := by
  have whole := congrArg List.length (readPiece_append_drop remaining r)
  have positive := List.length_pos_of_ne_nil some'
  rw [List.length_append] at whole
  omega

/-- The loop, at its call `n` with the bytes `remaining` still in the file: what is returned and
what was accepted. -/
def sendLoop (c : SendCalls) (n : Nat) (remaining sent : List UInt8) : Int × List UInt8 :=
  if some' : readPiece remaining (c.read n) = [] then (0, sent)
  else
    let piece := readPiece remaining (c.read n)
    let sent := sent ++ accepted (c.send n) piece
    if asU64 (c.send n) < piece.length then (-1, sent)
    else sendLoop c (n + 1) (remaining.drop (readPiece remaining (c.read n)).length) sent
termination_by remaining.length
decreasing_by exact drop_shorter some'

def sendfile (c : SendCalls) (content : List UInt8) (rest : Int) : Int × List UInt8 :=
  if c.malloc && c.opens then sendLoop c 0 (content.drop (startOffset c.seek rest)) []
  else (-1, [])

/-- The pieces the reads give, up to the first that gives none, each with the result of the send
behind it. -/
def exchanges (c : SendCalls) (n : Nat) (remaining : List UInt8) : List (List UInt8 × Int64) :=
  if some' : readPiece remaining (c.read n) = [] then []
  else
    (readPiece remaining (c.read n), c.send n) ::
      exchanges c (n + 1) (remaining.drop (readPiece remaining (c.read n)).length)
termination_by remaining.length
decreasing_by exact drop_shorter some'

/-- A send that took some of the bytes it was given, or none, and reported no error. -/
def Short (e : List UInt8 × Int64) : Prop := 0 ≤ e.2.toInt ∧ e.2.toInt < e.1.length

/-- The bytes that were accepted in a run of exchanges. -/
def delivered (es : List (List UInt8 × Int64)) : List UInt8 :=
  (es.map fun e => accepted e.2 e.1).flatten

section Loop
variable (c : SendCalls)

theorem exchanges_stop {n : Nat} {remaining : List UInt8}
    (none' : readPiece remaining (c.read n) = []) : exchanges c n remaining = [] := by
  rw [exchanges, dif_pos none']

theorem exchanges_next {n : Nat} {remaining : List UInt8}
    (some' : ¬ readPiece remaining (c.read n) = []) : exchanges c n remaining =
      (readPiece remaining (c.read n), c.send n) ::
        exchanges c (n + 1) (remaining.drop (readPiece remaining (c.read n)).length) := by
  rw [exchanges, dif_neg some']

/-- The loop returns 0 unless a send is short, and then it has accepted what every send took. -/
theorem sendLoop_spec (n : Nat) (remaining sent : List UInt8) :
    ((∃ e ∈ exchanges c n remaining, Short e) → (sendLoop c n remaining sent).1 = -1) ∧
    ((∀ e ∈ exchanges c n remaining, ¬ Short e) →
      sendLoop c n remaining sent = (0, sent ++ delivered (exchanges c n remaining))) := by
  fun_induction sendLoop c n remaining sent with
  | case1 n remaining sent none' =>
    rw [exchanges_stop c none']
    constructor
    · rintro ⟨e, he, -⟩
      exact absurd he List.not_mem_nil
    · intro _
      rw [delivered, List.map_nil, List.flatten_nil, List.append_nil]
  | case2 n remaining sent some' piece sent' short =>
    have short' : Short (piece, c.send n) :=
      (asU64_lt_iff (readPiece_length remaining (c.read n))).mp short
    rw [exchanges_next c some']
    exact ⟨fun _ => rfl, fun none' => absurd short' (none' _ List.mem_cons_self)⟩
  | case3 n remaining sent some' piece sent' long ih =>
    have long' : ¬ Short (piece, c.send n) :=
      fun short => long ((asU64_lt_iff (readPiece_length remaining (c.read n))).mpr short)
    obtain ⟨fails, ends⟩ := ih
    rw [exchanges_next c some']
    constructor
    · rintro ⟨e, he, short⟩
      rcases List.mem_cons.mp he with rfl | later
      · exact absurd short long'
      · exact fails ⟨e, later, short⟩
    · intro none'
      rw [ends fun e he => none' e (List.mem_cons_of_mem _ he), delivered, delivered, List.map_cons,
        List.flatten_cons, ← List.append_assoc]

theorem delivered_length (n : Nat) (remaining : List UInt8) :
    (delivered (exchanges c n remaining)).length ≤ remaining.length := by
  fun_induction exchanges c n remaining with
  | case1 => exact Nat.zero_le _
  | case2 n remaining some' ih =>
    have whole := congrArg List.length (readPiece_append_drop remaining (c.read n))
    have part : (accepted (c.send n) (readPiece remaining (c.read n))).length ≤
        (readPiece remaining (c.read n)).length := List.length_take_le' _ _
    rw [List.length_append] at whole
    rw [delivered] at ih ⊢
    rw [List.map_cons, List.flatten_cons, List.length_append]
    dsimp only
    omega

/-- Where no send is short everything in the file is accepted exactly if no send fails either
and the reads give everything. -/
theorem delivered_all_iff (n : Nat) (remaining : List UInt8)
    (long : ∀ e ∈ exchanges c n remaining, ¬ Short e) :
    delivered (exchanges c n remaining) = remaining ↔
      (∀ e ∈ exchanges c n remaining, 0 ≤ e.2.toInt) ∧
        ((exchanges c n remaining).map Prod.fst).flatten = remaining := by
  fun_induction exchanges c n remaining with
  | case1 => simp [delivered]
  | case2 n remaining some' ih =>
    have whole := readPiece_append_drop remaining (c.read n)
    have first := long _ List.mem_cons_self
    have later := ih fun e he => long e (List.mem_cons_of_mem _ he)
    have few := delivered_length c (n + 1)
      (remaining.drop (readPiece remaining (c.read n)).length)
    obtain ⟨piece, hpiece⟩ : ∃ piece, piece = readPiece remaining (c.read n) := ⟨_, rfl⟩
    rw [← hpiece] at whole first later few some' ⊢
    obtain ⟨left, hleft⟩ : ∃ left, left = remaining.drop piece.length := ⟨_, rfl⟩
    rw [← hleft] at whole later few ⊢
    have split : delivered ((piece, c.send n) :: exchanges c (n + 1) left) =
        accepted (c.send n) piece ++ delivered (exchanges c (n + 1) left) := by
      rw [delivered, delivered, List.map_cons, List.flatten_cons]
    rw [split, List.forall_mem_cons, List.map_cons, List.flatten_cons, ← whole]
    by_cases fails : 0 ≤ (c.send n).toInt
    · have all : accepted (c.send n) piece = piece := by
        rw [accepted, List.take_of_length_le]
        by_contra short
        exact first ⟨fails, by dsimp only; omega⟩
      rw [all, List.append_cancel_left_eq, List.append_cancel_left_eq, later, and_assoc,
        and_iff_right fails]
    · have none' : accepted (c.send n) piece = [] := by
        rw [accepted, Int.toNat_of_nonpos (by omega), List.take_zero]
      refine iff_of_false ?_ fun all => fails all.1.1
      intro same
      have lengths := congrArg List.length same
      have positive := List.length_pos_of_ne_nil some'
      rw [none', List.nil_append, List.length_append] at lengths
      omega

end Loop

/-! ## Receiving -/

/-- What a `recv` of a whole buffer gives: an error, which is `-(n + 1)`, or bytes. -/
inductive Received where
  | failed (n : Fin (2 ^ 63))
  | bytes (data : List UInt8)

def Received.data : Received → List UInt8
  | .failed _ => []
  | .bytes data => data.take bufferSize

/-- `read_e` -/
def Received.readE : Received → Nat
  | .failed n => 2 ^ 64 - (n + 1)
  | .bytes data => (data.take bufferSize).length

/-- What `lv2FsWrite` returns, and what it stores as `write_e`. -/
structure WriteResult where
  ret : Int
  writeE : UInt64

/-- The outcomes of the calls of one `recvfile`. Behind the last of the `calls` the peer has closed
the connection. -/
structure RecvCalls where
  malloc : Bool
  opens : Bool
  seek : Int → Nat
  calls : List (Received × WriteResult)

/-- What is returned, what was written, and for how many bytes each write was asked. -/
structure RecvResult where
  ret : Int
  written : List UInt8
  asked : List Nat
deriving DecidableEq

/-- `lv2FsWrite(..) != 0 || write_e < read_e` -/
def WriteFails (e : Received × WriteResult) : Prop :=
  e.2.ret ≠ 0 ∨ e.2.writeE.toNat < e.1.readE

instance (e : Received × WriteResult) : Decidable (WriteFails e) :=
  inferInstanceAs (Decidable (_ ∨ _))

def recvLoop (written : List UInt8) (asked : List Nat) : List (Received × WriteResult) → RecvResult
  | [] => ⟨0, written, asked⟩
  | e :: calls =>
    if e.1.readE = 0 then ⟨0, written, asked⟩
    else if WriteFails e then
      ⟨-1, written ++ e.1.data.take e.2.writeE.toNat, asked ++ [e.1.readE]⟩
    else recvLoop (written ++ e.1.data) (asked ++ [e.1.readE]) calls

/-- Where the file is written from, if it is opened; from its start it is cut to nothing first. -/
def recvfile (c : RecvCalls) (rest : Int) : Option Nat × RecvResult :=
  if c.malloc && c.opens then (some (startOffset c.seek rest), recvLoop [] [] c.calls)
  else (none, ⟨-1, [], []⟩)

/-- The calls up to the close of the connection. -/
def upToClose (calls : List (Received × WriteResult)) : List (Received × WriteResult) :=
  calls.takeWhile (·.1.readE ≠ 0)

def arrived (calls : List (Received × WriteResult)) : List UInt8 :=
  ((upToClose calls).map (·.1.data)).flatten

def RecvFailed (e : Received × WriteResult) : Prop := ∃ n, e.1 = .failed n

theorem upToClose_cons {e : Received × WriteResult} {calls : List (Received × WriteResult)}
    (open' : ¬ e.1.readE = 0) : upToClose (e :: calls) = e :: upToClose calls := by
  rw [upToClose, List.takeWhile_cons_of_pos (by simpa using open'), upToClose]

theorem upToClose_closed {e : Received × WriteResult} {calls : List (Received × WriteResult)}
    (close : e.1.readE = 0) : upToClose (e :: calls) = [] := by
  rw [upToClose, List.takeWhile_cons_of_neg (by simpa using close)]

/-- The loop returns 0 unless a write fails, and then it has written what had arrived. -/
theorem recvLoop_spec (written : List UInt8) (asked : List Nat)
    (calls : List (Received × WriteResult)) :
    ((∃ e ∈ upToClose calls, WriteFails e) → (recvLoop written asked calls).ret = -1) ∧
    ((∀ e ∈ upToClose calls, ¬ WriteFails e) → recvLoop written asked calls =
      ⟨0, written ++ arrived calls, asked ++ (upToClose calls).map (·.1.readE)⟩) := by
  fun_induction recvLoop written asked calls with
  | case1 written asked =>
    refine ⟨fun ⟨e, he, _⟩ => absurd he List.not_mem_nil, fun _ => ?_⟩
    simp only [arrived, upToClose, List.takeWhile_nil, List.map_nil, List.flatten_nil,
      List.append_nil]
  | case2 written asked e calls close =>
    rw [arrived, upToClose_closed close]
    refine ⟨fun ⟨e, he, _⟩ => absurd he List.not_mem_nil, fun _ => ?_⟩
    simp only [List.map_nil, List.flatten_nil, List.append_nil]
  | case3 written asked e calls open' fails =>
    rw [upToClose_cons open']
    exact ⟨fun _ => rfl, fun none' => absurd fails (none' e List.mem_cons_self)⟩
  | case4 written asked e calls open' takes ih =>
    obtain ⟨fails, ends⟩ := ih
    rw [arrived, upToClose_cons open']
    constructor
    · rintro ⟨e', he, bad⟩
      rcases List.mem_cons.mp he with rfl | later
      · exact absurd bad takes
      · exact fails ⟨e', later, bad⟩
    · intro none'
      rw [ends fun e' he => none' e' (List.mem_cons_of_mem _ he), arrived, List.map_cons,
        List.flatten_cons, List.map_cons, List.append_assoc, List.append_assoc,
        List.singleton_append]

theorem readE_small {r : Received} (received : ∀ n, r ≠ .failed n) : r.readE ≤ bufferSize := by
  cases r with
  | failed n => exact absurd rfl (received n)
  | bytes data => exact List.length_take_le _ _

/-! ## Success -/

/-- Success of `sendfile`: everything from the offset on was accepted. -/
def SendComplete (c : SendCalls) (content : List UInt8) (rest : Int) : Prop :=
  (sendfile c content rest).1 = 0 →
    (sendfile c content rest).2 = content.drop (startOffset c.seek rest)

/-- Success of `recvfile`: everything that arrived was written, no `recv` failed and no write
was asked for more than the buffer holds. -/
def RecvComplete (c : RecvCalls) (rest : Int) : Prop :=
  (recvfile c rest).2.ret = 0 → (recvfile c rest).2.written = arrived c.calls ∧
    (∀ e ∈ upToClose c.calls, ¬ RecvFailed e) ∧ ∀ n ∈ (recvfile c rest).2.asked, n ≤ bufferSize

/-- A send is short, or no send fails and the reads give everything. -/
def SendNoticed (c : SendCalls) (remaining : List UInt8) : Prop :=
  (∃ e ∈ exchanges c 0 remaining, Short e) ∨
    ((∀ e ∈ exchanges c 0 remaining, 0 ≤ e.2.toInt) ∧
      ((exchanges c 0 remaining).map Prod.fst).flatten = remaining)

theorem sendfile_complete_iff (c : SendCalls) (content : List UInt8) (rest : Int) :
    SendComplete c content rest ↔ ((c.malloc && c.opens) = true →
      SendNoticed c (content.drop (startOffset c.seek rest))) := by
  rw [SendComplete, sendfile]
  cases started : c.malloc && c.opens with
  | false => exact iff_of_true nofun nofun
  | true =>
    obtain ⟨remaining, hremaining⟩ : ∃ r, r = content.drop (startOffset c.seek rest) := ⟨_, rfl⟩
    rw [if_pos rfl, imp_iff_right (rfl : true = true), ← hremaining]
    obtain ⟨fails, ends⟩ := sendLoop_spec c 0 remaining []
    by_cases short : ∃ e ∈ exchanges c 0 remaining, Short e
    · refine iff_of_true (fun zero => ?_) (Or.inl short)
      rw [fails short] at zero
      cases zero
    · have long : ∀ e ∈ exchanges c 0 remaining, ¬ Short e := by
        intro e he bad
        exact short ⟨e, he, bad⟩
      rw [ends long, imp_iff_right rfl, List.nil_append, delivered_all_iff c 0 remaining long,
        SendNoticed, or_iff_right short]

theorem recvfile_complete_iff (c : RecvCalls) (rest : Int) :
    RecvComplete c rest ↔ ((c.malloc && c.opens) = true →
      (∃ e ∈ upToClose c.calls, WriteFails e) ∨ ∀ e ∈ upToClose c.calls, ¬ RecvFailed e) := by
  rw [RecvComplete, recvfile]
  cases started : c.malloc && c.opens with
  | false => exact iff_of_true nofun nofun
  | true =>
    rw [if_pos rfl, imp_iff_right (rfl : true = true)]
    obtain ⟨fails, ends⟩ := recvLoop_spec [] [] c.calls
    by_cases bad : ∃ e ∈ upToClose c.calls, WriteFails e
    · refine iff_of_true (fun zero => ?_) (Or.inl bad)
      rw [fails bad] at zero
      cases zero
    · have good : ∀ e ∈ upToClose c.calls, ¬ WriteFails e := by
        intro e he fails'
        exact bad ⟨e, he, fails'⟩
      rw [ends good, or_iff_right bad, imp_iff_right rfl]
      constructor
      · exact fun complete => complete.2.1
      · intro received
        refine ⟨List.nil_append _, received, fun n hn => ?_⟩
        obtain ⟨e, he, rfl⟩ := List.mem_map.mp hn
        exact readE_small fun n failed => received e he ⟨n, failed⟩

/-- When the success of a transfer is to be believed. -/
theorem transfers_complete_iff (s : SendCalls) (content : List UInt8) (r : RecvCalls)
    (rest : Int) :
    (SendComplete s content rest ↔ ((s.malloc && s.opens) = true →
      SendNoticed s (content.drop (startOffset s.seek rest)))) ∧
    (RecvComplete r rest ↔ ((r.malloc && r.opens) = true →
      (∃ e ∈ upToClose r.calls, WriteFails e) ∨ ∀ e ∈ upToClose r.calls, ¬ RecvFailed e)) :=
  ⟨sendfile_complete_iff s content rest, recvfile_complete_iff r rest⟩

/-- A file of one byte, and a connection that was lost. -/
def lostConnection : SendCalls where
  malloc := true
  opens := true
  seek := fun _ => 0
  read := fun _ => .atMost bufferSize
  send := fun _ => -1

theorem lostConnection_succeeds : (sendfile lostConnection [65] 0) = (0, []) ∧
    ¬ SendComplete lostConnection [65] 0 := by
  have result : sendfile lostConnection [65] 0 = (0, []) := by
    have one : exchanges lostConnection 0 [65] = [([65], -1)] := by
      rw [exchanges, dif_neg (by decide), exchanges_stop _ rfl]
      rfl
    have long : ∀ e ∈ exchanges lostConnection 0 [65], ¬ Short e := by
      rw [one]
      rintro e he ⟨positive, -⟩
      rw [List.mem_singleton.mp he] at positive
      revert positive
      decide
    exact (sendLoop_spec lostConnection 0 [65] []).2 long |>.trans (by rw [one]; rfl)
  refine ⟨result, ?_⟩
  rw [SendComplete, result]
  intro complete
  cases complete rfl

end FtpTransfers
