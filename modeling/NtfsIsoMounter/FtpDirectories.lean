import NtfsIsoMounter.FtpSession

/-!
# The working directory over FTP

CWD keeps the path it is given, with its slashes and dots as they are. CDUP erases the last two
characters of the path and what stands in front of them up to a slash. That is the last name of the
path if it has two characters or a slash behind it.
-/

namespace FtpDirectories

open CText FtpCommands FtpSession TurnRuns

/-! ## Paths -/

/-- What stands between the slashes of a path. -/
def names (path : List UInt8) : List (List UInt8) := (path.splitOn 47).filter (· ≠ [])

/-- A directory is known by the names on the way from the root. -/
abbrev Directory := List (List UInt8)

/-- The root is its own parent. -/
def parent (d : Directory) : Directory := d.dropLast

/-- One name further: a dot stays, two of them go up. -/
def enter (d : Directory) (name : List UInt8) : Directory :=
  if name = [46] then d else if name = [46, 46] then parent d else d ++ [name]

/-- The directory that a path names. -/
def directory (path : List UInt8) : Directory := (names path).foldl enter []

/-- Neither of the names made of dots. -/
def Ordinary (name : List UInt8) : Prop := name ≠ [46] ∧ name ≠ [46, 46]

instance : DecidablePred Ordinary := fun _ => inferInstanceAs (Decidable (_ ∧ _))

/-- A path up to the last slash in front of its last two characters. -/
def above (path : List UInt8) : List UInt8 := (path.take (path.length - 2)).rdropWhile (· ≠ 47)

/-- What stands behind that slash. -/
def below (path : List UInt8) : List UInt8 := path.drop (above path).length

/-- Of the names behind the slash one is not a dot, and it leads down; or the path in front of them
names the root and one of them at most leads down. A path of up to two characters is not changed,
and has to name the root. -/
def Climbs (path : List UInt8) : Prop :=
  if path.length ≤ 2 then directory path = []
  else (∃ name, (names (below path)).filter (· ≠ [46]) = [name] ∧ name ≠ [46, 46]) ∨
    (directory (above path) = [] ∧ ((names (below path)).filter (Ordinary ·)).length ≤ 1)

/-- A path from the root, with no terminator in it. -/
structure Rooted (path : List UInt8) : Prop where
  slash : path.head? = some 47
  plain : 0 ∉ path

theorem Rooted.of_append {p q : List UInt8} (rooted : Rooted (p ++ q)) (some' : p ≠ []) :
    Rooted p := by
  constructor
  · rw [← List.head?_append_of_ne_nil p some', rooted.slash]
  · exact fun zero => rooted.plain (List.mem_append_left q zero)

theorem Rooted.append {p q : List UInt8} (rooted : Rooted p) (plain : 0 ∉ q) : Rooted (p ++ q) := by
  have some' : p ≠ [] := by
    rintro rfl
    cases rooted.slash
  constructor
  · rw [List.head?_append_of_ne_nil p some', rooted.slash]
  · rw [List.mem_append]
    exact fun either => either.elim rooted.plain plain

/-! ## Names -/

theorem names_append (p q : List UInt8) : names (p ++ 47 :: q) = names p ++ names q := by
  rw [names, List.splitOn_append_cons_self, List.filter_append]
  rfl

@[simp] theorem names_nil : names [] = [] := rfl

theorem names_plain {p : List UInt8} (plain : 47 ∉ p) (some' : p ≠ []) : names p = [p] := by
  rw [names, List.splitOn_eq_singleton plain]
  simp [some']

/-! ## The loop -/

/-- From a zero down the loop erases up to the slash in front of it. -/
theorem cdupLoop_spec {pos i : Nat} {front : List UInt8} (tail : List UInt8)
    (length : front.length = i + 1) (before : i < pos) (rooted : Rooted front) :
    cString (cdupLoop pos i (front ++ 0 :: tail)) = front.rdropWhile (· ≠ 47) := by
  induction i generalizing front tail with
  | zero =>
    obtain ⟨b, rfl⟩ := List.length_eq_one_iff.mp length
    obtain rfl : b = 47 := Option.some.inj rooted.slash
    rfl
  | succ i ih =>
    obtain ⟨init, b, rfl⟩ : ∃ init b, front = init ++ [b] := by
      rcases List.eq_nil_or_concat' front with rfl | ⟨init, b, rfl⟩
      · cases length
      · exact ⟨init, b, rfl⟩
    have short : init.length = i + 1 := by
      rw [List.length_append] at length
      exact Nat.succ.inj length
    have regroup : init ++ [b] ++ 0 :: tail = init ++ b :: 0 :: tail := by
      rw [List.append_assoc]
      rfl
    have here : (init ++ b :: 0 :: tail).getD (i + 1) 0 = b := by
      rw [List.getD_append_right _ _ _ _ short.le, short, Nat.sub_self]
      rfl
    rw [regroup, cdupLoop, here]
    by_cases slash : b = 47
    · rw [if_pos ⟨before, slash⟩, ← regroup,
        cString_terminated fun c hc => ne_of_mem_of_not_mem hc rooted.plain,
        List.rdropWhile_concat_neg _ _ _ (by simpa using slash)]
    · have erased : (init ++ b :: 0 :: tail).set (i + 1) 0 = init ++ 0 :: 0 :: tail := by
        rw [List.set_append_right _ _ short.le, short, Nat.sub_self]
        rfl
      have start : Rooted init := rooted.of_append (List.ne_nil_of_length_eq_add_one short)
      rw [if_neg (fun both => slash both.2), erased,
        List.rdropWhile_concat_pos _ _ _ (by simpa using slash)]
      exact ih _ short (Nat.lt_of_succ_lt before) start

/-- CDUP leaves a path of two characters alone, and a longer one up to a slash. -/
theorem cdup_cwd {c : Control} (rooted : Rooted c.cwd) :
    (cdup c).1.cwd = if c.cwd.length ≤ 2 then c.cwd else above c.cwd := by
  have result : (cdup c).1.cwd = cString (cdupLoop (c.cwd.length - 2) (c.cwd.length - 2) c.cwd) :=
    rfl
  rw [result]
  by_cases short : c.cwd.length ≤ 2
  · rw [if_pos short, Nat.sub_eq_zero_of_le short, cdupLoop, cString_of_plain rooted.plain]
  · rw [if_neg short, above]
    obtain ⟨k, hk⟩ : ∃ k, c.cwd.length - 2 = k + 1 := ⟨c.cwd.length - 3, by omega⟩
    obtain ⟨front, hfront⟩ : ∃ front, front = c.cwd.take (k + 1) := ⟨_, rfl⟩
    obtain ⟨x, y, hend⟩ : ∃ x y, c.cwd.drop (k + 1) = [x, y] :=
      List.length_eq_two.mp (by rw [List.length_drop]; omega)
    have split : c.cwd = front ++ x :: [y] := by
      rw [hfront, ← hend, List.take_append_drop]
    have length : front.length = k + 1 := by
      rw [hfront, List.length_take]
      omega
    have start : Rooted front := by
      rw [split] at rooted
      exact rooted.of_append (List.ne_nil_of_length_eq_add_one length)
    -- the first character is erased whatever it is
    have erased : (front ++ x :: [y]).set (k + 1) 0 = front ++ 0 :: [y] := by
      rw [List.set_append_right _ _ length.le, length, Nat.sub_self]
      rfl
    rw [hk, ← hfront, cdupLoop, if_neg (fun both => absurd both.1 (Nat.lt_irrefl _)), split, erased]
    exact cdupLoop_spec [y] length (Nat.lt_succ_self k) start

/-! ## The parent -/

/-- A longer path in the parts that CDUP looks at. -/
theorem path_parts {path : List UInt8} (rooted : Rooted path) (long : 2 < path.length) :
    ∃ q t x y, above path = q ++ [47] ∧ below path = t ++ [x, y] ∧ 47 ∉ t ∧
      path = above path ++ below path := by
  obtain ⟨front, hfront⟩ : ∃ front, front = path.take (path.length - 2) := ⟨_, rfl⟩
  obtain ⟨x, y, hend⟩ : ∃ x y, path.drop (path.length - 2) = [x, y] :=
    List.length_eq_two.mp (by rw [List.length_drop]; omega)
  have whole : path = front ++ [x, y] := by rw [hfront, ← hend, List.take_append_drop]
  have split : above path ++ front.rtakeWhile (· ≠ 47) = front := by
    rw [above, ← hfront]
    exact List.rdropWhile_append_rtakeWhile
  have parts : path = above path ++ (front.rtakeWhile (· ≠ 47) ++ [x, y]) := by
    rw [← List.append_assoc, split, ← whole]
  have behind : below path = front.rtakeWhile (· ≠ 47) ++ [x, y] := by
    rw [below]
    nth_rewrite 2 [parts]
    exact List.drop_left
  have first : 47 ∈ front := by
    cases front with
    | nil =>
      have length := congrArg List.length whole
      rw [List.nil_append] at length
      simp only [List.length_cons, List.length_nil] at length
      omega
    | cons b front =>
      have slash := rooted.slash
      rw [whole] at slash
      rw [← Option.some.inj slash]
      exact List.mem_cons_self
  have some' : above path ≠ [] := by
    rw [above, ← hfront]
    intro none'
    have all := List.rdropWhile_eq_nil_iff.mp none' 47 first
    simp at all
  have last : (above path).getLast some' = 47 := by
    have stops := List.rdropWhile_last_not (fun b : UInt8 => decide (b ≠ 47)) front
      (by rw [hfront]; exact some')
    simpa [above, hfront] using stops
  refine ⟨(above path).dropLast, front.rtakeWhile (· ≠ 47), x, y, ?_, behind, ?_, ?_⟩
  · rw [← last, List.dropLast_append_getLast]
  · intro slash
    have plain := List.mem_rtakeWhile_imp slash
    simp at plain
  · rw [behind]
    exact parts

/-- The names behind the slash: two at most, the second of one character. -/
theorem names_end {t : List UInt8} (plain : 47 ∉ t) (x y : UInt8) :
    (names (t ++ [x, y])).length ≤ 2 ∧
      ∀ b c, names (t ++ [x, y]) = [b, c] → c.length = 1 := by
  have few {p : List UInt8} (plain : 47 ∉ p) : (names p).length ≤ 1 := by
    rcases List.eq_nil_or_concat' p with rfl | ⟨init, b, rfl⟩
    · exact Nat.zero_le 1
    · rw [names_plain plain (by simp)]
      rfl
  have one {p : List UInt8} (plain : 47 ∉ p) (b c : List UInt8) : names p ≠ [b, c] := by
    intro two
    have length := few plain
    rw [two] at length
    exact Nat.not_succ_le_self 1 length
  by_cases last : y = 47
  · have split : t ++ [x, y] = (t ++ [x]) ++ 47 :: [] := by
      rw [last, List.append_assoc]
      rfl
    rw [split, names_append, names_nil, List.append_nil]
    by_cases slash : x = 47
    · have split' : t ++ [x] = t ++ 47 :: [] := by rw [slash]
      rw [split', names_append, names_nil, List.append_nil]
      exact ⟨(few plain).trans (by decide), fun b c two => absurd two (one plain b c)⟩
    · have plain' : 47 ∉ t ++ [x] := by
        simp [plain, Ne.symm slash]
      exact ⟨(few plain').trans (by decide), fun b c two => absurd two (one plain' b c)⟩
  · by_cases slash : x = 47
    · have single : names [y] = [[y]] := names_plain (by simp [Ne.symm last]) (List.cons_ne_nil _ _)
      have split : t ++ [x, y] = t ++ 47 :: [y] := by rw [slash]
      have length := few plain
      rw [split, names_append, single]
      refine ⟨by rw [List.length_append]; exact Nat.succ_le_succ length, fun b c two => ?_⟩
      obtain ⟨-, same⟩ := List.append_inj' (show names t ++ [[y]] = [b] ++ [c] from two) rfl
      rw [← (List.cons.inj same).1]
      rfl
    · have plain' : 47 ∉ t ++ [x, y] := by
        simp [plain, Ne.symm slash, Ne.symm last]
      exact ⟨(few plain').trans (by decide), fun b c two => absurd two (one plain' b c)⟩

theorem parent_eq_self_iff {d : Directory} : d = parent d ↔ d = [] := by
  constructor
  · intro same
    have length := congrArg List.length same
    rw [parent, List.length_dropLast] at length
    exact List.eq_nil_of_length_eq_zero (by omega)
  · rintro rfl
    rfl

theorem grandparent_eq_self_iff {d : Directory} : d = parent (parent d) ↔ d = [] := by
  constructor
  · intro same
    have length := congrArg List.length same
    rw [parent, parent, List.length_dropLast, List.length_dropLast] at length
    exact List.eq_nil_of_length_eq_zero (by omega)
  · rintro rfl
    rfl

@[simp] theorem parent_concat (d : Directory) (name : List UInt8) : parent (d ++ [name]) = d :=
  List.dropLast_concat

/-- When the way down some names ends one step below where it began. -/
theorem parent_foldl_iff {d : Directory} {ns : List (List UInt8)} (few : ns.length ≤ 2)
    (short : ∀ b c, ns = [b, c] → c.length = 1) :
    d = parent (ns.foldl enter d) ↔
      (∃ name, ns.filter (· ≠ [46]) = [name] ∧ name ≠ [46, 46]) ∨
        (d = [] ∧ (ns.filter (Ordinary ·)).length ≤ 1) := by
  have dots : ([46, 46] : List UInt8) ≠ [46] := by decide
  match ns, few with
  | [], _ => simp [parent_eq_self_iff]
  | [c], _ =>
    by_cases stays : c = [46]
    · simp [enter, Ordinary, stays, parent_eq_self_iff]
    · by_cases back : c = [46, 46]
      · simp [enter, Ordinary, back, grandparent_eq_self_iff]
      · simp [enter, Ordinary, stays, back]
  | [b, c], _ =>
    have back : c ≠ [46, 46] := by
      rintro rfl
      exact absurd (short b _ rfl) (by simp)
    by_cases stays : c = [46]
    · by_cases stays' : b = [46]
      · simp [enter, Ordinary, stays, stays', parent_eq_self_iff]
      · by_cases back' : b = [46, 46]
        · simp [enter, Ordinary, stays, back', grandparent_eq_self_iff]
        · simp [enter, Ordinary, stays, stays', back']
    · by_cases stays' : b = [46]
      · simp [enter, Ordinary, stays, stays', back]
      · by_cases back' : b = [46, 46]
        · simp [enter, Ordinary, stays, back', back, parent_eq_self_iff]
        · have deeper : parent (d ++ [b, c]) = d ++ [b] := by
            rw [← List.singleton_append, ← List.append_assoc, parent_concat]
          simp [enter, Ordinary, stays, stays', back', back, deeper]

/-- What CDUP leaves names the parent exactly if the path is one that it climbs. -/
theorem cdup_parent_iff {c : Control} (rooted : Rooted c.cwd) :
    directory (cdup c).1.cwd = parent (directory c.cwd) ↔ Climbs c.cwd := by
  rw [cdup_cwd rooted, Climbs]
  by_cases short : c.cwd.length ≤ 2
  · rw [if_pos short, if_pos short]
    exact parent_eq_self_iff
  · rw [if_neg short, if_neg short]
    obtain ⟨q, t, x, y, front, behind, plain, whole⟩ := path_parts rooted (not_le.mp short)
    obtain ⟨few, single⟩ := names_end plain x y
    have down : directory c.cwd = (names (below c.cwd)).foldl enter (directory (above c.cwd)) := by
      have split : c.cwd = q ++ 47 :: below c.cwd := by
        nth_rewrite 1 [whole]
        rw [front, List.append_assoc]
        rfl
      have all : names c.cwd = names q ++ names (below c.cwd) :=
        (congrArg names split).trans (names_append q _)
      have first : names (above c.cwd) = names q := by
        rw [front, names_append, names_nil, List.append_nil]
      rw [directory, all, List.foldl_append, directory, first]
    rw [down, behind]
    exact parent_foldl_iff few single

/-- CDUP keeps the path one from the root. -/
theorem cdup_rooted {c : Control} (rooted : Rooted c.cwd) : Rooted (cdup c).1.cwd := by
  rw [cdup_cwd rooted]
  split
  · exact rooted
  · rename_i short
    obtain ⟨q, t, x, y, front, -, -, whole⟩ := path_parts rooted (not_le.mp short)
    have some' : above c.cwd ≠ [] := by
      rw [front]
      exact List.append_ne_nil_of_right_ne_nil _ (List.cons_ne_nil _ _)
    rw [whole] at rooted
    exact rooted.of_append some'

/-! ## The commands -/

theorem site_cwd {c c' : Control} {param : Option (List UInt8)} {w : World}
    {actions : List PlainAction} (ran : site c param w = some (c', actions)) : c'.cwd = c.cwd := by
  cases param with
  | none =>
    cases ran
    rfl
  | some p =>
    rw [site] at ran
    dsimp only at ran
    split at ran
    · cases ran
    · split at ran
      · obtain ⟨answer, -, pair⟩ := Option.map_eq_some_iff.mp ran
        cases pair
        rfl
      · split at ran
        · cases ran
          rfl
        · split at ran
          · cases ran
            rfl
          · cases ran
            rfl

/-- CWD and CDUP are the only plain commands that change the directory. -/
theorem plainCommand_cwd {dataS : Int} {c c' : Control} {v : PlainVerb}
    {param : Option (List UInt8)}
    {w : World} {actions : List PlainAction}
    (ran : plainCommand dataS c v param w = some (c', actions)) :
    (v = .cdup ∧ c'.cwd = (cdup c).1.cwd) ∨
      (v ≠ .cdup ∧ (c'.cwd = c.cwd ∨ tempCwd c param = some c'.cwd)) := by
  have same {a : Option (List PlainAction)} (ran : a.map (fun b => (c, b)) = some (c', actions)) :
      c'.cwd = c.cwd := by
    obtain ⟨b, -, pair⟩ := Option.map_eq_some_iff.mp ran
    cases pair
    rfl
  cases v with
  | cwd =>
    obtain ⟨tempcwd, path, changed⟩ := Option.bind_eq_some_iff.mp ran
    refine Or.inr ⟨nofun, ?_⟩
    split at changed
    · cases changed
      exact Or.inr path
    · cases changed
      exact Or.inl rfl
  | cdup =>
    cases ran
    exact Or.inl ⟨rfl, rfl⟩
  | site => exact Or.inr ⟨nofun, Or.inl (site_cwd ran)⟩
  | pwd | noop | quit | feat | syst | user | pass | unknown =>
    cases ran
    exact Or.inr ⟨nofun, Or.inl rfl⟩
  | list | mlsd | dele | mkd | rmd | nlst | mlst | size | mdtm =>
    exact Or.inr ⟨nofun, Or.inl (same ran)⟩

@[simp] theorem sclose_control (s : Session) : s.sclose.control = s.control := by
  rw [Session.sclose]
  split <;> rfl

@[simp] theorem tail_control (s : Session) : s.tail.control = s.control := by
  rw [Session.tail]
  split
  · rfl
  · exact sclose_control s

/-- The commands about connections, transfers and renames leave the rest of the session alone. -/
theorem command_control {s s₁ : Session} {v : Verb} {param : Option (List UInt8)} {w : World}
    {actions : List Action} (ran : command s v param w = some (s₁, actions))
    (not' : ∀ p, v ≠ .plain p) : s₁.control = s.control := by
  cases v with
  | pasv =>
    obtain ⟨-, ⟨-, rfl⟩ | ⟨-, rfl⟩⟩ := pasv_cases ran
    · rfl
    · rfl
  | port =>
    obtain ⟨-, ⟨-, rfl⟩ | ⟨p, -, ⟨-, rfl⟩ | ⟨-, rfl⟩⟩⟩ := port_cases ran
    · rfl
    · rfl
    · rfl
  | stor => rw [(stor_cases ran).1]
  | retr => rw [(retr_cases ran).1]
  | type =>
    cases ran
    rfl
  | rest =>
    cases param with
    | none =>
      cases ran
      rfl
    | some p =>
      cases ran
      rfl
  | rnfr =>
    rcases rnfr_cases ran with ⟨-, rfl, -⟩ | ⟨p, path, -, -, rfl, -⟩
    · rfl
    · rfl
  | rnto => rw [(rnto_cases ran).1]
  | abor =>
    cases ran
    exact sclose_control s
  | plain p => exact absurd rfl (not' p)

theorem login_cwd {c c' : Control} {v : Verb} {param : Option (List UInt8)}
    {actions : List PlainAction} (ran : login c v param = some (c', actions)) : c'.cwd = c.cwd := by
  have same {r : Control × List PlainAction} (cwd : r.1.cwd = c.cwd)
      (ran : some r = some (c', actions)) : c'.cwd = c.cwd := by
    cases ran
    exact cwd
  rw [login.eq_def] at ran
  split at ran
  · cases param with
    | none => exact same rfl ran
    | some p =>
      rw [user] at ran
      split at ran
      · exact same rfl ran
      · cases ran
  · refine same ?_ ran
    cases param with
    | none => rfl
    | some p =>
      rw [pass.eq_def]
      dsimp only
      split
      · rfl
      · rfl
  · exact same rfl ran
  · exact same rfl ran

/-- What a turn makes of the working directory. -/
theorem serve_cwd {s s' : Session} {r : Request} {actions : List Action}
    (served : serve s r = some (s', actions)) :
    (s.control.loggedin = true ∧ r.verb = .plain .cdup ∧
        s'.control.cwd = (cdup s.control).1.cwd) ∨
      (¬ (s.control.loggedin = true ∧ r.verb = .plain .cdup) ∧
        (s'.control.cwd = s.control.cwd ∨ tempCwd s.control r.param = some s'.control.cwd)) := by
  by_cases loggedin : s.control.loggedin = true
  · obtain ⟨s₁, ran, rfl⟩ := serve_command loggedin served
    rw [tail_control]
    by_cases plain : ∃ p, r.verb = .plain p
    · obtain ⟨p, verb⟩ := plain
      rw [verb] at ran ⊢
      obtain ⟨⟨c, answer⟩, ran', same⟩ := Option.map_eq_some_iff.mp ran
      cases same
      rcases plainCommand_cwd ran' with ⟨rfl, changed⟩ | ⟨other, changed⟩
      · exact Or.inl ⟨loggedin, rfl, changed⟩
      · exact Or.inr ⟨fun both => other (Verb.plain.inj both.2), changed⟩
    · have other : ∀ p, r.verb ≠ .plain p := fun p verb => plain ⟨p, verb⟩
      exact Or.inr ⟨fun both => other _ both.2,
        Or.inl (congrArg Control.cwd (command_control ran other))⟩
  · rw [serve, if_neg loggedin] at served
    obtain ⟨⟨c, answer⟩, ran, same⟩ := Option.map_eq_some_iff.mp served
    cases same
    exact Or.inr ⟨fun both => loggedin both.1, Or.inl (login_cwd ran)⟩

/-! ## Paths from the root -/

/-- No terminator is in a parameter. -/
theorem param_plain {r : Request} {p : List UInt8} (given : r.param = some p) : 0 ∉ p := by
  intro zero
  obtain ⟨rest, more, rfl⟩ := Option.map_eq_some_iff.mp given
  have behind : rest <:+ commandLine r.data := by
    rw [argument] at more
    split at more
    · cases more
      exact List.drop_suffix _ _
    · cases more
  have line := behind.subset (List.mem_of_mem_take zero)
  have text := (List.takeWhile_prefix _).subset ((List.takeWhile_prefix _).subset line)
  exact cString_plain 0 text rfl

theorem tempCwd_rooted {c : Control} {param : Option (List UInt8)} {path : List UInt8}
    (rooted : Rooted c.cwd) (plain : ∀ p, param = some p → 0 ∉ p)
    (made : tempCwd c param = some path) : Rooted path := by
  have fits {p : List UInt8} (here : (if p.length < 1024 then some p else none) = some path) :
      p = path := by
    split at here
    · exact Option.some.inj here
    · cases here
  cases param with
  | none =>
    cases made
    exact rooted
  | some p =>
    have own := plain p rfl
    rw [tempCwd, absPath] at made
    dsimp only at made
    split at made
    · rename_i absolute
      rw [← fits made]
      exact ⟨absolute, own⟩
    · cases last : c.cwd.getLast? with
      | none =>
        rw [last] at made
        cases made
      | some b =>
        rw [last] at made
        rw [← fits made]
        split
        · exact rooted.append own
        · refine rooted.append ?_
          rw [List.mem_cons]
          rintro (zero | zero)
          · cases zero
          · exact own zero

theorem serve_rooted {s s' : Session} {r : Request} {actions : List Action}
    (rooted : Rooted s.control.cwd) (served : serve s r = some (s', actions)) :
    Rooted s'.control.cwd := by
  rcases serve_cwd served with ⟨-, -, changed⟩ | ⟨-, same | changed⟩
  · rw [changed]
    exact cdup_rooted rooted
  · rwa [same]
  · exact tempCwd_rooted rooted (fun p given => param_plain given) changed

/-! ## Sessions -/

/-- CDUP has led to the parent of the directory the client was in. -/
def Ascends (_ : List SessionTurn) (t : SessionTurn) : Prop :=
  t.before.control.loggedin = true → t.input.verb = .plain .cdup →
    directory t.after.control.cwd = parent (directory t.before.control.cwd)

def FromRoot (_ : List SessionTurn) (t : SessionTurn) : Prop :=
  t.before.control.cwd.head? = some 47 ∧ t.after.control.cwd.head? = some 47

/-- The path is one that CDUP climbs. -/
def Climbing (_ : List SessionTurn) (t : SessionTurn) : Prop :=
  t.before.control.loggedin = true → t.input.verb = .plain .cdup → Climbs t.before.control.cwd

theorem exists_eq_singleton_iff {α : Type} {p : α → Prop} {l : List α} :
    (∃ a, l = [a] ∧ p a) ↔ l.length = 1 ∧ ∀ a ∈ l, p a := by
  constructor
  · rintro ⟨a, rfl, good⟩
    exact ⟨rfl, List.forall_mem_singleton.mpr good⟩
  · rintro ⟨one, all⟩
    obtain ⟨a, rfl⟩ := List.length_eq_one_iff.mp one
    exact ⟨a, rfl, List.forall_mem_singleton.mp all⟩

instance decidableSingleton {α : Type} {p : α → Prop} [DecidablePred p] (l : List α) :
    Decidable (∃ a, l = [a] ∧ p a) :=
  decidable_of_iff _ exists_eq_singleton_iff.symm

instance (path : List UInt8) : Decidable (Climbs path) :=
  inferInstanceAs (Decidable (if path.length ≤ 2 then directory path = [] else _))

instance (before : List SessionTurn) (t : SessionTurn) : Decidable (Climbing before t) :=
  inferInstanceAs (Decidable (_ → _ → _))

instance (before : List SessionTurn) (t : SessionTurn) : Decidable (Ascends before t) :=
  inferInstanceAs (Decidable (_ → _ → _))

/-- In every session the working directory is a path from the root; and every CDUP leads to the
parent exactly if every CDUP meets a path that it climbs. -/
theorem sessionTurns_ascends_iff {ipAddress : List UInt8} {p1 p2 : Nat} {requests : List Request}
    {ts : List SessionTurn} (run : sessionTurns ipAddress p1 p2 requests = some ts) :
    Each FromRoot ts ∧ (Each Ascends ts ↔ Each Climbing ts) := by
  have start : Rooted (handleclient ipAddress p1 p2).control.cwd :=
    ⟨rfl, show (0 : UInt8) ∉ [47] by decide⟩
  have keeps (before : List SessionTurn) (t : SessionTurn) (rooted : Rooted t.before.control.cwd)
      (served : serve t.before t.input = some (t.after, t.outputs)) :
      Rooted t.after.control.cwd := serve_rooted rooted served
  constructor
  · have all : Each FromRoot ts ↔ Each (fun _ _ => True) ts :=
      each_congr (fun _ s => Rooted s.control.cwd) start keeps
        (fun before t rooted served =>
          iff_true_intro ⟨rooted.slash, (serve_rooted rooted served).slash⟩) run
    exact all.mpr fun _ _ _ _ => trivial
  · refine each_congr (fun _ s => Rooted s.control.cwd) start keeps ?_ run
    intro before t rooted served
    refine forall_congr' fun loggedin => forall_congr' fun verb => ?_
    rcases serve_cwd served with ⟨-, -, changed⟩ | ⟨other, -⟩
    · rw [changed]
      exact cdup_parent_iff rooted
    · exact absurd ⟨loggedin, verb⟩ other

/-- A client climbs from a directory with a longer name, and from one with a slash behind its. -/
theorem sessionTurns_ascends : ∃ ts ∈ sessionTurns [49] 4 0
    [emptyLine "PASS x", emptyLine "CWD /a/bc", emptyLine "CDUP", emptyLine "CWD d/",
      emptyLine "CDUP"],
    ts.length = 5 ∧ Each FromRoot ts ∧ Each Ascends ts := by
  obtain ⟨ts, run, length, climbing⟩ : ∃ ts ∈ sessionTurns [49] 4 0
      [emptyLine "PASS x", emptyLine "CWD /a/bc", emptyLine "CDUP", emptyLine "CWD d/",
        emptyLine "CDUP"], ts.length = 5 ∧ Each Climbing ts := by
    decide +kernel
  obtain ⟨rooted, ascends⟩ := sessionTurns_ascends_iff run
  exact ⟨ts, run, length, rooted, ascends.mpr climbing⟩

/-- From a directory named by one character CDUP does not get away. -/
theorem shortName_stays : ∃ ts ∈ sessionTurns [49] 4 0
    [emptyLine "PASS x", emptyLine "CWD /a", emptyLine "CDUP"], ¬ Each Ascends ts := by
  decide +kernel

end FtpDirectories
