import NtfsIsoMounter.StoredRecords

/-!
# Which directories get a record in a directory

`buildContent` takes for children of a directory the later directories whose
path begins with its path and has no slash two places on. These are its own
subdirectories and, besides, the later directories of the same parent whose
name begins with its name. A record whose length byte wraps is lost or cut off.
-/

namespace DirectoryChildren

open CText SectorPacking SourceTrees DirectoryRecords ImageBuild RecordPasses ContentPasses
  ImageTables StoredRecords

/-- Directory `e` is listed behind `d` in the same parent, and its name begins with
the name of `d`. -/
def Hides (dirs : List Dir) (d e : Dir) : Prop :=
  ∃ p ∈ dirs, ∃ pre name tree post, p.tree.dirs = pre ++ (name, tree) :: post ∧
    createPath p.path name = d.path ∧
    ∃ x ∈ post, name <+: x.1 ∧ e = ⟨createPath p.path x.1, x.2⟩

theorem isDirectChild_iff {dir parentCheck : List UInt8} :
    isDirectChild dir parentCheck = true ↔
      ∃ rest, rest ≠ [] ∧ dir = parentCheck ++ rest ∧ 47 ∉ rest.drop 1 := by
  have skip : ∀ rest, (parentCheck ++ rest).drop (parentCheck.length + 1) = rest.drop 1 := by
    intro rest
    rw [List.drop_append, List.drop_of_length_le (by omega), List.nil_append,
      Nat.add_sub_cancel_left]
  constructor
  · intro child
    simp only [isDirectChild] at child
    split at child
    · cases child
    · rename_i different
      split at child
      · cases child
      · rename_i starts
        obtain ⟨rest, rfl⟩ : parentCheck <+: dir := by simpa using starts
        refine ⟨rest, ?_, rfl, ?_⟩
        · rintro rfl
          exact different (List.append_nil _)
        · simpa [skip] using child
  · rintro ⟨rest, nonempty, rfl, plain⟩
    have different : parentCheck ++ rest ≠ parentCheck := by
      intro same
      exact nonempty (List.append_right_eq_self.mp same)
    have starts : parentCheck.isPrefixOf (parentCheck ++ rest) = true :=
      List.isPrefixOf_iff_prefix.mpr (List.prefix_append _ _)
    have clean : 47 ∉ rest.tail := by simpa using plain
    simp [isDirectChild, different, starts, skip, clean]

section Listing
variable {inDir : List UInt8} {tree : SourceTree}

/-- A subdirectory passes the test. -/
theorem subdir_isDirectChild (proper : tree.Proper) {d e : Dir} (hd : d ∈ listDirs inDir tree)
    (child : e ∈ d.subdirs) : isDirectChild e.path d.path = true := by
  obtain ⟨name, member, path⟩ := Dir.mem_subdirs.mp child
  have plain := ((mem_listDirs_proper proper hd).name member).2.1
  exact isDirectChild_iff.mpr ⟨47 :: name, List.cons_ne_nil _ _, path, plain⟩

/-- A directory that passes the test is a subdirectory, or has the same parent
and a name that goes on from the name of the other. -/
theorem isDirectChild_cases (proper : tree.Proper) {d e : Dir} (hd : d ∈ listDirs inDir tree)
    (he : e ∈ listDirs inDir tree) (child : isDirectChild e.path d.path = true) :
    e ∈ d.subdirs ∨ ∃ p ∈ listDirs inDir tree, d ∈ p.subdirs ∧ e ∈ p.subdirs ∧
      ∃ name more, d.path = createPath p.path name ∧ e.path = createPath p.path (name ++ more) := by
  obtain ⟨rest, nonempty, path, plain⟩ := isDirectChild_iff.mp child
  rcases mem_listDirs_parent he with rfl | ⟨p, hp, inner⟩
  · -- the input directory has the shortest path of all
    have shortest := inDir_le d hd
    have length := congrArg List.length path
    rw [List.length_append] at length
    have := List.length_pos_iff.mpr nonempty
    simp only at length
    omega
  · obtain ⟨name', member', path'⟩ := Dir.mem_subdirs.mp inner
    have plain' := ((mem_listDirs_proper proper hp).name member').2.1
    have meet : d.path ++ rest = p.path ++ 47 :: name' := path.symm.trans path'
    cases rest with
    | nil => exact absurd rfl nonempty
    | cons b rest =>
      by_cases slash : b = 47
      · subst slash
        obtain ⟨same, -⟩ := last_slash plain plain' meet
        rw [eq_of_path proper hd hp same]
        exact Or.inl inner
      · have clean : 47 ∉ b :: rest := by
          rintro (_ | ⟨_, behind⟩)
          · exact slash rfl
          · exact plain behind
        right
        rcases mem_listDirs_parent hd with rfl | ⟨q, hq, inner''⟩
        · -- below the input directory its path is followed by a slash
          obtain ⟨a, ha, below⟩ := BreadthFirst.mem_walk_below _ _ he
          obtain ⟨tail, path'', shape⟩ := below_path below
          rw [List.mem_singleton.mp ha, path] at path''
          have tail_eq := List.append_cancel_left path''
          rcases shape with rfl | ⟨more, rfl⟩
          · cases tail_eq
          · exact absurd (List.cons.inj tail_eq).1 slash
        · obtain ⟨name, member, path''⟩ := Dir.mem_subdirs.mp inner''
          have plain'' := ((mem_listDirs_proper proper hq).name member).2.1
          have longer : 47 ∉ name ++ b :: rest := by
            rw [List.mem_append, not_or]
            exact ⟨plain'', clean⟩
          rw [path'', createPath, List.append_assoc, List.cons_append] at meet
          obtain ⟨same, grown⟩ := last_slash longer plain' meet
          have qp := eq_of_path proper hq hp same
          subst qp
          exact ⟨q, hq, inner'', inner, name, b :: rest, path'', by rw [path', grown]⟩

theorem childDirs_split {before after : List Dir} {d : Dir}
    (split : listDirs inDir tree = before ++ d :: after) :
    childDirs (listDirs inDir tree) before.length =
      after.filter (fun e => isDirectChild e.path d.path) := by
  have here : (before ++ d :: after)[before.length]? = some d := by
    rw [List.getElem?_append_right le_rfl, Nat.sub_self, List.getElem?_cons_zero]
  have behind : (before ++ d :: after).drop (before.length + 1) = after := by
    rw [List.drop_append, List.drop_of_length_le (by omega), List.nil_append,
      Nat.add_sub_cancel_left, List.drop_succ_cons, List.drop_zero]
  rw [split, childDirs, here, behind]

/-- No subdirectory is missed, and they come in their order. -/
theorem subdirs_sublist_childDirs (proper : tree.Proper) {before after : List Dir} {d : Dir}
    (split : listDirs inDir tree = before ++ d :: after) :
    d.subdirs.Sublist (childDirs (listDirs inDir tree) before.length) := by
  have hd : d ∈ listDirs inDir tree := by
    rw [split]
    exact List.mem_append_right _ List.mem_cons_self
  rw [childDirs_split split]
  have all : d.subdirs.filter (fun e => isDirectChild e.path d.path) = d.subdirs :=
    List.filter_eq_self.mpr fun e he => subdir_isDirectChild proper hd he
  rw [← all]
  exact (subdirs_sublist proper split).filter _

/-- A child that is no subdirectory is a sibling. -/
theorem hides_of_childDirs (proper : tree.Proper) {before after : List Dir} {d e : Dir}
    (split : listDirs inDir tree = before ++ d :: after)
    (he : e ∈ childDirs (listDirs inDir tree) before.length) :
    e ∈ d.subdirs ∨ Hides (listDirs inDir tree) d e := by
  rw [childDirs_split split] at he
  obtain ⟨later, child⟩ := List.mem_filter.mp he
  have hd : d ∈ listDirs inDir tree := by
    rw [split]
    exact List.mem_append_right _ List.mem_cons_self
  have hel : e ∈ listDirs inDir tree := by
    rw [split]
    exact List.mem_append_right _ (List.mem_cons_of_mem d later)
  rcases isDirectChild_cases proper hd hel child with
    inner | ⟨p, hp, hdp, hep, name, more, path, path'⟩
  · exact Or.inl inner
  · obtain ⟨pre, post, order⟩ := List.append_of_mem hdp
    have behind := (later_subdir proper split hp order hep).mp later
    obtain ⟨pre', tail, parts, -, tail_eq⟩ := List.map_eq_append_iff.mp order
    obtain ⟨⟨name', tree'⟩, post', rfl, this, rfl⟩ := List.map_eq_cons_iff.mp tail_eq
    obtain ⟨⟨name'', tree''⟩, member, named⟩ := List.mem_map.mp behind
    have own : createPath p.path name' = d.path := by rw [← this]
    have first : name' = name :=
      (List.cons.inj (List.append_cancel_left (own.trans path))).2
    have second : name'' = name ++ more := by
      rw [← named] at path'
      exact (List.cons.inj (List.append_cancel_left path')).2
    refine Or.inr ⟨p, hp, pre', name', tree', post', parts, own, _, member, ?_, named.symm⟩
    rw [first, second]
    exact List.prefix_append _ _

theorem mem_listDirs_subdirs (proper : tree.Proper) {p d : Dir} (hp : p ∈ listDirs inDir tree)
    (child : d ∈ p.subdirs) : d ∈ listDirs inDir tree := by
  obtain ⟨before, after, split⟩ := List.append_of_mem hp
  rw [split]
  exact List.mem_append_right _
    (List.mem_cons_of_mem p ((subdirs_sublist proper split).subset child))

/-- A later sibling with a longer name stands among the children. -/
theorem sibling_mem_childDirs (proper : tree.Proper) {before after pre post : List Dir}
    {d e p : Dir} (split : listDirs inDir tree = before ++ d :: after)
    (hp : p ∈ listDirs inDir tree) (order : p.subdirs = pre ++ d :: post) (he : e ∈ post)
    {name more : List UInt8} (path : d.path = createPath p.path name)
    (path' : e.path = createPath p.path (name ++ more)) (longer : more ≠ []) :
    e ∈ childDirs (listDirs inDir tree) before.length := by
  have inner : e ∈ p.subdirs := by
    rw [order]
    exact List.mem_append_right _ (List.mem_cons_of_mem d he)
  obtain ⟨name', member, named⟩ := Dir.mem_subdirs.mp inner
  have same : name' = name ++ more :=
    (List.cons.inj (List.append_cancel_left (named.symm.trans path'))).2
  have plain : 47 ∉ name ++ more := same ▸ ((mem_listDirs_proper proper hp).name member).2.1
  rw [childDirs_split split]
  apply List.mem_filter.mpr
  refine ⟨(later_subdir proper split hp order inner).mpr he, ?_⟩
  apply isDirectChild_iff.mpr
  refine ⟨more, longer, ?_, ?_⟩
  · rw [path', path, createPath, createPath, List.append_assoc, List.cons_append]
  · intro slash
    exact plain (List.mem_append_right _ (List.mem_of_mem_drop slash))

/-- A hidden sibling stands among the children and is no subdirectory. -/
theorem Hides.child (proper : tree.Proper) {before after : List Dir} {d e : Dir}
    (split : listDirs inDir tree = before ++ d :: after)
    (hidden : Hides (listDirs inDir tree) d e) :
    e ∈ childDirs (listDirs inDir tree) before.length ∧ e ∉ d.subdirs := by
  obtain ⟨p, hp, pre, name, tree', post, parts, own, ⟨name', tree''⟩, member, ⟨more, rfl⟩, rfl⟩ :=
    hidden
  have hd : d ∈ listDirs inDir tree := by
    rw [split]
    exact List.mem_append_right _ List.mem_cons_self
  have order : p.subdirs = pre.map (fun e => ⟨createPath p.path e.1, e.2⟩) ++
      ⟨createPath p.path name, tree'⟩ :: post.map (fun e => ⟨createPath p.path e.1, e.2⟩) := by
    rw [Dir.subdirs, parts, List.map_append, List.map_cons]
  have this : (⟨createPath p.path name, tree'⟩ : Dir) = d := by
    have inner : (⟨createPath p.path name, tree'⟩ : Dir) ∈ p.subdirs := by
      rw [order]
      exact List.mem_append_right _ List.mem_cons_self
    exact eq_of_path proper (mem_listDirs_subdirs proper hp inner) hd own
  rw [this] at order
  have longer : more ≠ [] := by
    rintro rfl
    have names := (mem_listDirs_proper proper hp).names_nodup
    rw [parts, List.map_append, List.map_cons] at names
    have once := (List.nodup_cons.mp (List.nodup_middle.mp names)).1
    apply once
    rw [List.append_nil] at member
    exact List.mem_append_right _ (List.mem_map.mpr ⟨_, member, rfl⟩)
  refine ⟨sibling_mem_childDirs proper split hp order (List.mem_map_of_mem member) own.symm
    rfl longer, fun extra => ?_⟩
  -- a subdirectory has a slash where the name of the sibling goes on
  obtain ⟨name'', deeper, path⟩ := Dir.mem_subdirs.mp extra
  have plain'' := ((mem_listDirs_proper proper hd).name deeper).2.1
  have plain : 47 ∉ name ++ more := by
    have inside : (name ++ more, tree'') ∈ p.tree.dirs := by
      rw [parts]
      exact List.mem_append_right _ (List.mem_cons_of_mem _ member)
    exact ((mem_listDirs_proper proper hp).name inside).2.1
  obtain ⟨up, -⟩ := last_slash plain plain'' path
  have length := congrArg List.length (up.trans own.symm)
  rw [createPath, List.length_append, List.length_cons] at length
  omega

/-- Children that are picked so that all subdirectories and no sibling are among them. -/
theorem filter_childDirs (proper : tree.Proper) {before after : List Dir} {d : Dir}
    (split : listDirs inDir tree = before ++ d :: after) {f : Dir → Bool}
    (own : ∀ e ∈ d.subdirs, f e = true)
    (others : ∀ e, Hides (listDirs inDir tree) d e → f e = false) :
    (childDirs (listDirs inDir tree) before.length).filter f = d.subdirs := by
  have sublist : d.subdirs.Sublist
      ((childDirs (listDirs inDir tree) before.length).filter f) := by
    rw [← List.filter_eq_self.mpr own]
    exact (subdirs_sublist_childDirs proper split).filter f
  have nodup : ((childDirs (listDirs inDir tree) before.length).filter f).Nodup := by
    have all : (before ++ d :: after).Nodup := split ▸ listDirs_nodup proper
    rw [childDirs_split split]
    exact (((List.nodup_append.mp all).2.1.of_cons).filter _).filter _
  have subset : ∀ e ∈ (childDirs (listDirs inDir tree) before.length).filter f, e ∈ d.subdirs := by
    intro e he
    obtain ⟨child, picked⟩ := List.mem_filter.mp he
    rcases hides_of_childDirs proper split child with inner | hidden
    · exact inner
    · rw [others e hidden] at picked
      cases picked
  have short := (nodup.subperm subset).length_le
  exact (sublist.eq_of_length (le_antisymm sublist.length_le short)).symm

/-- Without such a sibling the children are the subdirectories. -/
theorem childDirs_eq (proper : tree.Proper) {before after : List Dir} {d : Dir}
    (split : listDirs inDir tree = before ++ d :: after)
    (none' : ∀ e, ¬ Hides (listDirs inDir tree) d e) :
    childDirs (listDirs inDir tree) before.length = d.subdirs := by
  have all := filter_childDirs proper split (f := fun _ => true) (fun _ _ => rfl)
    fun e hidden => absurd hidden (none' e)
  rwa [List.filter_true] at all

end Listing

/-! ## The records -/

/-- How many bytes the identifier of a directory has. -/
def identLength (joliet : Bool) (e : Dir) : Nat := (dirIdent joliet (baseName e.path)).length

/-- A record is stored for the directory: its length byte has not become zero. -/
def visible (joliet : Bool) (e : Dir) : Bool :=
  !decide (identLength joliet e = 216 ∨ identLength joliet e = 217)

theorem visible_iff {joliet : Bool} {e : Dir} :
    visible joliet e = true ↔ ¬ (identLength joliet e = 216 ∨ identLength joliet e = 217) := by
  rw [visible, Bool.not_eq_true', decide_eq_false_iff_not]

theorem short_iff {ident : List UInt8} : Short ident ↔ ident.length ≤ 215 := by
  rw [Short]
  omega

theorem visible_of_short {joliet : Bool} {e : Dir} (short : identLength joliet e ≤ 215) :
    visible joliet e = true := by
  rw [visible_iff]
  omega

section Records
variable {stat : List UInt8 → Option Stat} {joliet : Bool} {dirs : List Dir}

/-- The stored record is that of the directory, with its whole identifier. -/
def Names (stat : List UInt8 → Option Stat) (joliet : Bool) (record : List UInt8) (e : Dir) :
    Prop :=
  ∃ r, dirRecord stat joliet e = some r ∧ record = r.bytes ∧ recordIdent record = r.ident

/-- The directory records of the content belong to these directories, one to each. -/
def Corresponds (stat : List UInt8 → Option Stat) (joliet : Bool) (content : List UInt8)
    (ds : List Dir) : Prop :=
  ∃ l : List Dir, l.Perm ds ∧ List.Forall₂ (Names stat joliet) (storedDirectories content) l

theorem dirRecord_fields {e : Dir} {r : Record} (made : dirRecord stat joliet e = some r) :
    r.flags = isoDirectory ∧ r.ident = dirIdent joliet (baseName e.path) := by
  obtain ⟨s, -, same⟩ := Option.bind_eq_some_iff.mp made
  rw [← Option.some.inj same]
  exact ⟨rfl, rfl⟩

theorem forall₂_mapM {α β : Type} {f : α → Option β} {l : List α} {out : List β}
    (mapped : l.mapM f = some out) : List.Forall₂ (fun b a => f a = some b) out l := by
  rw [mapM_eq_some] at mapped
  induction l generalizing out with
  | nil =>
    rw [List.map_nil, eq_comm, List.map_eq_nil_iff] at mapped
    rw [mapped]
    exact .nil
  | cons a l ih =>
    rw [List.map_cons, eq_comm, List.map_eq_cons_iff] at mapped
    obtain ⟨b, rest, rfl, first, behind⟩ := mapped
    exact .cons first.symm (ih behind.symm)

theorem forall₂_exists {α β : Type} {R : α → β → Prop} {xs : List α} {ys : List β}
    (related : List.Forall₂ R xs ys) : ∀ y ∈ ys, ∃ x ∈ xs, R x y := by
  induction related with
  | nil => exact fun y none' => absurd none' List.not_mem_nil
  | cons here _ ih =>
    refine List.forall_mem_cons.mpr ⟨⟨_, List.mem_cons_self, here⟩, fun y member => ?_⟩
    obtain ⟨x, among, own⟩ := ih y member
    exact ⟨x, List.mem_cons_of_mem _ among, own⟩

theorem mem_fileRecords {files : List FileEntry} {parts : List (List Record)}
    (made : files.mapM (fileRecords stat joliet) = some parts) {r : Record}
    (member : r ∈ parts.flatten) : ∃ time e t, r = fileRecord joliet time e t := by
  obtain ⟨rs, part, own⟩ := List.mem_flatten.mp member
  obtain ⟨e, -, record⟩ : ∃ e ∈ files, fileRecords stat joliet e = some rs := by
    have mapped := mapM_eq_some.mp made
    have listed : some rs ∈ files.map (fileRecords stat joliet) := by
      rw [mapped]
      exact List.mem_map_of_mem part
    exact List.mem_map.mp listed
  obtain ⟨time, rfl⟩ := fileRecords_eq record
  obtain ⟨t, -, rfl⟩ := List.mem_map.mp own
  exact ⟨time, e, t, rfl⟩

/-- No record of a file has the flag of a directory, and none is cut off. -/
theorem isDirectory_file {files : List FileEntry} {parts : List (List Record)}
    (made : files.mapM (fileRecords stat joliet) = some parts) :
    ∀ b ∈ (parts.flatten).map Record.bytes, isDirectory b = false := by
  intro b among
  obtain ⟨r, member, rfl⟩ := List.mem_map.mp among
  obtain ⟨time, e, t, rfl⟩ := mem_fileRecords made member
  have flags : (fileRecord joliet time e t).flags &&& isoDirectory = 0 := by
    rw [fileRecord]
    dsimp only
    split <;> decide
  have long : ¬ (fileRecord joliet time e t).bytes.length ≤ 25 := by
    have short : Short (fileRecord joliet time e t).ident := short_fileIdent joliet _
    rw [Record.bytes_length short, lenDr_toNat short]
    omega
  rw [isDirectory_bytes, flags, bne_self_eq_false, Bool.or_false, decide_eq_false long]

/-- The directory records that a new content stores are those of the children. -/
theorem storedDirectories_fresh {files : List FileEntry} {i : Nat} {dot dotDot : Record}
    {entries children : List Record}
    (fresh : Fresh stat joliet dirs files i dot dotDot entries children) :
    storedDirectories (packed (dot :: dotDot :: (entries ++ children))) =
      kept (children.map Record.bytes) := by
  obtain ⟨self, up, ⟨parts, made, rfl⟩, made'⟩ := fresh
  have marked : ∀ rs : List Record, ∀ b ∈ rs.map Record.bytes, Marked b := by
    intro rs b among
    obtain ⟨r, -, rfl⟩ := List.mem_map.mp among
    exact marked_bytes r
  have head {r : Record} (length : r.bytes.length = 40) (bs : List (List UInt8)) :
      kept (r.bytes :: bs) = r.bytes :: kept bs := by
    refine List.filter_cons_of_pos ?_
    cases bytes : r.bytes with
    | nil =>
      rw [bytes] at length
      cases length
    | cons b more => rfl
  have files' : (kept (parts.flatten.map Record.bytes)).filter isDirectory = [] := by
    refine List.filter_eq_nil_iff.mpr fun b among => ?_
    rw [isDirectory_file made b (List.mem_of_mem_filter among)]
    exact Bool.false_ne_true
  have children' : (kept (children.map Record.bytes)).filter isDirectory =
      kept (children.map Record.bytes) := by
    refine List.filter_eq_self.mpr fun b among => ?_
    obtain ⟨r, member, rfl⟩ := List.mem_map.mp (List.mem_of_mem_filter among)
    obtain ⟨e, -, own⟩ := forall₂_exists (forall₂_mapM made').flip r member
    have flags : (isoDirectory &&& isoDirectory != 0) = true := by decide
    rw [isDirectory_bytes, (dirRecord_fields own).1, flags, Bool.or_true]
  rw [storedDirectories, packed, storedRecords_pack (marked _), List.map_cons, List.map_cons,
    head (dot_length self), head (dotDot_length up), List.drop_succ_cons, List.drop_succ_cons,
    List.drop_zero, List.map_append, kept, List.filter_append, List.filter_append]
  exact (congrArg₂ _ files' children').trans (List.nil_append _)

theorem forall₂_filter {α β : Type} {R : α → β → Prop} {p : α → Bool} {q : β → Bool}
    (same : ∀ a b, R a b → p a = q b) {xs : List α} {ys : List β} (related : List.Forall₂ R xs ys) :
    List.Forall₂ R (xs.filter p) (ys.filter q) := by
  induction related with
  | nil => exact .nil
  | @cons a b xs ys here _ ih =>
    rw [List.filter_cons, List.filter_cons, same a b here]
    split
    · exact .cons here ih
    · exact ih

/-- They are the records of the children that are visible. -/
theorem storedDirectories_children {files : List FileEntry} {i : Nat} {dot dotDot : Record}
    {entries children : List Record}
    (fresh : Fresh stat joliet dirs files i dot dotDot entries children) :
    List.Forall₂ (fun b e => ∃ r, dirRecord stat joliet e = some r ∧ b = r.bytes)
      (storedDirectories (packed (dot :: dotDot :: (entries ++ children))))
      ((childDirs dirs i).filter (visible joliet)) := by
  have related := forall₂_mapM fresh.children
  rw [storedDirectories_fresh fresh, kept, List.filter_map, List.forall₂_map_left_iff]
  have picked := forall₂_filter (p := fun r => !r.bytes.isEmpty) (q := visible joliet) ?_ related
  · exact picked.imp fun r e made => ⟨r, made, rfl⟩
  · intro r e made
    have ident := (dirRecord_fields made).2
    have lost := bytes_eq_nil_iff (ident ▸ dirIdent_length joliet (baseName e.path))
    rw [visible, identLength, ← ident, Bool.eq_iff_iff, Bool.not_eq_true', Bool.not_eq_true',
      decide_eq_false_iff_not, ← lost, ← Bool.not_eq_true, List.isEmpty_iff]

/-- In both passes the directory records in a new content correspond to the
subdirectories exactly where the subdirectories have identifiers of at most 215
bytes, and no later sibling has a name that begins with that of the directory,
except one whose record is lost. -/
theorem childRecords_iff {tempBufSize : Nat} {inDir : List UInt8} {tree : SourceTree}
    {files : List (List FileEntry)} (proper : tree.Proper) {i : Nat} {d : Dir}
    (here : (listDirs inDir tree)[i]? = some d) {st : Pass} {content : List UInt8}
    (ok : buildContents stat joliet tempBufSize (listDirs inDir tree) files 0
      ((listDirs inDir tree).take (i + 1)) ⟨[], 0⟩ = .ok st)
    (own : st.contents[i]? = some content) :
    Corresponds stat joliet content d.subdirs ↔
      (∀ e ∈ d.subdirs, identLength joliet e ≤ 215) ∧
        ∀ e, Hides (listDirs inDir tree) d e →
          identLength joliet e = 216 ∨ identLength joliet e = 217 := by
  obtain ⟨before, after, split, rfl⟩ : ∃ before after,
      listDirs inDir tree = before ++ d :: after ∧ before.length = i := by
    obtain ⟨inside, rfl⟩ := List.getElem?_eq_some_iff.mp here
    refine ⟨(listDirs inDir tree).take i, (listDirs inDir tree).drop (i + 1), ?_, ?_⟩
    · rw [← List.drop_eq_getElem_cons, List.take_append_drop]
    · rw [List.length_take]
      omega
  obtain ⟨mid, sizes, -, count, heads, turn⟩ :=
    buildContents_last (listDirs_keys proper joliet) here ok
  rw [← count] at turn
  obtain ⟨contents, dot, dotDot, entries, children, stored, fresh, changed⟩ :=
    buildContent_fresh heads turn
  have length : contents.length = mid.contents.length := by
    rcases changed with rfl | ⟨p, above, pos, start, size, -, -, rfl⟩
    · rfl
    · exact List.length_set
  rw [stored, ← count, ← length, List.getElem?_concat_length] at own
  rw [← Option.some.inj own]
  have related := storedDirectories_children fresh
  rw [count] at related
  constructor
  · rintro ⟨l, perm, names⟩
    have short : ∀ e ∈ d.subdirs, identLength joliet e ≤ 215 := by
      intro e he
      obtain ⟨b, -, r, made, rfl, read⟩ := forall₂_exists names e (perm.mem_iff.mpr he)
      have ident := (dirRecord_fields made).2
      have fits := short_of_recordIdent (ident ▸ dirIdent_length joliet _) read
      rw [Short, ident] at fits
      rw [identLength]
      omega
    refine ⟨short, fun e hidden => ?_⟩
    obtain ⟨child, other⟩ := hidden.child proper split
    have sublist : d.subdirs.Sublist
        ((childDirs (listDirs inDir tree) before.length).filter (visible joliet)) := by
      rw [← List.filter_eq_self.mpr fun e he => visible_of_short (short e he)]
      exact (subdirs_sublist_childDirs proper split).filter _
    have same : d.subdirs =
        (childDirs (listDirs inDir tree) before.length).filter (visible joliet) := by
      refine sublist.eq_of_length ?_
      rw [← related.length_eq, names.length_eq, perm.length_eq]
    by_contra seen
    rw [same] at other
    exact other (List.mem_filter.mpr ⟨child, visible_iff.mpr seen⟩)
  · rintro ⟨short, lost⟩
    have same := filter_childDirs proper split (f := visible joliet)
      (fun e he => visible_of_short (short e he)) fun e hidden => by
        rw [← Bool.not_eq_true, visible_iff, not_not]
        exact lost e hidden
    rw [same] at related
    refine ⟨d.subdirs, List.Perm.refl _, ?_⟩
    have both := (List.forall₂_and_left _ _).mpr ⟨short, related.flip⟩
    refine both.flip.imp ?_
    rintro b e ⟨fits, r, made, rfl⟩
    have ident := (dirRecord_fields made).2
    have short' : Short r.ident := ident ▸ short_iff.mpr fits
    exact ⟨r, made, rfl, (Record.isRecord short').2⟩

end Records

/-! ## Two sibling directories -/

section Siblings

/-- Directories `a` and `ab`, both empty. -/
def siblings : SourceTree :=
  .dir true [] [(ascii "a", .dir true [] []), (ascii "ab", .dir true [] [])]

def anyStat (_ : List UInt8) : Option Stat := some ⟨0, ⟨0, 0, 0, 0, 0, 0⟩⟩

theorem siblings_proper : siblings.Proper := by
  have leaf : (SourceTree.dir true [] []).Proper := .empty true
  refine .dir ?_ (by decide) ?_
  · decide
  · intro name tree member
    rcases List.mem_cons.mp member with same | member
    · rw [(Prod.mk.inj same).2]
      exact leaf
    · rw [(Prod.mk.inj (List.mem_singleton.mp member)).2]
      exact leaf

/-- The input directory has no sibling, and its content holds the records of both. -/
theorem childRecords_iff_first : ∃ st content,
    buildContents anyStat true 0x100000 (listDirs (ascii "/in") siblings) [] 0
      ((listDirs (ascii "/in") siblings).take 1) ⟨[], 0⟩ = .ok st ∧
    st.contents[0]? = some content ∧
    Corresponds anyStat true content (Dir.subdirs ⟨ascii "/in", siblings⟩) := by
  obtain ⟨st, ok⟩ := ok_of_isSome (x := buildContents anyStat true 0x100000
    (listDirs (ascii "/in") siblings) [] 0 ((listDirs (ascii "/in") siblings).take 1) ⟨[], 0⟩)
    (by decide +kernel)
  obtain ⟨content, own⟩ : ∃ content, st.contents[0]? = some content := by
    have made : (buildContents anyStat true 0x100000 (listDirs (ascii "/in") siblings) [] 0
        ((listDirs (ascii "/in") siblings).take 1) ⟨[], 0⟩).toOption.bind
          (fun st => st.contents[0]?) ≠ none := by
      decide +kernel
    rw [ok] at made
    exact Option.ne_none_iff_exists'.mp made
  refine ⟨st, content, ok, own, (childRecords_iff siblings_proper rfl ok own).mpr ⟨?_, ?_⟩⟩
  · decide +kernel
  · rintro e ⟨p, hp, pre, name, tree, post, -, path, -⟩
    have longer : (createPath p.path name).length = (ascii "/in").length :=
      congrArg List.length path
    have shortest := inDir_le p hp
    rw [createPath, List.length_append, List.length_cons] at longer
    omega

/-- `a` has no subdirectory; both passes succeed and store a record in its content. -/
theorem sibling_record : (listDirs (ascii "/in") siblings)[1]? =
      some ⟨ascii "/in/a", .dir true [] []⟩ ∧
    (build anyStat 0x100000 (ascii "/in") siblings).toOption.isSome = true ∧
    ∀ joliet, ∃ st content,
      buildContents anyStat joliet 0x100000 (listDirs (ascii "/in") siblings) [] 0
        ((listDirs (ascii "/in") siblings).take 2) ⟨[], 0⟩ = .ok st ∧
      st.contents[1]? = some content ∧
      ¬ Corresponds anyStat joliet content (Dir.subdirs ⟨ascii "/in/a", .dir true [] []⟩) := by
  refine ⟨rfl, by decide +kernel, fun joliet => ?_⟩
  obtain ⟨st, ok⟩ := ok_of_isSome (x := buildContents anyStat joliet 0x100000
    (listDirs (ascii "/in") siblings) [] 0 ((listDirs (ascii "/in") siblings).take 2) ⟨[], 0⟩)
    (by cases joliet <;> decide +kernel)
  have stored : (buildContents anyStat joliet 0x100000 (listDirs (ascii "/in") siblings) [] 0
      ((listDirs (ascii "/in") siblings).take 2) ⟨[], 0⟩).toOption.bind
        (fun st => st.contents[1]?.map fun content => (storedDirectories content).length) =
      some 1 := by
    cases joliet <;> decide +kernel
  rw [ok] at stored
  obtain ⟨content, own, count⟩ := Option.map_eq_some_iff.mp stored
  refine ⟨st, content, ok, own, ?_⟩
  rintro ⟨l, perm, names⟩
  have length := names.length_eq.trans perm.length_eq
  rw [count] at length
  cases length

end Siblings

end DirectoryChildren
