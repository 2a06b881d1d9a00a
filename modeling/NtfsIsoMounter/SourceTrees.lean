import NtfsIsoMounter.BreadthFirst

/-!
# Input directories of the image generator

`build` lists the input tree breadth first; a listed directory is known to the
later passes by its path alone. A parent is found again by cutting the last
component off a path, a child by a prefix test.
-/

namespace SourceTrees

open BreadthFirst

/-- The fields `genIso9660Time` takes from a modification time. -/
structure RecordTime where
  year : UInt8
  month : UInt8
  day : UInt8
  hour : UInt8
  minute : UInt8
  second : UInt8

structure Stat where
  size : Nat
  mtime : RecordTime

/-- A directory as `scandir` presents it, `.` and `..` left out, both listings in
the order of `alphasort`; a scan for files that fails lists none. -/
inductive SourceTree where
  | dir (opens : Bool) (files : List (List UInt8)) (dirs : List (List UInt8 × SourceTree))

namespace SourceTree

def opens : SourceTree → Bool
  | .dir opens _ _ => opens

def files : SourceTree → List (List UInt8)
  | .dir _ files _ => files

def dirs : SourceTree → List (List UInt8 × SourceTree)
  | .dir _ _ dirs => dirs

mutual
/-- Number of directories, the tree itself included. -/
def dirCount : SourceTree → Nat
  | .dir _ _ dirs => 1 + dirCountAll dirs

def dirCountAll : List (List UInt8 × SourceTree) → Nat
  | [] => 0
  | (_, tree) :: rest => tree.dirCount + dirCountAll rest
end

/-- No slash and no terminator in a name, and no name twice. -/
inductive Proper : SourceTree → Prop where
  | dir {opens : Bool} {files : List (List UInt8)} {dirs : List (List UInt8 × SourceTree)}
      (plain : ∀ name ∈ files ++ dirs.map Prod.fst, name ≠ [] ∧ 47 ∉ name ∧ 0 ∉ name)
      (distinct : (files ++ dirs.map Prod.fst).Nodup)
      (below : ∀ name tree, (name, tree) ∈ dirs → Proper tree) : Proper (.dir opens files dirs)

end SourceTree

/-- A node of the list that starts at `rootList`. -/
structure Dir where
  path : List UInt8
  tree : SourceTree

def createPath (dir file : List UInt8) : List UInt8 := dir ++ 47 :: file

def Dir.subdirs (d : Dir) : List Dir :=
  d.tree.dirs.map (fun e => ⟨createPath d.path e.1, e.2⟩)

/-- The first loop of `build`: the list it leaves, `idx` being the position. -/
def listDirs (inDir : List UInt8) (tree : SourceTree) : List Dir :=
  walk Dir.subdirs tree.dirCount [⟨inDir, tree⟩]

/-- What `strrchr(path, '/')` cuts off. -/
def dirName (path : List UInt8) : List UInt8 :=
  (path.reverse.dropWhile (· != 47)).drop 1 |>.reverse

/-- `strrchr(path, '/') + 1` -/
def baseName (path : List UInt8) : List UInt8 := (path.reverse.takeWhile (· != 47)).reverse

/-- The position of the parent in the list; a directory without one is its own. -/
def getParent (dirs : List Dir) (i : Nat) : Nat :=
  match dirs[i]? with
  | none => i
  | some d =>
    if i = 0 then 0 else (dirs.findIdx? (fun e => dirName d.path == e.path)).getD i

def isDirectChild (dir parentCheck : List UInt8) : Bool :=
  if dir = parentCheck then false
  else if !parentCheck.isPrefixOf dir then false
  else !(dir.drop (parentCheck.length + 1)).contains 47

/-- The directories for which `buildContent` puts a record into directory `i`. -/
def childDirs (dirs : List Dir) (i : Nat) : List Dir :=
  match dirs[i]? with
  | none => []
  | some d => (dirs.drop (i + 1)).filter (fun e => isDirectChild e.path d.path)

/-! ## Paths in a listing -/

theorem dirCount_eq (tree : SourceTree) :
    tree.dirCount = 1 + (tree.dirs.map (fun e => e.2.dirCount)).sum := by
  cases tree with
  | dir opens files dirs =>
    have all : ∀ l, SourceTree.dirCountAll l = (l.map (fun e => e.2.dirCount)).sum := by
      intro l
      induction l with
      | nil => rfl
      | cons e rest ih => rw [SourceTree.dirCountAll, ih, List.map_cons, List.sum_cons]
    rw [SourceTree.dirCount, all, SourceTree.dirs]

theorem weighs_dirCount : Weighs Dir.subdirs (fun d => d.tree.dirCount) := by
  intro d
  simp only [Dir.subdirs, List.map_map, Function.comp_def]
  exact (dirCount_eq d.tree).ge

theorem Dir.mem_subdirs {d e : Dir} :
    e ∈ d.subdirs ↔ ∃ name, (name, e.tree) ∈ d.tree.dirs ∧ e.path = createPath d.path name := by
  simp only [subdirs, List.mem_map]
  constructor
  · rintro ⟨⟨name, tree⟩, member, rfl⟩
    exact ⟨name, member, rfl⟩
  · rintro ⟨name, member, path⟩
    exact ⟨(name, e.tree), member, by rw [← path]⟩

theorem SourceTree.Proper.empty (opens : Bool) : (SourceTree.dir opens [] []).Proper := by
  refine .dir ?_ List.nodup_nil ?_
  · intro name member
    cases member
  · intro name tree member
    cases member

theorem SourceTree.Proper.name {tree : SourceTree} (proper : tree.Proper)
    {e : List UInt8 × SourceTree} (member : e ∈ tree.dirs) :
    e.1 ≠ [] ∧ 47 ∉ e.1 ∧ 0 ∉ e.1 := by
  cases proper with
  | dir plain distinct below =>
    exact plain e.1 (List.mem_append_right _ (List.mem_map_of_mem member))

theorem SourceTree.Proper.sub {tree : SourceTree} (proper : tree.Proper)
    {e : List UInt8 × SourceTree} (member : e ∈ tree.dirs) : e.2.Proper := by
  cases proper with
  | dir plain distinct below => exact below e.1 e.2 member

theorem SourceTree.Proper.names_nodup {tree : SourceTree} (proper : tree.Proper) :
    (tree.dirs.map Prod.fst).Nodup := by
  cases proper with
  | dir plain distinct below => exact (List.nodup_append.mp distinct).2.1

/-- Below a directory every path goes on from its path at a slash. -/
theorem below_path {d e : Dir} (below : Below Dir.subdirs d e) :
    ∃ tail, e.path = d.path ++ tail ∧ (tail = [] ∨ ∃ more, tail = 47 :: more) := by
  induction below with
  | refl => exact ⟨[], (List.append_nil _).symm, Or.inl rfl⟩
  | tail _ child ih =>
    obtain ⟨tail, path, shape⟩ := ih
    obtain ⟨name, -, path'⟩ := Dir.mem_subdirs.mp child
    refine ⟨tail ++ 47 :: name, ?_, ?_⟩
    · rw [path', path, createPath, List.append_assoc]
    · rcases shape with rfl | ⟨more, rfl⟩
      · exact Or.inr ⟨name, rfl⟩
      · exact Or.inr ⟨more ++ 47 :: name, rfl⟩

theorem takeWhile_name {name tail : List UInt8} (plain : 47 ∉ name)
    (shape : tail = [] ∨ ∃ more, tail = 47 :: more) :
    (name ++ tail).takeWhile (· != 47) = name := by
  have all : ∀ b ∈ name, (b != 47) = true := by
    intro b hb
    rw [bne_iff_ne]
    rintro rfl
    exact plain hb
  rw [List.takeWhile_append_of_pos all]
  rcases shape with rfl | ⟨more, rfl⟩ <;> simp

/-- The last slash of a path is where its last component begins. -/
theorem last_slash {p q a b : List UInt8} (ha : 47 ∉ a) (hb : 47 ∉ b)
    (same : p ++ 47 :: a = q ++ 47 :: b) : p = q ∧ a = b := by
  have reversed := congrArg List.reverse same
  simp only [List.reverse_append, List.reverse_cons, List.append_assoc,
    List.singleton_append] at reversed
  have last := congrArg (List.takeWhile (· != 47)) reversed
  rw [takeWhile_name (fun h => ha (List.mem_reverse.mp h)) (Or.inr ⟨_, rfl⟩),
    takeWhile_name (fun h => hb (List.mem_reverse.mp h)) (Or.inr ⟨_, rfl⟩)] at last
  have hab := List.reverse_injective last
  subst hab
  exact ⟨List.append_cancel_right same, rfl⟩

theorem forest_subdirs :
    Forest Dir.subdirs Dir.path (fun d => d.tree.Proper) := by
  constructor
  · intro d proper e child
    obtain ⟨name, member, -⟩ := Dir.mem_subdirs.mp child
    exact proper.sub member
  · intro d proper
    apply List.pairwise_map.mpr
    have distinct : d.tree.dirs.Pairwise (fun e f => e.1 ≠ f.1) :=
      List.pairwise_map.mp proper.names_nodup
    apply distinct.imp_of_mem
    intro e f he hf different x y hx hy same
    obtain ⟨tail, path, shape⟩ := below_path hx
    obtain ⟨tail', path', shape'⟩ := below_path hy
    rw [path, path'] at same
    simp only [createPath, List.append_assoc, List.cons_append] at same
    have rest := (List.cons.inj (List.append_cancel_left same)).2
    have name := congrArg (List.takeWhile (· != 47)) rest
    rw [takeWhile_name (proper.name he).2.1 shape,
      takeWhile_name (proper.name hf).2.1 shape'] at name
    exact different name
  · intro d proper c child x below same
    obtain ⟨name, -, path⟩ := Dir.mem_subdirs.mp child
    obtain ⟨tail, path', -⟩ := below_path below
    have length := congrArg List.length same
    rw [path', path, createPath] at length
    simp only [List.length_append, List.length_cons] at length
    omega

section Listing
variable {inDir : List UInt8} {tree : SourceTree}

theorem enough_dirCount :
    Enough (fun d : Dir => d.tree.dirCount) tree.dirCount [⟨inDir, tree⟩] := by
  simp [Enough]

theorem listDirs_length : (listDirs inDir tree).length = tree.dirCount := by
  have exact : ∀ d : Dir, 1 + (d.subdirs.map fun e => e.tree.dirCount).sum = d.tree.dirCount := by
    intro d
    simp only [Dir.subdirs, List.map_map, Function.comp_def]
    exact (dirCount_eq d.tree).symm
  rw [listDirs, walk_length exact _ _ enough_dirCount, List.map_singleton, List.sum_singleton]

/-- No path is listed twice. -/
theorem listDirs_paths_nodup (proper : tree.Proper) :
    ((listDirs inDir tree).map Dir.path).Nodup := by
  apply walk_nodup forest_subdirs
  · intro d hd
    rw [List.mem_singleton.mp hd]
    exact proper
  · exact List.pairwise_singleton _ _

theorem listDirs_nodup (proper : tree.Proper) : (listDirs inDir tree).Nodup :=
  (listDirs_paths_nodup proper).of_map

theorem eq_of_path (proper : tree.Proper) {d e : Dir} (hd : d ∈ listDirs inDir tree)
    (he : e ∈ listDirs inDir tree) (same : d.path = e.path) : d = e :=
  List.inj_on_of_nodup_map (listDirs_paths_nodup proper) hd he same

theorem mem_listDirs_proper (proper : tree.Proper) {d : Dir} (hd : d ∈ listDirs inDir tree) :
    d.tree.Proper := by
  apply forest_subdirs.mem_walk _ _ hd
  intro e he
  rw [List.mem_singleton.mp he]
  exact proper

/-- A listed directory is the input directory or a subdirectory of a listed one. -/
theorem mem_listDirs_parent {d : Dir} (hd : d ∈ listDirs inDir tree) :
    d = ⟨inDir, tree⟩ ∨ ∃ p ∈ listDirs inDir tree, d ∈ p.subdirs := by
  rcases mem_walk_parent _ _ hd with root | inner
  · exact Or.inl (List.mem_singleton.mp root)
  · exact Or.inr inner

theorem inDir_le (d : Dir) (hd : d ∈ listDirs inDir tree) : inDir.length ≤ d.path.length := by
  obtain ⟨a, ha, below⟩ := mem_walk_below _ _ hd
  obtain ⟨tail, path, -⟩ := below_path below
  rw [List.mem_singleton.mp ha] at path
  rw [path, List.length_append]
  exact Nat.le_add_right _ _

/-- A listed directory stands at one place. -/
theorem split_unique (proper : tree.Proper) {before before' after after' : List Dir} {d : Dir}
    (split : listDirs inDir tree = before ++ d :: after)
    (split' : listDirs inDir tree = before' ++ d :: after') :
    before = before' ∧ after = after' := by
  have nodup : (before ++ d :: after).Nodup := split ▸ listDirs_nodup proper
  have once := (List.nodup_cons.mp (List.nodup_middle.mp nodup)).1
  rw [List.mem_append, not_or] at once
  obtain ⟨hb, -, ha⟩ :=
    (List.append_cons_inj_of_notMem once.1 once.2).mp (split.symm.trans split')
  exact ⟨hb, ha⟩

/-- The subdirectories of a listed directory come later, in their order. -/
theorem subdirs_sublist (proper : tree.Proper) {before after : List Dir} {d : Dir}
    (split : listDirs inDir tree = before ++ d :: after) : d.subdirs.Sublist after := by
  have member : d ∈ listDirs inDir tree := by
    rw [split]
    exact List.mem_append_right _ List.mem_cons_self
  obtain ⟨before', fuel, queue, split', enough⟩ :=
    mem_walk_split weighs_dirCount _ _ enough_dirCount member
  rw [(split_unique proper split split').2]
  exact (List.sublist_append_right queue d.subdirs).trans
    (queue_sublist weighs_dirCount fuel _ enough)

/-- Of two subdirectories of one directory the later one is listed later. -/
theorem later_subdir (proper : tree.Proper) {before after pre post : List Dir} {d p e : Dir}
    (split : listDirs inDir tree = before ++ d :: after) (hp : p ∈ listDirs inDir tree)
    (order : p.subdirs = pre ++ d :: post) (he : e ∈ p.subdirs) : e ∈ after ↔ e ∈ post := by
  obtain ⟨before', after', split'⟩ := List.append_of_mem hp
  have inner : (pre ++ d :: post).Sublist (before ++ d :: after) := by
    rw [← order, ← split, split']
    exact (subdirs_sublist proper split').trans
      ((List.sublist_cons_self p after').trans (List.sublist_append_right before' _))
  have nodup : (before ++ d :: after).Nodup := split ▸ listDirs_nodup proper
  obtain ⟨hpre, hpost⟩ := sublist_around nodup inner
  obtain ⟨once, rest⟩ := List.nodup_cons.mp (List.nodup_middle.mp nodup)
  rw [List.mem_append, not_or] at once
  constructor
  · intro later
    rw [order] at he
    rcases List.mem_append.mp he with he | he
    · exact absurd later (List.disjoint_of_nodup_append rest (hpre.subset he))
    · rcases List.mem_cons.mp he with rfl | he
      · exact absurd later once.2
      · exact he
  · intro later
    exact hpost.subset later

end Listing

/-! ## Parents -/

theorem takeWhile_createPath {name : List UInt8} (plain : 47 ∉ name) (dir : List UInt8) :
    (createPath dir name).reverse = name.reverse ++ 47 :: dir.reverse ∧
      (createPath dir name).reverse.takeWhile (· != 47) = name.reverse := by
  have reversed : (createPath dir name).reverse = name.reverse ++ 47 :: dir.reverse := by
    simp [createPath]
  refine ⟨reversed, ?_⟩
  rw [reversed]
  exact takeWhile_name (fun h => plain (List.mem_reverse.mp h)) (Or.inr ⟨_, rfl⟩)

theorem baseName_createPath {name : List UInt8} (plain : 47 ∉ name) (dir : List UInt8) :
    baseName (createPath dir name) = name := by
  rw [baseName, (takeWhile_createPath plain dir).2, List.reverse_reverse]

theorem dirName_createPath {name : List UInt8} (plain : 47 ∉ name) (dir : List UInt8) :
    dirName (createPath dir name) = dir := by
  obtain ⟨reversed, front⟩ := takeWhile_createPath plain dir
  have split := List.takeWhile_append_dropWhile (p := (· != 47))
    (l := (createPath dir name).reverse)
  rw [front] at split
  have back := List.append_cancel_left (split.trans reversed)
  rw [dirName, back, List.drop_succ_cons, List.drop_zero, List.reverse_reverse]

section Parents
variable {inDir : List UInt8} {tree : SourceTree}

theorem listDirs_head : (listDirs inDir tree)[0]? = some ⟨inDir, tree⟩ := by
  rw [listDirs, dirCount_eq, Nat.add_comm, walk]
  rfl

theorem getParent_zero (dirs : List Dir) : getParent dirs 0 = 0 := by
  rw [getParent]
  split
  · rfl
  · exact if_pos rfl

/-- A directory behind the first is listed after its parent, which `getParent` finds. -/
theorem getParent_spec (proper : tree.Proper) {k : Nat} {d : Dir}
    (here : (listDirs inDir tree)[k]? = some d) (later : k ≠ 0) :
    ∃ p, (listDirs inDir tree)[getParent (listDirs inDir tree) k]? = some p ∧ d ∈ p.subdirs ∧
      getParent (listDirs inDir tree) k < k := by
  have nodup : (listDirs inDir tree).Nodup := listDirs_nodup proper
  have hd := List.mem_of_getElem? here
  rcases mem_listDirs_parent hd with rfl | ⟨p, hp, inner⟩
  · exfalso
    obtain ⟨inside, at'⟩ := List.getElem?_eq_some_iff.mp here
    have head : (listDirs inDir tree)[0]? = some ⟨inDir, tree⟩ := listDirs_head
    obtain ⟨first, root⟩ := List.getElem?_eq_some_iff.mp head
    exact later ((nodup.getElem_inj_iff).mp (at'.trans root.symm))
  · obtain ⟨before, after, split⟩ := List.append_of_mem hp
    obtain ⟨name, member, path⟩ := Dir.mem_subdirs.mp inner
    have plain := ((mem_listDirs_proper proper hp).name member).2.1
    have found : (listDirs inDir tree).findIdx? (fun e => dirName d.path == e.path) =
        some before.length := by
      rw [path, dirName_createPath plain, split, List.findIdx?_append]
      have none' : before.findIdx? (fun e => p.path == e.path) = none := by
        rw [List.findIdx?_eq_none_iff]
        intro e he
        rw [beq_eq_false_iff_ne]
        intro same
        have hel : e ∈ listDirs inDir tree := split ▸ List.mem_append_left _ he
        rw [← eq_of_path proper hp hel same] at he
        rw [split] at nodup
        have once := (List.nodup_cons.mp (List.nodup_middle.mp nodup)).1
        exact once (List.mem_append_left _ he)
      rw [none', List.findIdx?_cons, if_pos (beq_self_eq_true p.path)]
      simp
    have parent : getParent (listDirs inDir tree) k = before.length := by
      simp only [getParent, here, if_neg later, found, Option.getD_some]
    refine ⟨p, ?_, inner, ?_⟩
    · rw [parent, split, List.getElem?_append_right le_rfl, Nat.sub_self]
      rfl
    · rw [parent]
      have behind := (subdirs_sublist proper split).subset inner
      obtain ⟨i, inside, rfl⟩ := List.mem_iff_getElem.mp behind
      have there : (listDirs inDir tree)[before.length + 1 + i]? = some after[i] := by
        rw [split, List.getElem?_append_right (by omega)]
        have index : before.length + 1 + i - before.length = i + 1 := by omega
        rw [index, List.getElem?_cons_succ, List.getElem?_eq_getElem inside]
      obtain ⟨in₁, at₁⟩ := List.getElem?_eq_some_iff.mp here
      obtain ⟨in₂, at₂⟩ := List.getElem?_eq_some_iff.mp there
      have same := (nodup.getElem_inj_iff).mp (at₁.trans at₂.symm)
      omega

end Parents

end SourceTrees
