import Mathlib

/-!
# Breadth-first listings of a forest

Elements are taken from the front of a queue and their children are put at its
end. Where every tree has a finite weight the listing is complete: it contains
the queue, and the children of each of its elements, in order. Where different
trees never carry the same key, no key is listed twice.
-/

namespace BreadthFirst

universe u v
variable {α : Type u} {κ : Type v} (children : α → List α)

/-- The listing from a queue; the number bounds the elements taken. -/
def walk : Nat → List α → List α
  | 0, _ => []
  | _ + 1, [] => []
  | fuel + 1, a :: queue => a :: walk fuel (queue ++ children a)

/-- A weight that counts each element and everything below it. -/
def Weighs (weight : α → Nat) : Prop :=
  ∀ a, 1 + ((children a).map weight).sum ≤ weight a

/-- Enough fuel for the trees of a queue. -/
def Enough (weight : α → Nat) (fuel : Nat) (queue : List α) : Prop :=
  (queue.map weight).sum ≤ fuel

def Below : α → α → Prop := Relation.ReflTransGen (fun a b => b ∈ children a)

variable {children}

theorem Enough.next {weight : α → Nat} (weighs : Weighs children weight) {fuel : Nat} {a : α}
    {queue : List α} (enough : Enough weight (fuel + 1) (a :: queue)) :
    Enough weight fuel (queue ++ children a) := by
  have here := weighs a
  simp only [Enough, List.map_cons, List.sum_cons, List.map_append, List.sum_append] at enough ⊢
  omega

theorem Enough.positive {weight : α → Nat} (weighs : Weighs children weight) {fuel : Nat} {a : α}
    {queue : List α} (enough : Enough weight fuel (a :: queue)) : ∃ k, fuel = k + 1 := by
  have here := weighs a
  simp only [Enough, List.map_cons, List.sum_cons] at enough
  exact ⟨fuel - 1, by omega⟩

/-- The queue comes out in its order. -/
theorem queue_sublist {weight : α → Nat} (weighs : Weighs children weight) (fuel : Nat)
    (queue : List α) (enough : Enough weight fuel queue) :
    queue.Sublist (walk children fuel queue) := by
  induction fuel generalizing queue with
  | zero =>
    cases queue with
    | nil => exact List.Sublist.refl []
    | cons a queue =>
      obtain ⟨k, hk⟩ := enough.positive weighs
      exact absurd hk (Nat.succ_ne_zero k).symm
  | succ fuel ih =>
    cases queue with
    | nil => exact List.nil_sublist _
    | cons a queue =>
      have rest := ih (queue ++ children a) (enough.next weighs)
      exact ((List.sublist_append_left queue (children a)).trans rest).cons_cons a

/-- Each element of the trees of a queue is listed once. -/
theorem walk_length {weight : α → Nat} (exact : ∀ a, 1 + ((children a).map weight).sum = weight a)
    (fuel : Nat) (queue : List α) (enough : Enough weight fuel queue) :
    (walk children fuel queue).length = (queue.map weight).sum := by
  have weighs : Weighs children weight := fun a => (exact a).le
  induction fuel generalizing queue with
  | zero =>
    cases queue with
    | nil => rfl
    | cons a queue =>
      obtain ⟨k, hk⟩ := enough.positive weighs
      exact absurd hk (Nat.succ_ne_zero k).symm
  | succ fuel ih =>
    cases queue with
    | nil => rfl
    | cons a queue =>
      have here := exact a
      rw [walk, List.length_cons, ih _ (enough.next weighs), List.map_append, List.sum_append,
        List.map_cons, List.sum_cons]
      omega

/-- Behind each listed element comes the walk over its children and whatever
was queued before them. -/
theorem mem_walk_split {weight : α → Nat} (weighs : Weighs children weight) (fuel : Nat)
    (queue : List α) (enough : Enough weight fuel queue) {a : α}
    (member : a ∈ walk children fuel queue) :
    ∃ before fuel' queue', walk children fuel queue =
        before ++ a :: walk children fuel' (queue' ++ children a) ∧
      Enough weight fuel' (queue' ++ children a) := by
  induction fuel generalizing queue with
  | zero => exact absurd member List.not_mem_nil
  | succ fuel ih =>
    cases queue with
    | nil => exact absurd member List.not_mem_nil
    | cons b queue =>
      rcases List.mem_cons.mp member with rfl | later
      · exact ⟨[], fuel, queue, rfl, enough.next weighs⟩
      · obtain ⟨before, fuel', queue', split, enough'⟩ := ih _ (enough.next weighs) later
        refine ⟨b :: before, fuel', queue', ?_, enough'⟩
        rw [walk, split, List.cons_append]

/-- Everything listed stands below an element of the queue. -/
theorem mem_walk_below (fuel : Nat) (queue : List α) {x : α}
    (member : x ∈ walk children fuel queue) : ∃ a ∈ queue, Below children a x := by
  induction fuel generalizing queue with
  | zero => exact absurd member List.not_mem_nil
  | succ fuel ih =>
    cases queue with
    | nil => exact absurd member List.not_mem_nil
    | cons b queue =>
      rcases List.mem_cons.mp member with rfl | later
      · exact ⟨x, List.mem_cons_self, Relation.ReflTransGen.refl⟩
      · obtain ⟨a, ha, below⟩ := ih _ later
        rcases List.mem_append.mp ha with ha | ha
        · exact ⟨a, List.mem_cons_of_mem b ha, below⟩
        · exact ⟨b, List.mem_cons_self, Relation.ReflTransGen.head ha below⟩

/-- A listed element is in the queue or a child of another listed element. -/
theorem mem_walk_parent (fuel : Nat) (queue : List α) {x : α}
    (member : x ∈ walk children fuel queue) :
    x ∈ queue ∨ ∃ a ∈ walk children fuel queue, x ∈ children a := by
  induction fuel generalizing queue with
  | zero => exact absurd member List.not_mem_nil
  | succ fuel ih =>
    cases queue with
    | nil => exact absurd member List.not_mem_nil
    | cons b queue =>
      rcases List.mem_cons.mp member with rfl | later
      · exact Or.inl List.mem_cons_self
      · rcases ih _ later with inQueue | ⟨a, ha, child⟩
        · rcases List.mem_append.mp inQueue with inQueue | child
          · exact Or.inl (List.mem_cons_of_mem b inQueue)
          · exact Or.inr ⟨b, List.mem_cons_self, child⟩
        · exact Or.inr ⟨a, List.mem_cons_of_mem b ha, child⟩

/-- No key occurs in both trees. -/
def Separate (children : α → List α) (key : α → κ) (a b : α) : Prop :=
  ∀ x y, Below children a x → Below children b y → key x ≠ key y

/-- In trees satisfying `P`, siblings are separate and no key occurs again
below its own element. -/
structure Forest (children : α → List α) (key : α → κ) (P : α → Prop) : Prop where
  closed : ∀ a, P a → ∀ c ∈ children a, P c
  siblings : ∀ a, P a → (children a).Pairwise (Separate children key)
  fresh : ∀ a, P a → ∀ c ∈ children a, ∀ x, Below children c x → key x ≠ key a

theorem Forest.mem_walk {key : α → κ} {P : α → Prop} (forest : Forest children key P) (fuel : Nat)
    {queue : List α} (good : ∀ a ∈ queue, P a) {x : α} (member : x ∈ walk children fuel queue) :
    P x := by
  obtain ⟨a, ha, below⟩ := mem_walk_below fuel queue member
  clear member
  induction below with
  | refl => exact good a ha
  | tail _ child ih => exact forest.closed _ ih _ child

theorem walk_nodup {key : α → κ} {P : α → Prop} (forest : Forest children key P) (fuel : Nat)
    (queue : List α) (good : ∀ a ∈ queue, P a)
    (separate : queue.Pairwise (Separate children key)) :
    ((walk children fuel queue).map key).Nodup := by
  induction fuel generalizing queue with
  | zero => exact List.nodup_nil
  | succ fuel ih =>
    cases queue with
    | nil => exact List.nodup_nil
    | cons a queue =>
      have ha := good a List.mem_cons_self
      obtain ⟨apart, rest⟩ := List.pairwise_cons.mp separate
      have good' : ∀ b ∈ queue ++ children a, P b := by
        intro b hb
        rcases List.mem_append.mp hb with hb | hb
        · exact good b (List.mem_cons_of_mem a hb)
        · exact forest.closed a ha b hb
      have separate' : (queue ++ children a).Pairwise (Separate children key) := by
        apply List.pairwise_append.mpr
        refine ⟨rest, forest.siblings a ha, ?_⟩
        intro b hb c hc x y hx hy
        exact (apart b hb y x (Relation.ReflTransGen.head hc hy) hx).symm
      rw [walk, List.map_cons]
      apply List.nodup_cons.mpr
      refine ⟨?_, ih _ good' separate'⟩
      intro again
      obtain ⟨x, hx, same⟩ := List.mem_map.mp again
      obtain ⟨b, hb, below⟩ := mem_walk_below fuel _ hx
      rcases List.mem_append.mp hb with hb | hb
      · exact apart b hb a x Relation.ReflTransGen.refl below same.symm
      · exact forest.fresh a ha b hb x below same

/-- In a list without repetition, a sublist around one element is split where
the list is split. -/
theorem sublist_around {pre post before after : List α} {a : α}
    (nodup : (before ++ a :: after).Nodup)
    (inner : (pre ++ a :: post).Sublist (before ++ a :: after)) :
    pre.Sublist before ∧ post.Sublist after := by
  have once := (List.nodup_cons.mp (List.nodup_middle.mp nodup)).1
  rw [List.mem_append, not_or] at once
  obtain ⟨left, right, split, hleft, hright⟩ := List.sublist_append_iff.mp inner
  rcases List.append_eq_append_iff.mp split with ⟨mid, rfl, split'⟩ | ⟨mid, rfl, rfl⟩
  · cases mid with
    | nil =>
      rw [List.append_nil] at hleft
      rw [List.nil_append] at split'
      subst split'
      exact ⟨hleft, List.Sublist.of_cons_cons hright⟩
    | cons b mid =>
      obtain ⟨rfl, -⟩ := List.cons.inj split'
      exact absurd (hleft.subset (List.mem_append_right pre List.mem_cons_self)) once.1
  · cases mid with
    | nil =>
      rw [List.append_nil]
      exact ⟨hleft, List.Sublist.of_cons_cons hright⟩
    | cons b mid =>
      have again : a ∈ mid ++ a :: post := List.mem_append_right mid List.mem_cons_self
      cases hright with
      | cons _ skipped => exact absurd (skipped.subset (List.mem_cons_of_mem b again)) once.2
      | cons_cons _ kept => exact absurd (kept.subset again) once.2

end BreadthFirst
