import Mathlib

/-!
# Runs of a machine and their histories

A machine takes an input and, where it does not fail, answers with outputs and a new state. A run
is the list of its turns, so that a statement about a turn can speak of the turns before it.
-/

namespace TurnRuns

/-- One turn of a machine. -/
structure Turn (σ ι ο : Type*) where
  before : σ
  input : ι
  outputs : List ο
  after : σ

section Machine
variable {σ ι ο : Type*} (active : σ → Bool) (step : σ → ι → Option (σ × List ο))

/-- The turns from a state on, until the inputs are used up or the machine is no longer active. -/
def turns : σ → List ι → Option (List (Turn σ ι ο))
  | _, [] => some []
  | s, i :: inputs =>
    if active s then
      (step s i).bind fun r => (turns r.1 inputs).map (⟨s, i, r.2, r.1⟩ :: ·)
    else some []

/-- The state behind some turns. -/
def ending (start : σ) (ts : List (Turn σ ι ο)) : σ := ts.foldl (fun _ t => t.after) start

/-- Every turn is related to the turns before it. -/
def Each (P : List (Turn σ ι ο) → Turn σ ι ο → Prop) (ts : List (Turn σ ι ο)) : Prop :=
  ∀ before t after, ts = before ++ t :: after → P before t

@[simp] theorem ending_nil (start : σ) : ending start ([] : List (Turn σ ι ο)) = start := rfl

@[simp] theorem ending_cons (start : σ) (t : Turn σ ι ο) (ts : List (Turn σ ι ο)) :
    ending start (t :: ts) = ending t.after ts := rfl

@[simp] theorem ending_concat (start : σ) (ts : List (Turn σ ι ο)) (t : Turn σ ι ο) :
    ending start (ts ++ [t]) = t.after := by
  rw [ending, List.foldl_concat]

theorem each_iff_getElem {P : List (Turn σ ι ο) → Turn σ ι ο → Prop} {ts : List (Turn σ ι ο)} :
    Each P ts ↔ ∀ i, (h : i < ts.length) → P (ts.take i) ts[i] := by
  constructor
  · intro each i h
    refine each _ _ (ts.drop (i + 1)) ?_
    rw [List.getElem_cons_drop, List.take_append_drop]
  · rintro every before t after rfl
    have here := every before.length (by rw [List.length_append, List.length_cons]; omega)
    rwa [List.take_left, List.getElem_append_right le_rfl, List.getElem_cons, dif_pos (by omega)]
      at here

instance (P : List (Turn σ ι ο) → Turn σ ι ο → Prop) [∀ before t, Decidable (P before t)]
    (ts : List (Turn σ ι ο)) : Decidable (Each P ts) :=
  decidable_of_iff _ each_iff_getElem.symm

variable {active step} {start : σ} {inputs : List ι} {ts : List (Turn σ ι ο)}

/-- A turn of a run is a step of the machine from where the turns before it end. -/
theorem turns_split (run : turns active step start inputs = some ts) {before after t}
    (split : ts = before ++ t :: after) :
    active t.before = true ∧ step t.before t.input = some (t.after, t.outputs) ∧
      t.before = ending start before := by
  induction inputs generalizing start ts before with
  | nil =>
    cases run
    cases before <;> cases split
  | cons i inputs ih =>
    rw [turns] at run
    split at run
    · rename_i going
      cases stepped : step start i with
      | none =>
        rw [stepped] at run
        cases run
      | some r =>
        obtain ⟨s', outputs⟩ := r
        rw [stepped, Option.bind_some] at run
        cases more : turns active step s' inputs with
        | none =>
          rw [more] at run
          cases run
        | some later =>
          rw [more] at run
          cases run
          cases before with
          | nil =>
            cases split
            exact ⟨going, stepped, rfl⟩
          | cons first before =>
            cases split
            exact ih more rfl
    · cases run
      cases before <;> cases split

/-- What holds at the start and is kept by every step holds behind every part of a run. -/
theorem turns_history (I : List (Turn σ ι ο) → σ → Prop) (base : I [] start)
    (keeps : ∀ before t, I before t.before → step t.before t.input = some (t.after, t.outputs) →
      I (before ++ [t]) t.after)
    (run : turns active step start inputs = some ts) {before after}
    (split : ts = before ++ after) : I before (ending start before) := by
  induction before using List.reverseRecOn generalizing after with
  | nil => exact base
  | append_singleton before t ih =>
    rw [List.append_assoc, List.singleton_append] at split
    obtain ⟨-, stepped, from'⟩ := turns_split run split
    rw [ending_concat]
    exact keeps before t (from' ▸ ih split) stepped

/-- Two relations that agree at every step from a state with the invariant agree on a run. -/
theorem each_congr {P Q : List (Turn σ ι ο) → Turn σ ι ο → Prop}
    (I : List (Turn σ ι ο) → σ → Prop) (base : I [] start)
    (keeps : ∀ before t, I before t.before → step t.before t.input = some (t.after, t.outputs) →
      I (before ++ [t]) t.after)
    (agree : ∀ before t, I before t.before → step t.before t.input = some (t.after, t.outputs) →
      (P before t ↔ Q before t))
    (run : turns active step start inputs = some ts) : Each P ts ↔ Each Q ts := by
  have same : ∀ before t after, ts = before ++ t :: after → (P before t ↔ Q before t) := by
    intro before t after split
    obtain ⟨-, stepped, from'⟩ := turns_split run split
    exact agree before t (from' ▸ turns_history I base keeps run split) stepped
  constructor
  · exact fun each before t after split => (same before t after split).mp (each _ _ _ split)
  · exact fun each before t after split => (same before t after split).mpr (each _ _ _ split)

end Machine

/-! ## Machines that go on -/

section Simulation
variable {σ τ ι ο : Type*} {step : σ → ι → Option (σ × List ο)}

/-- A turn as it is seen from another machine. -/
def Turn.map (f : σ → τ) (t : Turn σ ι ο) : Turn τ ι ο :=
  ⟨f t.before, t.input, t.outputs, f t.after⟩

theorem ending_map (f : σ → τ) (start : σ) (ts : List (Turn σ ι ο)) :
    ending (f start) (ts.map (Turn.map f)) = f (ending start ts) := by
  induction ts generalizing start with
  | nil => rfl
  | cons t ts ih => exact ih t.after

/-- A machine whose steps keep an invariant and do not fail takes all its inputs. -/
theorem turns_total (I : List (Turn σ ι ο) → σ → Prop) (P : List (Turn σ ι ο) → Turn σ ι ο → Prop)
    {inputs : List ι} {start : σ} (base : I [] start)
    (steps : ∀ before s, ∀ i ∈ inputs, I before s → ∃ r, step s i = some r ∧
      I (before ++ [⟨s, i, r.2, r.1⟩]) r.1 ∧ P before ⟨s, i, r.2, r.1⟩) :
    ∃ ts, turns (fun _ => true) step start inputs = some ts ∧ I ts (ending start ts) ∧
      Each P ts := by
  induction inputs generalizing start I P with
  | nil =>
    refine ⟨[], rfl, base, fun before t after split => ?_⟩
    cases before <;> cases split
  | cons i inputs ih =>
    obtain ⟨r, stepped, kept, turn⟩ := steps [] start i List.mem_cons_self base
    obtain ⟨ts, run, last, each⟩ := ih (fun before s => I (⟨start, i, r.2, r.1⟩ :: before) s)
      (fun before t => P (⟨start, i, r.2, r.1⟩ :: before) t) kept
      fun before s j mem => steps _ s j (List.mem_cons_of_mem i mem)
    refine ⟨⟨start, i, r.2, r.1⟩ :: ts, ?_, last, fun before t after split => ?_⟩
    · rw [turns, if_pos rfl, stepped, Option.bind_some, run, Option.map_some]
    · cases before with
      | nil =>
        cases split
        exact turn
      | cons first before =>
        cases split
        exact each before t after rfl

/-- A machine that is seen to step like another one takes all its inputs as the other does. -/
theorem turns_simulation (f : σ → τ) (plain : τ → ι → τ × List ο) (I : σ → Prop)
    {inputs : List ι} {start : σ} (base : I start) (steps : ∀ s, ∀ i ∈ inputs, I s →
      ∃ r, step s i = some r ∧ I r.1 ∧ plain (f s) i = (f r.1, r.2)) :
    ∃ ts, turns (fun _ => true) step start inputs = some ts ∧ I (ending start ts) ∧
      turns (fun _ => true) (fun v i => some (plain v i)) (f start) inputs =
        some (ts.map (Turn.map f)) := by
  induction inputs generalizing start with
  | nil => exact ⟨[], rfl, base, rfl⟩
  | cons i inputs ih =>
    obtain ⟨r, stepped, kept, seen⟩ := steps start i List.mem_cons_self base
    obtain ⟨ts, run, last, alike⟩ := ih kept fun s j mem => steps s j (List.mem_cons_of_mem i mem)
    refine ⟨⟨start, i, r.2, r.1⟩ :: ts, ?_, last, ?_⟩
    · rw [turns, if_pos rfl, stepped, Option.bind_some, run, Option.map_some]
    · rw [turns, if_pos rfl, Option.bind_some, seen, alike, Option.map_some, List.map_cons,
        Turn.map]

end Simulation

end TurnRuns
