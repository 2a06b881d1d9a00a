import Mathlib

/-!
# The menu and its window

`c_Menu` keeps the items, the selected one and the first one shown. A frame
moves the selection, `UpdateTopItem` moves the window after it, and `render`
draws from the first shown item on until it meets the number of items.
-/

namespace MenuWindow

structure MenuItem where
  szMenuLabel : List UInt8
  szData1 : List UInt8
  szData2 : List UInt8
  szData3 : List UInt8
deriving DecidableEq

structure Menu where
  nSelectedItem : Int
  nTopItem : Int
  nListMax : Int
  item : List MenuItem
deriving DecidableEq

def Menu.nTotalItem (m : Menu) : Int := m.item.length

def cMenu (nListMaximum : Int) : Menu := ⟨0, 0, nListMaximum, []⟩

@[simp] theorem cMenu_item (nListMaximum : Int) : (cMenu nListMaximum).item = [] := rfl

/-- `AddItemEx`; `none` where it writes past a field of 1024 bytes or past the
2048 slots. -/
def Menu.addItemEx (m : Menu) (new : MenuItem) : Option Menu :=
  if m.item.length < 2048 ∧ new.szMenuLabel.length < 1024 ∧ new.szData1.length < 1024 ∧
      new.szData2.length < 1024 ∧ new.szData3.length < 1024 then
    some { m with item := m.item ++ [new] }
  else none

def Menu.addItems (m : Menu) : List MenuItem → Option Menu
  | [] => some m
  | new :: rest => (m.addItemEx new).bind (fun m => m.addItems rest)

/-- The window of `InitMainMenu`. -/
def mainListMax : Int := 20

def Menu.updateTopItem (m : Menu) : Menu :=
  let top :=
    if m.nSelectedItem > m.nListMax ∨ m.nTopItem > 0 then
      let top :=
        if m.nTopItem < m.nSelectedItem - m.nListMax then m.nSelectedItem - m.nListMax
        else m.nTopItem
      if top > 0 ∧ m.nSelectedItem < top then m.nSelectedItem else m.nSelectedItem - m.nListMax
    else m.nSelectedItem - m.nListMax
  { m with nTopItem := if top < 0 then 0 else top }

/-- What `input` reads of the pad for the selection. -/
structure Pad where
  upPressed : Bool
  upPressedNow : Bool
  downPressed : Bool
  downPressedNow : Bool
  mValLStickY : Nat

def Pad.up (p : Pad) : Bool := (p.upPressed && p.upPressedNow) || decide (p.mValLStickY < 50)

def Pad.down (p : Pad) : Bool :=
  (p.downPressed && p.downPressedNow) || decide (p.mValLStickY > 200)

def Menu.selectUp (m : Menu) : Menu :=
  if m.nSelectedItem > 0 ∧ m.nSelectedItem ≤ m.nTotalItem then
    { m with nSelectedItem := m.nSelectedItem - 1 }
  else m

def Menu.selectDown (m : Menu) : Menu :=
  if m.nSelectedItem ≥ 0 ∧ m.nSelectedItem < m.nTotalItem - 1 then
    { m with nSelectedItem := m.nSelectedItem + 1 }
  else m

structure Screen where
  menu : Menu
  nSelInputFrame : Nat

/-- The part of `input` that moves the selection. -/
def input (p : Pad) (s : Screen) : Screen :=
  if s.nSelInputFrame = 5 then
    let m := if p.up then s.menu.selectUp else s.menu
    let m := if p.down then m.selectDown else m
    ⟨m, 0 + 1⟩
  else ⟨s.menu, s.nSelInputFrame + 1⟩

/-- `input` and then `UpdateTopItem` in `render`. -/
def frame (s : Screen) (p : Pad) : Screen :=
  let s := input p s
  { s with menu := s.menu.updateTopItem }

/-- The loop of `render` from item `n` on: the indices whose items it draws. -/
def drawFrom (m : Menu) : Nat → Int → Option (List Int)
  | 0, _ => none
  | fuel + 1, n =>
    if n ≤ m.nTopItem + m.nListMax then
      if n = m.nTotalItem then some []
      else if m.nTotalItem ≤ 0 then some []
      else (drawFrom m fuel (n + 1)).map (n :: ·)
    else some []

/-! ## The window -/

/-- The selection is an item, and it is inside the window. -/
structure Window (m : Menu) : Prop where
  low : 0 ≤ m.nSelectedItem
  high : 0 < m.nTotalItem → m.nSelectedItem < m.nTotalItem
  none : m.nTotalItem = 0 → m.nSelectedItem = 0
  top : 0 ≤ m.nTopItem
  above : m.nTopItem ≤ m.nSelectedItem
  below : m.nSelectedItem ≤ m.nTopItem + m.nListMax

/-- The part of the invariant that speaks of the selection. -/
structure Selected (m : Menu) : Prop where
  low : 0 ≤ m.nSelectedItem
  high : 0 < m.nTotalItem → m.nSelectedItem < m.nTotalItem
  none : m.nTotalItem = 0 → m.nSelectedItem = 0

section Steps
variable {m : Menu}

theorem Selected.up (selected : Selected m) : Selected m.selectUp := by
  obtain ⟨low, high, none⟩ := selected
  rw [Menu.selectUp]
  split
  · constructor
    · simp only
      omega
    · intro some'
      have := high some'
      simp only [Menu.nTotalItem] at this ⊢
      omega
    · intro empty
      have := none empty
      omega
  · exact ⟨low, high, none⟩

theorem Selected.down (selected : Selected m) : Selected m.selectDown := by
  obtain ⟨low, high, none⟩ := selected
  rw [Menu.selectDown]
  split
  · constructor
    · simp only
      omega
    · intro some'
      simp only [Menu.nTotalItem] at *
      omega
    · intro empty
      simp only [Menu.nTotalItem] at *
      omega
  · exact ⟨low, high, none⟩

/-- Whatever the window was, the new one holds the selection. -/
theorem updateTopItem_bounds (room : 0 ≤ m.nListMax) (low : 0 ≤ m.nSelectedItem) :
    0 ≤ m.updateTopItem.nTopItem ∧ m.updateTopItem.nTopItem ≤ m.nSelectedItem ∧
      m.nSelectedItem ≤ m.updateTopItem.nTopItem + m.nListMax := by
  simp only [Menu.updateTopItem]
  split_ifs <;> omega

theorem Selected.window (selected : Selected m) (room : 0 ≤ m.nListMax) :
    Window m.updateTopItem := by
  obtain ⟨top, above, below⟩ := updateTopItem_bounds room selected.low
  exact ⟨selected.low, selected.high, selected.none, top, above, below⟩

theorem Window.selected (window : Window m) : Selected m :=
  ⟨window.low, window.high, window.none⟩

end Steps

theorem input_selected {s : Screen} (p : Pad) (selected : Selected s.menu) :
    Selected (input p s).menu ∧ (input p s).menu.nListMax = s.menu.nListMax ∧
      (input p s).menu.item = s.menu.item := by
  have up : ∀ m : Menu, m.selectUp.nListMax = m.nListMax ∧ m.selectUp.item = m.item := by
    intro m
    rw [Menu.selectUp]
    split <;> exact ⟨rfl, rfl⟩
  have down : ∀ m : Menu, m.selectDown.nListMax = m.nListMax ∧ m.selectDown.item = m.item := by
    intro m
    rw [Menu.selectDown]
    split <;> exact ⟨rfl, rfl⟩
  rw [input]
  split
  · cases p.up <;> cases p.down
    · exact ⟨selected, rfl, rfl⟩
    · exact ⟨selected.down, down _⟩
    · exact ⟨selected.up, up _⟩
    · exact ⟨selected.up.down, (down _).1.trans (up _).1, (down _).2.trans (up _).2⟩
  · exact ⟨selected, rfl, rfl⟩

theorem frame_window {s : Screen} (p : Pad) (room : 0 ≤ s.menu.nListMax)
    (window : Window s.menu) :
    Window (frame s p).menu ∧ (frame s p).menu.nListMax = s.menu.nListMax ∧
      (frame s p).menu.item = s.menu.item := by
  obtain ⟨selected, same, items⟩ := input_selected p window.selected
  exact ⟨selected.window (same ▸ room), same, items⟩

/-- Frames keep the window. -/
theorem frames_window (pads : List Pad) {s : Screen} (room : 0 ≤ s.menu.nListMax)
    (window : Window s.menu) :
    Window (pads.foldl frame s).menu ∧ (pads.foldl frame s).menu.nListMax = s.menu.nListMax ∧
      (pads.foldl frame s).menu.item = s.menu.item := by
  induction pads generalizing s with
  | nil => exact ⟨window, rfl, rfl⟩
  | cons p pads ih =>
    obtain ⟨next, same, items⟩ := frame_window p room window
    obtain ⟨last, same', items'⟩ := ih (same ▸ room) next
    exact ⟨last, same'.trans same, items'.trans items⟩

theorem addItems_counters {m m' : Menu} {new : List MenuItem} (added : m.addItems new = some m') :
    m'.nSelectedItem = m.nSelectedItem ∧ m'.nTopItem = m.nTopItem ∧ m'.nListMax = m.nListMax ∧
      m'.item = m.item ++ new := by
  induction new generalizing m with
  | nil =>
    rw [← Option.some.inj added, List.append_nil]
    exact ⟨rfl, rfl, rfl, rfl⟩
  | cons first rest ih =>
    obtain ⟨mid, one, more⟩ := Option.bind_eq_some_iff.mp added
    obtain ⟨selected, top, room, items⟩ := ih more
    rw [Menu.addItemEx] at one
    split at one
    · rw [← Option.some.inj one] at selected top room items
      refine ⟨selected, top, room, ?_⟩
      rw [items, List.append_assoc, List.singleton_append]
    · cases one

/-! ## Drawing -/

/-- The loop draws the items from `n` up to the end of the list or of the window. -/
theorem drawFrom_eq {m : Menu} {fuel : Nat} {n : Int} (low : 0 ≤ n) (inside : n ≤ m.nTotalItem)
    (enough : (m.nTopItem + m.nListMax + 1 - n).toNat < fuel) :
    drawFrom m fuel n = some
      ((List.range (min m.nTotalItem (m.nTopItem + m.nListMax + 1) - n).toNat).map
        (fun k : Nat => n + (k : Int))) := by
  induction fuel generalizing n with
  | zero => exact absurd enough (Nat.not_lt_zero _)
  | succ fuel ih =>
    rw [drawFrom]
    split
    · split
      · have none : (min m.nTotalItem (m.nTopItem + m.nListMax + 1) - n).toNat = 0 := by omega
        rw [none]
        rfl
      · rw [if_neg (by omega), ih (by omega) (by omega) (by omega)]
        have count : (min m.nTotalItem (m.nTopItem + m.nListMax + 1) - n).toNat =
            (min m.nTotalItem (m.nTopItem + m.nListMax + 1) - (n + 1)).toNat + 1 := by omega
        rw [count, List.range_succ_eq_map, List.map_cons, List.map_map, Option.map_some]
        congr 2
        · simp
        · apply List.map_congr_left
          intro k _
          simp only [Function.comp_apply, Nat.succ_eq_add_one, Nat.cast_add, Nat.cast_one]
          omega
    · have none : (min m.nTotalItem (m.nTopItem + m.nListMax + 1) - n).toNat = 0 := by omega
      rw [none]
      rfl

/-- What is drawn from the top item on: existing items, the selected one once. -/
structure Drawn (m : Menu) (drawn : List Int) : Prop where
  inside : ∀ n ∈ drawn, 0 ≤ n ∧ n < m.nTotalItem
  selected : 0 < m.nTotalItem → drawn.count m.nSelectedItem = 1

theorem Window.drawn {m : Menu} (window : Window m) :
    ∃ drawn, (∀ fuel, (m.nListMax + 1).toNat < fuel → drawFrom m fuel m.nTopItem = some drawn) ∧
      Drawn m drawn := by
  obtain ⟨low, high, none, top, above, below⟩ := window
  have total : 0 ≤ m.nTotalItem := Int.natCast_nonneg _
  have inside : m.nTopItem ≤ m.nTotalItem := by
    rcases total.lt_or_eq with some' | empty
    · have := high some'
      omega
    · have := none empty.symm
      omega
  refine ⟨_, fun fuel enough => drawFrom_eq top inside (by omega), ?_, ?_⟩
  · intro n hn
    obtain ⟨k, hk, rfl⟩ := List.mem_map.mp hn
    have := List.mem_range.mp hk
    omega
  · intro some'
    have := high some'
    apply List.count_eq_one_of_mem
    · apply List.nodup_range.map
      intro a b same
      simp only at same
      omega
    · apply List.mem_map.mpr
      refine ⟨(m.nSelectedItem - m.nTopItem).toNat, List.mem_range.mpr ?_, ?_⟩ <;> omega

/-- After the items are loaded and any frames: the selection is an item inside the
window, and the loop of `render` ends having drawn items only, the selected one
exactly once. -/
theorem frames_draw (items : List MenuItem) {m : Menu}
    (loaded : (cMenu mainListMax).addItems items = some m) (nSelInputFrame : Nat)
    (pads : List Pad) :
    let shown := (pads.foldl frame ⟨m, nSelInputFrame⟩).menu
    Window shown ∧ shown.item = items ∧
      ∃ drawn, (∀ fuel, (shown.nListMax + 1).toNat < fuel →
        drawFrom shown fuel shown.nTopItem = some drawn) ∧ Drawn shown drawn := by
  intro shown
  obtain ⟨selected, top, room, stored⟩ := addItems_counters loaded
  have start : Window m := by
    simp only [cMenu] at selected top
    have wide : m.nListMax = 20 := room
    refine ⟨by omega, fun some' => by omega, fun _ => selected, by omega, by omega, by omega⟩
  have positive : 0 ≤ m.nListMax := by
    rw [room]
    decide
  obtain ⟨window, -, kept⟩ := frames_window pads (s := ⟨m, nSelInputFrame⟩) positive start
  exact ⟨window, kept.trans stored, window.drawn⟩

/-- More items than the window shows. -/
def manyItems : List MenuItem :=
  (List.range 25).map fun i => ⟨[UInt8.ofNat (65 + i)], [], [], []⟩

/-- DOWN is held until the last item is selected, and then UP for one item. -/
def manyPads : List Pad :=
  List.replicate 116 ⟨false, false, true, true, 128⟩ ++
    List.replicate 5 ⟨true, true, false, false, 128⟩

def scrolled : Menu :=
  (manyPads.foldl frame ⟨{ cMenu mainListMax with item := manyItems }, 5⟩).menu

theorem frames_draw_scrolled : (scrolled.nSelectedItem = 23 ∧ scrolled.nTopItem = 3) ∧
    Window scrolled ∧ ∃ drawn, (∀ fuel, (scrolled.nListMax + 1).toNat < fuel →
      drawFrom scrolled fuel scrolled.nTopItem = some drawn) ∧ Drawn scrolled drawn := by
  have loaded : (cMenu mainListMax).addItems manyItems =
      some { cMenu mainListMax with item := manyItems } := by
    decide +kernel
  obtain ⟨window, -, drawn⟩ := frames_draw manyItems loaded 5 manyPads
  exact ⟨by decide +kernel, window, drawn⟩

end MenuWindow
