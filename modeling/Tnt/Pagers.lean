import Tnt.EscapeKeys
import Tnt.Lib.Runs
/-!
# The pagers (`input.c`, `tui.c`)

The help and the output of a command are read page by page. The keys move a
position without an upper bound. `tui_render_command_output` takes it back to the
last page, `tui_render_help` shows the last page and leaves the position where it is.
-/
open BaseLib

namespace Tnt

inductive PagerKind
  | help | output
  deriving DecidableEq

/-- What a pager shows: `help_copy` with `help_scroll_pos`, or `command_output` with `command_output_scroll`. -/
structure Pager where
  kind : PagerKind
  text : Bytes
  /-- `command_output_kind` is that of the inbox. -/
  inbox : Bool
  /-- `client->height` -/
  height : Nat
  scrollPos : Int

/-- What stands on the screen between the title and the status line. -/
structure PagerView where
  start : Int
  rows : List Bytes

namespace Pager

/-- The size of `lines` -/
def maxLines : PagerKind → Nat
  | .help => 100
  | .output => 256

/-- The lines that `strtok` finds; it passes over the blank ones. -/
def lines (p : Pager) : List Bytes := ((p.text.splitOn newline).filter (· ≠ [])).take (maxLines p.kind)

/-- `content_height`, of which the help leaves out a row. -/
def contentHeight (p : Pager) : Int :=
  let rh : Int := if p.height < 4 then 4 else p.height
  let contentHeight := if rh - 2 < 1 then 1 else rh - 2
  match p.kind with
  | .help => contentHeight - 1
  | .output => contentHeight

/-- `max_scroll` -/
def maxScroll (p : Pager) : Int :=
  let maxScroll := (p.lines.length : Int) - p.contentHeight
  if maxScroll < 0 then 0 else maxScroll

/-- The rows from `start` on. -/
def view (p : Pager) (start : Int) : PagerView :=
  let stop := if start + p.contentHeight > p.lines.length then (p.lines.length : Int) else start + p.contentHeight
  ⟨start, (p.lines.drop start.toNat).take (stop - start).toNat⟩

/-- `tui_render_help` -/
def renderHelp (p : Pager) : Pager × PagerView :=
  let start := if p.scrollPos > p.maxScroll then p.maxScroll else p.scrollPos
  (p, p.view start)

/-- `tui_render_command_output` -/
def renderOutput (p : Pager) : Pager × PagerView :=
  let scroll := if p.scrollPos < 0 then 0 else p.scrollPos
  let scroll := if scroll > p.maxScroll then p.maxScroll else scroll
  ({ p with scrollPos := scroll }, p.view scroll)

def render (p : Pager) : Pager × PagerView :=
  match p.kind with
  | .help => p.renderHelp
  | .output => p.renderOutput

end Pager

/-! ## Keys, resizes and refreshes -/

/-- A pager, with what the last step drew. -/
structure PagerState where
  pager : Pager
  view : Option PagerView

/-- The pager is drawn. -/
def PagerState.draw (p : Pager) : PagerState := ⟨p.render.1, some p.render.2⟩

/-- A key comes with the channel behind it, and with the text that a refresh or the other language would show. -/
inductive PagerInput (S : Feed UInt8)
  | key (key : UInt8) (c : S.State) (fresh : Bytes)
  | resize (height : Nat)
  /-- New whispers for an open inbox. -/
  | refresh (fresh : Bytes)
  /-- `redraw_pending` -/
  | redraw

section Steps
variable (S : Feed UInt8)

/-- `handle_key` while a pager is open; there is nothing left of it where the key closes it. -/
def pagerKey (p : Pager) (key : UInt8) (c : S.State) (fresh : Bytes) : Option PagerState :=
  if key = 3 then none
  else
    match p.kind with
    | .help =>
      if key = 0x6C ∨ key = 0x4C then some (.draw { p with text := fresh, scrollPos := 0 })
      else
        let (action, pos, _) := pagerApplyKey S p.height key p.scrollPos false c
        let p := { p with scrollPos := pos }
        if action = .close then none
        else if action = .scroll then some (.draw p)
        else some ⟨p, none⟩
    | .output =>
      let (action, pos, _) := pagerApplyKey S p.height key p.scrollPos true c
      let p := { p with scrollPos := pos }
      if action = .close then none
      else if action = .scroll then some (.draw p)
      else if action = .refresh ∧ p.inbox then some (.draw { p with text := fresh, scrollPos := 0 })
      else some ⟨p, none⟩

def pagerStep (s : PagerState) : PagerInput S → Option PagerState
  | .key key c fresh => pagerKey S s.pager key c fresh
  | .resize height => some ⟨{ s.pager with height }, none⟩
  | .refresh fresh =>
    if s.pager.kind = .output ∧ s.pager.inbox then some (.draw { s.pager with text := fresh, scrollPos := 0 }) else none
  | .redraw => some (.draw s.pager)

end Steps

/-! ## What a pager is for -/

namespace Pager

/-- The position is one of the view. -/
def OnPage (p : Pager) : Prop := 0 ≤ p.scrollPos ∧ p.scrollPos ≤ p.maxScroll

instance (p : Pager) : Decidable p.OnPage := inferInstanceAs (Decidable (_ ∧ _))

end Pager

section Keys
variable (S : Feed UInt8)

end Keys

/-! ## Moves -/

/-- Where a key takes the position, before it is made to be no less than 0. -/
inductive PagerMove
  | by (delta : Int)
  | to (pos : Int)

def PagerMove.target (pos : Int) : PagerMove → Int
  | .by delta => pos + delta
  | .to pos => pos

def ScrollKey.move (page : Int) : ScrollKey → PagerMove
  | .up => .by (-1)
  | .down => .by 1
  | .home => .to 0
  | .end => .to 999
  | .pageUp => .by (-page)
  | .pageDown => .by page

section Moves
variable (S : Feed UInt8)

/-- The move that a key is for. -/
def pagerMove (height : Nat) (key : UInt8) (c : S.State) : Option PagerMove :=
  let page := pagerPageHeight height
  let half := if page / 2 < 1 then 1 else page / 2
  if key = 0x71 then none
  else if key = 0x6A then some (.by 1)
  else if key = 0x6B then some (.by (-1))
  else if key = 4 then some (.by half)
  else if key = 21 then some (.by (-half))
  else if key = 6 ∨ key = 0x20 then some (.by page)
  else if key = 2 ∨ key = 0x62 then some (.by (-page))
  else if key = 0x67 then some (.to 0)
  else if key = 0x47 then some (.to 999)
  else if key = esc then
    match S.read 1 c with
    | ([b], c) => if b = 0x5B then (readScrollKey S c).1.map (·.move page) else none
    | _ => none
  else none

variable {S} {c : S.State} {height : Nat} {key : UInt8} {pos : Int} {allowRefresh : Bool}

/-- A key that is for a move scrolls to where it goes; any other one leaves the position. -/
def Obeys (pos : Int) : Option PagerMove → PagerAction × Int × S.State → Prop
  | some m, (action, pos', _) => action = .scroll ∧ pos' = max 0 (m.target pos)
  | none, (action, pos', _) => action ≠ .scroll ∧ pos' = pos

theorem Obeys.ite {p : Prop} [Decidable p] {m m' : Option PagerMove} {r r' : PagerAction × Int × S.State}
    (h : p → Obeys pos m r) (h' : ¬ p → Obeys pos m' r') :
    Obeys pos (if p then m else m') (if p then r else r') := by
  split
  · exact h ‹_›
  · exact h' ‹_›

theorem obeys_by (delta : Int) : Obeys pos (some (.by delta)) (.scroll, pagerScrollBy pos delta, c) := by
  refine ⟨rfl, ?_⟩
  simp only [pagerScrollBy, PagerMove.target]
  split <;> omega

theorem obeys_pager (page : Int) (key : ScrollKey) :
    Obeys pos (some (key.move page)) (.scroll, key.pager page pos, c) := by
  cases key with
  | up | down | pageUp | pageDown => exact obeys_by _
  | home | «end» => exact ⟨rfl, rfl⟩

theorem pagerApplyKey_obeys :
    Obeys pos (pagerMove S height key c) (pagerApplyKey S height key pos allowRefresh c) := by
  unfold pagerMove pagerApplyKey
  refine .ite (fun _ => ⟨nofun, rfl⟩) fun _ => ?_
  refine .ite (fun _ => obeys_by _) fun _ => ?_
  refine .ite (fun _ => obeys_by _) fun _ => ?_
  refine .ite (fun _ => obeys_by _) fun _ => ?_
  refine .ite (fun _ => obeys_by _) fun _ => ?_
  refine .ite (fun _ => obeys_by _) fun _ => ?_
  refine .ite (fun _ => obeys_by _) fun _ => ?_
  refine .ite (fun _ => ⟨rfl, rfl⟩) fun _ => ?_
  refine .ite (fun _ => ⟨rfl, rfl⟩) fun _ => ?_
  by_cases hr : (key = 0x72 ∨ key = 0x52) ∧ allowRefresh = true
  · have hesc : key ≠ esc := by rcases hr.1 with rfl | rfl <;> decide
    rw [if_pos hr, if_neg hesc]
    exact ⟨nofun, rfl⟩
  · rw [if_neg hr]
    refine .ite (fun _ => ?_) fun _ => ⟨nofun, rfl⟩
    unfold pagerEscape
    obtain ⟨bytes, c'⟩ := S.read 1 c
    match bytes with
    | [] => exact ⟨nofun, rfl⟩
    | [b] =>
      by_cases hb : b = 0x5B
      · simp only [hb, ne_eq, not_true_eq_false, if_false, if_true]
        obtain ⟨found, c''⟩ := readScrollKey S c'
        cases found with
        | none => exact ⟨nofun, rfl⟩
        | some key => exact obeys_pager _ key
      · simp only [hb, ne_eq, not_false_eq_true, if_true, if_false]
        exact ⟨nofun, rfl⟩
    | _ :: _ :: _ => exact ⟨nofun, rfl⟩

/-- Behind a key that moves the position the pager is drawn. -/
theorem pagerKey_move {p : Pager} {m : PagerMove} (h : pagerMove S p.height key c = some m) (fresh : Bytes) :
    pagerKey S p key c fresh = some (.draw { p with scrollPos := max 0 (m.target p.scrollPos) }) := by
  have hkeys : key ≠ 3 ∧ ¬ (key = 0x6C ∨ key = 0x4C) := by
    refine ⟨?_, not_or.2 ⟨?_, ?_⟩⟩ <;> rintro rfl <;> cases h
  have hobeys (allowRefresh : Bool) :=
    h ▸ @pagerApplyKey_obeys S c p.height key p.scrollPos allowRefresh
  unfold pagerKey
  rw [if_neg hkeys.1]
  cases hkind : p.kind with
  | help =>
    have hobeys := hobeys false
    generalize pagerApplyKey S p.height key p.scrollPos false c = r at hobeys
    obtain ⟨action, pos, c'⟩ := r
    obtain ⟨rfl, rfl⟩ := hobeys
    simp [hkeys.2]
  | output =>
    have hobeys := hobeys true
    generalize pagerApplyKey S p.height key p.scrollPos true c = r at hobeys
    obtain ⟨action, pos, c'⟩ := r
    obtain ⟨rfl, rfl⟩ := hobeys
    simp

end Moves

/-! ## Positions -/

namespace Pager

variable {p : Pager}

theorem maxScroll_nonneg (p : Pager) : 0 ≤ p.maxScroll := by
  unfold maxScroll
  dsimp only
  split <;> omega

/-- Both renderers show the last page for a position behind it. -/
theorem render_start (h : 0 ≤ p.scrollPos) : p.render.2 = p.view (min p.scrollPos p.maxScroll) := by
  have hmin : (if p.scrollPos > p.maxScroll then p.maxScroll else p.scrollPos) = min p.scrollPos p.maxScroll := by
    split <;> omega
  unfold render
  split
  · rw [renderHelp, hmin]
  · rw [renderOutput, if_neg (not_lt.2 h), hmin]

/-- The position that `tui_render_command_output` shows, and keeps. -/
theorem renderOutput_onPage (p : Pager) : p.renderOutput.1.OnPage := by
  have hmax := p.maxScroll_nonneg
  have hclamped : ∀ scroll : Int, 0 ≤ scroll →
      0 ≤ (if scroll > p.maxScroll then p.maxScroll else scroll) ∧
        (if scroll > p.maxScroll then p.maxScroll else scroll) ≤ p.maxScroll := by
    intro scroll h
    split <;> omega
  exact hclamped _ (by split <;> omega)

end Pager

/-! ## Runs -/

section Runs
variable (S : Feed UInt8)

variable {S} {c : S.State} {key : UInt8} {p : Pager} {s s' : PagerState} {e : PagerInput S}

/-- A key that is for no move closes the pager, leaves it undrawn or draws another text from the top. -/
theorem pagerKey_still (h : pagerMove S p.height key c = none) {fresh : Bytes} (hs : pagerKey S p key c fresh = some s') :
    s' = ⟨p, none⟩ ∨ s' = .draw { p with text := fresh, scrollPos := 0 } := by
  obtain ⟨kind, text, inbox, height, pos⟩ := p
  have hstays (allowRefresh : Bool) : ∃ action c', pagerApplyKey S height key pos allowRefresh c = (action, pos, c') ∧
      action ≠ .scroll := by
    have hobeys : Obeys pos none (pagerApplyKey S height key pos allowRefresh c) := h ▸ pagerApplyKey_obeys
    generalize pagerApplyKey S height key pos allowRefresh c = r at hobeys
    obtain ⟨action, pos', c'⟩ := r
    obtain ⟨hscroll, rfl⟩ := hobeys
    exact ⟨action, c', rfl, hscroll⟩
  unfold pagerKey at hs
  split at hs
  · cases hs
  cases kind with
  | help =>
    dsimp only at hs
    split at hs
    · exact .inr (Option.some.inj hs).symm
    obtain ⟨action, c', hcall, hscroll⟩ := hstays false
    simp only [hcall, hscroll, if_false] at hs
    split at hs
    · cases hs
    · exact .inl (Option.some.inj hs).symm
  | output =>
    dsimp only at hs
    obtain ⟨action, c', hcall, hscroll⟩ := hstays true
    simp only [hcall, hscroll, if_false] at hs
    split at hs
    · cases hs
    split at hs
    · exact .inr (Option.some.inj hs).symm
    · exact .inl (Option.some.inj hs).symm

/-- Behind a step there is a pager of the same kind, drawn or not. -/
theorem pagerStep_cases (h0 : 0 ≤ s.pager.scrollPos) (h : pagerStep S s e = some s') :
    ∃ q, (s' = ⟨q, none⟩ ∨ s' = .draw q) ∧ q.kind = s.pager.kind ∧ 0 ≤ q.scrollPos := by
  cases e with
  | key key c fresh =>
    cases hmove : pagerMove S s.pager.height key c with
    | none =>
      rcases pagerKey_still hmove h with rfl | rfl
      · exact ⟨_, .inl rfl, rfl, h0⟩
      · exact ⟨_, .inr rfl, rfl, le_rfl⟩
    | some m =>
      rw [pagerStep, pagerKey_move hmove] at h
      exact ⟨_, .inr (Option.some.inj h).symm, rfl, le_max_left _ _⟩
  | resize height => exact ⟨_, .inl (Option.some.inj h).symm, rfl, h0⟩
  | refresh fresh =>
    rw [pagerStep] at h
    split at h
    · exact ⟨_, .inr (Option.some.inj h).symm, rfl, le_rfl⟩
    · cases h
  | redraw => exact ⟨_, .inr (Option.some.inj h).symm, rfl, h0⟩

/-- What every run keeps. -/
def IsPager (kind : PagerKind) (s : PagerState) : Prop :=
  ∃ q : Pager, (s = ⟨q, none⟩ ∨ s = .draw q) ∧ q.kind = kind ∧ 0 ≤ q.scrollPos

theorem IsPager.pager {kind : PagerKind} (h : IsPager kind s) : s.pager.kind = kind ∧ 0 ≤ s.pager.scrollPos := by
  obtain ⟨q, rfl | rfl, hkind, h0⟩ := h
  · exact ⟨hkind, h0⟩
  · cases hq : q.kind with
    | help =>
      simp only [PagerState.draw, Pager.render, hq]
      exact ⟨hq ▸ hkind, h0⟩
    | output =>
      simp only [PagerState.draw, Pager.render, hq]
      exact ⟨hkind, q.renderOutput_onPage.1⟩

theorem IsPager.step {kind : PagerKind} (h : IsPager kind s) (hs : pagerStep S s e = some s') : IsPager kind s' := by
  obtain ⟨q, hq, hkind, h0⟩ := pagerStep_cases h.pager.2 hs
  exact ⟨q, hq, hkind.trans h.pager.1, h0⟩

end Runs

/-! ## Every line is shown -/

/-- The line stands `i` rows below the first line of the text. -/
def PagerView.Shows (v : PagerView) (i : Nat) (line : Bytes) : Prop :=
  v.start ≤ i ∧ v.rows[((i : Int) - v.start).toNat]? = some line

namespace Pager

variable {p : Pager} {start : Int} {i : Nat} {line : Bytes}

end Pager

section Shown
variable {S : Feed UInt8} {s : PagerState} {v : PagerView} {p : Pager}

/-- What a run has drawn is a view of the text. -/
theorem IsPager.view (h : IsPager p.kind s) (hv : s.view = some v) (htext : s.pager.text = p.text) :
    ∃ start, 0 ≤ start ∧ ∃ q : Pager, q.lines = p.lines ∧ v = q.view start := by
  obtain ⟨q, rfl | rfl, hkind, h0⟩ := h
  · cases hv
  · refine ⟨min q.scrollPos q.maxScroll, le_min h0 q.maxScroll_nonneg, q, ?_, ?_⟩
    · have htext : q.text = p.text := by
        rw [← htext]
        show q.text = q.render.1.text
        unfold Pager.render
        split <;> rfl
      rw [Pager.lines, Pager.lines, htext, hkind]
    · rw [← Pager.render_start h0]
      exact (Option.some.inj hv).symm

end Shown

end Tnt
