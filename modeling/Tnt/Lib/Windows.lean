import Mathlib.Data.List.DropRight
/-!
# Windows onto the newest entries

A bounded list that loses its oldest entry to a new one holds the newest ones of
all that came (`slide_rtake`). A mailbox is such a window with a mark on every
unread entry, a count of them, and the newest entry; it is read and cleared as a
whole. `Mailbox.foldl_apply` says what it holds after any events.
-/

namespace BaseLib

variable {α β : Type*}

/-- Appending to a list of at most `n` entries. -/
def slide (n : Nat) (l : List α) (x : α) : List α := (if l.length < n then l else l.tail) ++ [x]

section
variable {n : Nat} (l : List α) (x : α)

theorem length_rtake_le : (l.rtake n).length ≤ n := by
  rw [List.rtake, List.length_drop]
  omega

theorem map_rtake (f : α → β) : (l.rtake n).map f = (l.map f).rtake n := by
  rw [List.rtake, List.rtake, List.map_drop, List.length_map]

/-- A window onto the second of two lists shows as much as one onto both, if it is filled or there is nothing in
front. -/
theorem length_rtake_append_iff {a b : List α} (hn : 0 < n) :
    (b.rtake n).length = ((a ++ b).rtake n).length ↔ a = [] ∨ n ≤ b.length := by
  rw [← List.length_eq_zero_iff]
  simp only [List.rtake, List.length_drop, List.length_append]
  omega

theorem rtake_append_of {a b : List α} (h : a = [] ∨ n ≤ b.length) : (a ++ b).rtake n = b.rtake n := by
  rcases h with rfl | h
  · rw [List.nil_append]
  · have hdrop : a.length + b.length - n = a.length + (b.length - n) := by omega
    rw [List.rtake, List.rtake, List.length_append, hdrop, List.drop_length_add_append]

theorem slide_rtake (hn : 0 < n) : slide n (l.rtake n) x = (l ++ [x]).rtake n := by
  have hlast : (l ++ [x]).rtake n = l.rtake (n - 1) ++ [x] := by
    obtain ⟨k, rfl⟩ := Nat.exists_eq_succ_of_ne_zero hn.ne'
    exact List.rtake_concat_succ l k x
  rw [hlast]
  simp only [slide, List.rtake, List.length_drop, List.tail_drop]
  split <;> congr 2 <;> omega

theorem map_slide (f : α → β) : (slide n l x).map f = slide n (l.map f) (f x) := by
  unfold slide
  split <;> rename_i h <;> simp [h]

/-- The window as an array is shifted: its entries from the second on, and then the new one. -/
theorem slide_eq_take {l : List α} (h : l.length ≤ n) :
    slide n l x = if l.length < n then l ++ [x] else (l.drop 1).take (n - 1) ++ [x] := by
  unfold slide
  split
  · rfl
  · rw [List.take_of_length_le (by rw [List.length_drop]; omega), List.drop_one]
end

inductive MailEvent (α : Type*)
  | append (x : α)
  /-- All entries are shown. -/
  | render
  | clear

namespace MailEvent

def isRender : MailEvent α → Bool
  | render => true
  | _ => false

def isClear : MailEvent α → Bool
  | clear => true
  | _ => false

def entry : MailEvent α → Option α
  | append x => some x
  | _ => none

end MailEvent

section
variable (incoming : α → Bool)

/-- The entries that were arrived. -/
def arrived (es : List (MailEvent α)) : List α := es.filterMap MailEvent.entry

/-- They with a mark: an incoming one that is not rendered later is unread. -/
def marked : List (MailEvent α) → List (α × Bool)
  | [] => []
  | .append x :: es => (x, incoming x && !es.any MailEvent.isRender) :: marked es
  | _ :: es => marked es

def sinceClear (es : List (MailEvent α)) : List (MailEvent α) := es.rtakeWhile (!·.isClear)

/-- What came since the last render or clear. -/
def sinceRead (es : List (MailEvent α)) : List (MailEvent α) := es.rtakeWhile fun e => !e.isRender && !e.isClear

/-- Entries with their marks, the count of unread ones, and the entry that came last. -/
structure Mailbox (α : Type*) where
  entries : List (α × Bool)
  unread : Nat
  newest : Option α

namespace Mailbox

def empty : Mailbox α := ⟨[], 0, none⟩

/-- What an event does to a mailbox of `n` entries. -/
def apply (n : Nat) (b : Mailbox α) : MailEvent α → Mailbox α
  | .append x =>
    ⟨slide n b.entries (x, incoming x), if incoming x then b.unread + 1 else b.unread, some x⟩
  | .render => ⟨b.entries.map fun e => (e.1, false), 0, b.newest⟩
  | .clear => empty

end Mailbox

/-! ## One more event -/

variable (es : List (MailEvent α)) (x : α)

theorem sinceClear_concat (e : MailEvent α) :
    sinceClear (es ++ [e]) = if e.isClear then [] else sinceClear es ++ [e] := by
  unfold sinceClear
  rw [List.rtakeWhile_concat]
  cases e.isClear <;> rfl

theorem sinceRead_concat (e : MailEvent α) :
    sinceRead (es ++ [e]) = if e.isRender || e.isClear then [] else sinceRead es ++ [e] := by
  unfold sinceRead
  rw [List.rtakeWhile_concat]
  cases e.isRender <;> cases e.isClear <;> rfl

theorem arrived_append : arrived (es ++ [.append x]) = arrived es ++ [x] := by
  unfold arrived
  rw [List.filterMap_append]
  rfl

theorem arrived_render : arrived (es ++ [.render]) = arrived es := by
  unfold arrived
  rw [List.filterMap_append]
  exact List.append_nil _

theorem marked_append : marked incoming (es ++ [.append x]) = marked incoming es ++ [(x, incoming x)] := by
  induction es with
  | nil => simp [marked]
  | cons e es ih =>
    cases e with
    | append y => simp [marked, ih, MailEvent.isRender]
    | render => exact ih
    | clear => exact ih

theorem marked_render :
    marked incoming (es ++ [.render]) = (marked incoming es).map fun e => (e.1, false) := by
  induction es with
  | nil => rfl
  | cons e es ih =>
    cases e with
    | append y => simp [marked, ih, MailEvent.isRender]
    | render => exact ih
    | clear => exact ih

theorem Mailbox.foldl_apply {n : Nat} (hn : 0 < n) :
    es.foldl (Mailbox.apply incoming n) .empty =
      ⟨(marked incoming (sinceClear es)).rtake n, (arrived (sinceRead es)).countP incoming,
        (arrived (sinceClear es)).getLast?⟩ := by
  have hempty : (⟨(marked incoming []).rtake n, 0, none⟩ : Mailbox α) = .empty := by
    rw [marked, List.rtake_nil]
    rfl
  induction es using List.reverseRecOn with
  | nil => exact hempty.symm
  | append_singleton es e ih =>
    rw [List.foldl_append, List.foldl_cons, List.foldl_nil, ih, sinceClear_concat, sinceRead_concat]
    cases e with
    | append x =>
      simp only [Mailbox.apply, MailEvent.isClear, MailEvent.isRender, Bool.or_false, Bool.false_eq_true, if_false,
        marked_append, arrived_append, slide_rtake _ _ hn, List.countP_append, List.getLast?_concat]
      cases hx : incoming x <;> simp [hx]
    | render =>
      simp only [Mailbox.apply, MailEvent.isClear, MailEvent.isRender, Bool.or_false, Bool.false_eq_true, if_false,
        if_true, marked_render, arrived_render, map_rtake]
      rfl
    | clear => exact hempty.symm
end

end BaseLib
