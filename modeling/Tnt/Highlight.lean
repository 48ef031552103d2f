import Tnt.HistoryCommands
import Tnt.Lib.Occurrences
/-!
# Highlighted matches (`commands.c`)

`append_highlighted` goes over a text with the search of `:search` and puts every
match into a coloured chip. Without the chips it is the text again.
-/
open BaseLib

namespace Tnt

def chipStart : Bytes := lit "\x1b[7;33m"

def chipReset : Bytes := lit "\x1b[0m"

/-- `append_highlighted`, for a buffer that holds `output`. -/
def appendHighlighted (bufSize : Nat) (output text needle : Bytes) : Bytes :=
  (highlightParts needle text).foldl (bufferAppend bufSize) output

/-- Up to the case of ASCII letters, `needle` stands in `text` at `i`. -/
def MatchesAt (needle text : Bytes) (i : Nat) : Prop := needle.map toLower <+: (text.map toLower).drop i

/-- The segments are the matches that a search from left to right finds. -/
structure Highlights (needle text : Bytes) (s : Segments UInt8) : Prop where
  whole : s.text = text
  leftmost : LeftToRight (MatchesAt needle text) needle.length 0 s.starts
  length_eq : ∀ part ∈ s.parts, part.2.length = needle.length

/-! ## The search -/

theorem strstrAt_some {needle hay rest : Bytes} (h : strstrAt needle hay = some rest) :
    ∃ i ≤ hay.length, rest = hay.drop i ∧ IsLeast {i | needle <+: hay.drop i} i := by
  induction hay with
  | nil =>
    obtain ⟨rfl, hrest⟩ := Option.ite_none_right_eq_some.1 h
    cases hrest
    exact ⟨0, Nat.le_refl _, rfl, List.nil_prefix, fun _ _ => Nat.zero_le _⟩
  | cons c hay ih =>
    rw [strstrAt] at h
    split at h
    · rename_i hpre
      cases h
      exact ⟨0, Nat.zero_le _, rfl, hpre, fun _ _ => Nat.zero_le _⟩
    · rename_i hpre
      obtain ⟨i, hi, hrest, hmem, hleast⟩ := ih h
      refine ⟨i + 1, Nat.succ_le_succ hi, hrest, hmem, ?_⟩
      rintro (_ | j) hj
      · exact absurd hj hpre
      · exact Nat.succ_le_succ (hleast hj)

/-- `strcasestr` finds the first match. -/
theorem strcasestrAt_some {text needle hit : Bytes} (h : strcasestrAt text needle = some hit) :
    ∃ i ≤ text.length, hit = text.drop i ∧ IsLeast {i | MatchesAt needle text i} i := by
  obtain ⟨rest, hrest, rfl⟩ := Option.map_eq_some_iff.1 h
  obtain ⟨i, hi, rfl, hleast⟩ := strstrAt_some hrest
  rw [List.length_map] at hi
  refine ⟨i, hi, ?_, hleast⟩
  rw [List.length_drop, List.length_map, Nat.sub_sub_self hi]

theorem strstrAt_none {needle hay : Bytes} (h : strstrAt needle hay = none) : ¬ needle <:+: hay := by
  induction hay with
  | nil =>
    rw [List.infix_nil]
    rintro rfl
    cases h
  | cons c hay ih =>
    rw [strstrAt] at h
    split at h
    · cases h
    · rename_i hpre
      rw [List.infix_cons_iff]
      exact not_or.2 ⟨hpre, ih h⟩

theorem matchesAt_iff_isInfix {text needle : Bytes} :
    (∃ i, MatchesAt needle text i) ↔ needle.map toLower <:+: text.map toLower := by
  constructor
  · rintro ⟨i, h⟩
    exact h.isInfix.trans (List.drop_suffix i _).isInfix
  · rintro ⟨p, q, h⟩
    refine ⟨p.length, q, ?_⟩
    rw [← h, List.append_assoc, List.drop_left]

theorem strcasestrAt_none {text needle : Bytes} (h : strcasestrAt text needle = none) (i : Nat) :
    ¬ MatchesAt needle text i :=
  fun hi => strstrAt_none (Option.map_eq_none_iff.1 h) (matchesAt_iff_isInfix.1 ⟨i, hi⟩)

/-! ## The chips -/

theorem matchesAt_append {needle text : Bytes} (pre : Bytes) (i : Nat) :
    MatchesAt needle (pre ++ text) (pre.length + i) ↔ MatchesAt needle text i := by
  rw [MatchesAt, MatchesAt, List.map_append, ← List.length_map toLower, List.drop_length_add_append]

/-- A match is as long as the needle. -/
theorem MatchesAt.length_le {needle text : Bytes} {i : Nat} (h : MatchesAt needle text i) (hi : i ≤ text.length) :
    i + needle.length ≤ text.length := by
  have hlen := List.IsPrefix.length_le h
  rw [List.length_map, List.length_drop, List.length_map] at hlen
  omega

/-- What is found behind the front of a text is found from there on in the whole text. -/
theorem highlightParts_segments {needle : Bytes} (hneedle : needle ≠ []) (text pre : Bytes) :
    ∃ s : Segments UInt8, s.text = text ∧ (highlightParts needle text).flatten = s.marked chipStart chipReset ∧
      LeftToRight (MatchesAt needle (pre ++ text)) needle.length pre.length (Segments.startsFrom pre.length s.parts) ∧
      ∀ part ∈ s.parts, part.2.length = needle.length := by
  have hnone (text pre : Bytes) (h : ∀ i, ¬ MatchesAt needle text i) :
      LeftToRight (MatchesAt needle (pre ++ text)) needle.length pre.length [] := by
    refine .done fun i hi hmatch => h (i - pre.length) ?_
    rwa [← matchesAt_append pre, Nat.add_sub_cancel' hi]
  fun_induction highlightParts needle text generalizing pre with
  | case1 => exact absurd ‹needle = []› hneedle
  | case2 =>
    refine ⟨⟨[], []⟩, rfl, rfl, hnone [] pre fun i hi => hneedle ?_, by simp⟩
    rwa [MatchesAt, List.map_nil, List.drop_nil, List.prefix_nil, List.map_eq_nil_iff] at hi
  | case3 text _ _ hmiss =>
    exact ⟨⟨[], text⟩, by simp [Segments.text], by simp [Segments.marked], hnone text pre (strcasestrAt_none hmiss),
      by simp⟩
  | case4 text _ _ hit hhit ih =>
    obtain ⟨i, hi, rfl, hmatch, hleast⟩ := strcasestrAt_some hhit
    have hgap : text.length - (text.drop i).length = i := by rw [List.length_drop, Nat.sub_sub_self hi]
    have hlen := hmatch.length_le hi
    have hwhole : text.take i ++ (text.drop i).take needle.length ++ (text.drop i).drop needle.length = text := by
      rw [List.append_assoc, List.take_append_drop, List.take_append_drop]
    have hseg : ((text.drop i).take needle.length).length = needle.length := by
      rw [List.length_take, List.length_drop]
      omega
    have hfront : (text.take i).length = i := by rw [List.length_take, Nat.min_eq_left hi]
    obtain ⟨s, htext, hmarked, hstarts, hlengths⟩ := ih (pre ++ text.take i ++ (text.drop i).take needle.length)
    refine ⟨s.cons (text.take i) ((text.drop i).take needle.length), ?_, ?_, ?_,
      List.forall_mem_cons.2 ⟨hseg, hlengths⟩⟩
    · rw [Segments.text_cons, htext, hwhole]
    · rw [Segments.marked_cons, ← hmarked, hgap]
      simp [chipStart, chipReset]
    · rw [List.append_assoc (pre ++ text.take i), List.append_assoc pre, ← List.append_assoc (text.take i), hwhole,
        List.length_append, List.length_append, hseg, hfront] at hstarts
      rw [Segments.cons, Segments.startsFrom, hfront, hseg]
      refine .next ⟨⟨Nat.le_add_right _ _, (matchesAt_append pre i).2 hmatch⟩, ?_⟩ hstarts
      rintro j ⟨hj, hjmatch⟩
      rw [← Nat.add_sub_cancel' hj, matchesAt_append] at hjmatch
      have : i ≤ j - pre.length := hleast hjmatch
      omega

/-- The chips stand around the matches, and around nothing else. -/
theorem exists_highlights {needle : Bytes} (hneedle : needle ≠ []) (text : Bytes) :
    ∃ s, Highlights needle text s ∧ (highlightParts needle text).flatten = s.marked chipStart chipReset := by
  obtain ⟨s, hwhole, hmarked, hleftmost, hlength⟩ := highlightParts_segments hneedle text []
  exact ⟨s, ⟨hwhole, hleftmost, hlength⟩, hmarked⟩

/-- A text that the filter of the search lets through has a segment. -/
theorem Highlights.parts_ne_nil {needle text : Bytes} {s : Segments UInt8} (h : Highlights needle text s)
    (hfound : strcasestr text needle = true) : s.parts ≠ [] := by
  obtain ⟨i, hi⟩ := matchesAt_iff_isInfix.2 (strstr_iff.1 hfound)
  exact Segments.parts_ne_nil (h.leftmost.ne_nil (Nat.zero_le i) hi)

/-! ## The search shows why it found a message -/

theorem mem_keepResult {maxResults : Nat} {res : List Message} {m m' : Message} (h : m' ∈ keepResult maxResults res m) :
    m' ∈ res ∨ m' = m := by
  rw [keepResult] at h
  split at h
  · exact (List.mem_append.1 h).imp_right List.mem_singleton.1
  · exact (List.mem_append.1 h).imp (fun h => List.mem_of_mem_drop (List.mem_of_mem_take h)) List.mem_singleton.1

theorem contains_of_mem_messageSearch {dir : LogDir} {query : Bytes} {maxResults : Nat} {now : Int} {m : Message}
    (h : m ∈ messageSearch dir query maxResults now) : m.contains query = true := by
  unfold messageSearch at h
  split at h
  · cases h
  · split at h
    · cases h
    · rw [readLoop_records fun _ => rfl] at h
      refine List.foldlRecOn (motive := fun res : List Message => ∀ m ∈ res, m.contains query = true) _ _
        (by simp) ?_ m h
      intro res hres found _ m hm
      dsimp only at hm
      split at hm
      · rcases mem_keepResult hm with hm | rfl
        · exact hres m hm
        · assumption
      · exact hres m hm

/-- Without its chips, a highlighted text is the text; the chips are around the matches from left to right; and a
message that the search found has one. -/
theorem highlight_faithful :
    (∀ text needle : Bytes, needle ≠ [] → ∃ s, Highlights needle text s ∧ ∀ bufSize output,
      output.length + (s.marked chipStart chipReset).length < bufSize →
        appendHighlighted bufSize output text needle = output ++ s.marked chipStart chipReset) ∧
    ∀ dir query maxResults now, ∀ m ∈ messageSearch dir query maxResults now, ∀ name content,
      Highlights query m.username.bytes name → Highlights query m.content.bytes content →
        name.parts ≠ [] ∨ content.parts ≠ [] := by
  constructor
  · intro text needle hneedle
    obtain ⟨s, hs, hmarked⟩ := exists_highlights hneedle text
    refine ⟨s, hs, fun bufSize output hroom => ?_⟩
    have hfold := foldl_bufferAppend_take bufSize output (highlightParts needle text)
    rwa [hmarked, List.take_of_length_le (by omega),
      List.take_of_length_le (by rw [List.length_append]; omega)] at hfold
  · intro dir query maxResults now m hm name content hname hcontent
    exact ((Bool.or_eq_true _ _).mp (contains_of_mem_messageSearch hm)).imp hname.parts_ne_nil hcontent.parts_ne_nil

theorem highlight_faithful_ann :
    (∃ s bufSize, Highlights (lit "ANA") (lit "Banana") s ∧
      appendHighlighted bufSize (lit "ann: ") (lit "Banana") (lit "ANA") =
        lit "ann: " ++ s.marked chipStart chipReset) ∧
    ∃ m ∈ messageSearch annDir (lit "HI") 15 1752500000, ∀ name content,
      Highlights (lit "HI") m.username.bytes name → Highlights (lit "HI") m.content.bytes content →
        name.parts ≠ [] ∨ content.parts ≠ [] := by
  constructor
  · obtain ⟨s, hs, happend⟩ := highlight_faithful.1 (lit "Banana") (lit "ANA") (by decide)
    exact ⟨s, _, hs, happend _ (lit "ann: ") (Nat.lt_succ_self _)⟩
  · obtain ⟨m, hm⟩ := List.exists_mem_of_ne_nil (messageSearch annDir (lit "HI") 15 1752500000) (by decide)
    exact ⟨m, hm, highlight_faithful.2 annDir (lit "HI") 15 1752500000 m hm⟩

end Tnt
