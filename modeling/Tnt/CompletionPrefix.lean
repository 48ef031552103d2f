import Mathlib.Data.List.ReduceOption
import Tnt.Lib.SharedFronts
import Tnt.Completion
/-!
# What Tab finds (`input.c`, `command_catalog.c`)

`prefix_filter` and `command_catalog_complete` count the candidates that begin with what
is typed, list the first of them, and cut `lcp` down to what all of them share. The cut
is made between bytes: `completion_exact_iff` says when it is one between characters, and so
when the command line stays valid UTF-8.
-/
open BaseLib

namespace Tnt

/-! ## The loops -/

/-- What is returned, and what is left in `matches` and in `lcp`. -/
structure PrefixMatches where
  count : Nat
  found : List Bytes
  lcp : Bytes
  deriving DecidableEq

/-- `while (lcp[k] && name[k] && lcp[k] == name[k]) k++` -/
def sharedLength : Bytes → Bytes → Nat
  | a :: lcp, b :: name => if a = b then sharedLength lcp name + 1 else 0
  | _, _ => 0

/-- One round of `prefix_filter`, or of `command_catalog_complete`. Without `matches` `maxMatches` is 0, and without
`lcp` `lcpSize` is. -/
def prefixFilterRound (typed : Bytes) (maxMatches lcpSize : Nat) (r : PrefixMatches) : Option Bytes → PrefixMatches
  | none => r
  | some name =>
    if typed.length > 0 && !strncasecmpEq name typed typed.length then r
    else
      let found := if r.count < maxMatches then r.found ++ [name] else r.found
      let lcp :=
        if lcpSize = 0 then r.lcp
        else if r.count = 0 then name.take (lcpSize - 1)
        else r.lcp.take (sharedLength r.lcp name)
      ⟨r.count + 1, found, lcp⟩

/-- `prefix_filter`, with what it writes. A candidate may be missing. -/
def prefixFilterInto (cands : List (Option Bytes)) (typed : Bytes) (maxMatches lcpSize : Nat) : PrefixMatches :=
  cands.foldl (prefixFilterRound typed maxMatches lcpSize) ⟨0, [], []⟩

/-- `command_catalog_complete` -/
def commandCatalogComplete (typed : Bytes) (maxMatches lcpSize : Nat) : PrefixMatches :=
  prefixFilterInto (canonicalNames.map some) typed maxMatches lcpSize

/-- What `command_tab_complete` makes of the line, where `front` is what stays in front of what is completed. -/
def tabLine (front typed : Bytes) (r : PrefixMatches) (buf : CBuf MAX_COMMAND_INPUT_LEN) : CBuf MAX_COMMAND_INPUT_LEN :=
  if r.count = 0 then buf
  else if r.count = 1 then CBuf.copy _ (front ++ r.found.headD [] ++ [0x20])
  else if r.lcp.length > typed.length then CBuf.copy _ (front ++ r.lcp)
  else buf

/-! ## What is found -/

/-- The candidates that begin with what is typed, whatever the case of the letters. -/
def matching (typed : Bytes) (cands : List Bytes) : List Bytes :=
  cands.filter fun name => (typed.map toLower).isPrefixOf (name.map toLower)

/-- All matches are counted, the first of them listed in order, and `lcp` is the longest valid text that all of them
begin with. -/
structure Completes (cands : List Bytes) (typed : Bytes) (maxMatches : Nat) (r : PrefixMatches) : Prop where
  count : r.count = (matching typed cands).length
  found : r.found = (matching typed cands).take maxMatches
  lcp : matching typed cands ≠ [] → LongestShared (utf8IsValidString · = true) (matching typed cands) r.lcp

/-- Some names do not part inside a character. -/
def PartBetween (names : List Bytes) : Prop := AgreeInside (isContinuation · = true) names

section
variable {typed name : Bytes} {cands names : List Bytes} {maxMatches lcpSize : Nat}

theorem beginsWith_iff : beginsWith typed name = true ↔ typed.map toLower <+: name.map toLower := by
  rw [beginsWith, strncasecmpEq, List.take_length, Bool.or_eq_true, decide_eq_true_iff, beq_iff_eq, List.map_take]
  constructor
  · rintro (h | h)
    · rw [List.eq_nil_of_length_eq_zero h]
      exact List.nil_prefix
    · exact h ▸ List.take_prefix _ _
  · intro h
    right
    rw [← List.length_map toLower]
    exact (List.prefix_iff_eq_take.1 h).symm

theorem prefixFilter_eq_matching : prefixFilter cands typed = matching typed cands := by
  apply List.filter_congr
  intro name _
  rw [Bool.eq_iff_iff, List.isPrefixOf_iff_prefix]
  exact beginsWith_iff

theorem mem_matching : name ∈ matching typed cands ↔ name ∈ cands ∧ typed.map toLower <+: name.map toLower := by
  rw [matching, List.mem_filter, List.isPrefixOf_iff_prefix]

theorem take_sharedLength (lcp name : Bytes) : lcp.take (sharedLength lcp name) = shared lcp name := by
  induction lcp generalizing name with
  | nil => rfl
  | cons a lcp ih =>
    cases name with
    | nil => rfl
    | cons b name =>
      rw [sharedLength, shared]
      split
      · rw [List.take_succ_cons, ih]
      · rfl

theorem map_takeWhile_zip (lcp name : Bytes) :
    ((lcp.zip name).takeWhile fun (a, b) => a == b).map (·.1) = shared lcp name := by
  induction lcp generalizing name with
  | nil => rfl
  | cons a lcp ih =>
    cases name with
    | nil => rfl
    | cons b name =>
      rw [List.zip_cons_cons, List.takeWhile_cons, shared]
      by_cases h : a = b
      · simp only [h, beq_self_eq_true, if_true, List.map_cons, ih]
      · simp [h]

theorem commonPrefix_eq (names : List Bytes) : commonPrefix names = sharedFront names := by
  cases names with
  | nil => rfl
  | cons name names =>
    rw [commonPrefix, sharedFront]
    congr 1
    funext lcp name
    exact map_takeWhile_zip lcp name

/-! ## What the loops leave -/

/-- What is left behind some matches. -/
def leftBehind (maxMatches : Nat) (names : List Bytes) : PrefixMatches :=
  ⟨names.length, names.take maxMatches, sharedFront names⟩

theorem passes_iff (typed name : Bytes) :
    (decide (typed.length > 0) && !strncasecmpEq name typed typed.length) = !beginsWith typed name := by
  rw [beginsWith, Bool.not_or]
  congr 1
  rw [← decide_not]
  exact decide_eq_decide.2 Nat.pos_iff_ne_zero

theorem prefixFilterRound_other (hname : ¬ typed.map toLower <+: name.map toLower) (r : PrefixMatches) :
    prefixFilterRound typed maxMatches lcpSize r (some name) = r := by
  have hbegins := mt beginsWith_iff.1 hname
  rw [prefixFilterRound, passes_iff, Bool.eq_false_iff.2 hbegins, Bool.not_false, if_pos rfl]

theorem prefixFilterRound_match (hname : typed.map toLower <+: name.map toLower) (hlen : name.length < lcpSize) :
    prefixFilterRound typed maxMatches lcpSize (leftBehind maxMatches names) (some name) =
      leftBehind maxMatches (names ++ [name]) := by
  have hfound : (if names.length < maxMatches then names.take maxMatches ++ [name] else names.take maxMatches) =
      (names ++ [name]).take maxMatches := by
    split
    · rw [List.take_of_length_le (by omega), List.take_of_length_le]
      rw [List.length_append, List.length_singleton]
      omega
    · rw [List.take_append_of_le_length (by omega)]
  have hlcp : (if names.length = 0 then name.take (lcpSize - 1)
      else (sharedFront names).take (sharedLength (sharedFront names) name)) = sharedFront (names ++ [name]) := by
    split
    · rename_i hnil
      rw [List.length_eq_zero_iff.1 hnil, List.take_of_length_le (by omega)]
      rfl
    · rename_i hne
      rw [take_sharedLength, sharedFront_concat (mt List.length_eq_zero_iff.2 hne)]
  have hlength : names.length + 1 = (names ++ [name]).length := by simp
  have hsize : lcpSize ≠ 0 := by omega
  rw [prefixFilterRound, passes_iff, beginsWith_iff.2 hname, Bool.not_true, if_neg nofun]
  simp only [leftBehind, hsize, if_false, PrefixMatches.mk.injEq]
  exact ⟨hlength, hfound, hlcp⟩

theorem foldl_prefixFilterRound {cands : List (Option Bytes)} (h : ∀ name, some name ∈ cands → name.length < lcpSize) :
    cands.foldl (prefixFilterRound typed maxMatches lcpSize) (leftBehind maxMatches names) =
      leftBehind maxMatches (names ++ matching typed cands.reduceOption) := by
  induction cands generalizing names with
  | nil => rw [List.foldl_nil, List.reduceOption_nil, matching, List.filter_nil, List.append_nil]
  | cons cand cands ih =>
    have ih := fun names => @ih names fun name hname => h name (List.mem_cons_of_mem _ hname)
    rw [List.foldl_cons]
    cases cand with
    | none => exact ih names
    | some name =>
      rw [List.reduceOption_cons_of_some, matching, List.filter_cons]
      split
      · rename_i hname
        rw [prefixFilterRound_match (List.isPrefixOf_iff_prefix.1 hname) (h name List.mem_cons_self), ih,
          List.append_assoc]
        rfl
      · rename_i hname
        rw [prefixFilterRound_other (mt List.isPrefixOf_iff_prefix.2 hname), ih]
        rfl

/-- What is left is read off the matches. -/
theorem prefixFilterInto_eq {cands : List (Option Bytes)} (h : ∀ name, some name ∈ cands → name.length < lcpSize) :
    prefixFilterInto cands typed maxMatches lcpSize = leftBehind maxMatches (matching typed cands.reduceOption) := by
  have hstart : (⟨0, [], []⟩ : PrefixMatches) = leftBehind maxMatches [] := by
    rw [leftBehind, List.take_nil]
    rfl
  rw [prefixFilterInto, hstart, foldl_prefixFilterRound h, List.nil_append]

theorem reduceOption_map_some (names : List Bytes) : (names.map some).reduceOption = names := by
  simp [List.reduceOption]

theorem commandCatalogComplete_eq (h : ∀ name ∈ canonicalNames, name.length < lcpSize) :
    commandCatalogComplete typed maxMatches lcpSize = leftBehind maxMatches (matching typed canonicalNames) := by
  rw [commandCatalogComplete, prefixFilterInto_eq, reduceOption_map_some]
  intro name hname
  obtain ⟨_, hmem, heq⟩ := List.mem_map.1 hname
  exact h name (Option.some.inj heq ▸ hmem)

/-! ## Fronts that are valid -/

/-- A valid text may be cut in front of every byte but one that continues a character. -/
theorem valid_take_iff {s : Bytes} (h : utf8IsValidString s = true) (n : Nat) :
    utf8IsValidString (s.take n) = true ↔ ∀ b, s[n]? = some b → ¬ isContinuation b = true := by
  rw [valid_take h, Bool.not_eq_true', byteAt, List.getD_eq_getElem?_getD]
  cases s[n]? with
  | none => simp [isContinuation]
  | some b => simp

theorem valid_sharedFront_iff (hne : names ≠ []) (hvalid : ∀ name ∈ names, utf8IsValidString name = true) :
    utf8IsValidString (sharedFront names) = true ↔ PartBetween names :=
  @good_sharedFront_iff _ _ (utf8IsValidString · = true) names (isContinuation · = true) hne
    fun name hname n => valid_take_iff (hvalid name hname) n

theorem completes_leftBehind_iff (hvalid : ∀ name ∈ cands, utf8IsValidString name = true) :
    Completes cands typed maxMatches (leftBehind maxMatches (matching typed cands)) ↔
      PartBetween (matching typed cands) := by
  have hmatching : ∀ name ∈ matching typed cands, utf8IsValidString name = true :=
    fun name hname => hvalid name (mem_matching.1 hname).1
  constructor
  · intro h
    by_cases hne : matching typed cands = []
    · rw [hne]
      exact nofun
    · exact (valid_sharedFront_iff hne hmatching).1 (h.lcp hne).isGood
  · intro h
    exact ⟨rfl, rfl, fun hne => (longestShared_iff hne).2 ((valid_sharedFront_iff hne hmatching).2 h)⟩

/-! ## The command line -/

theorem toLower_ascii : AsciiMap toLower where
  high := forall_byte (by decide +kernel)
  low := forall_byte (by decide +kernel)
  zero := forall_byte (by decide +kernel)

/-- Only a byte beyond ASCII is mapped to one. -/
theorem AsciiMap.eq_of_high {f : UInt8 → UInt8} (hf : AsciiMap f) {b b' : UInt8} (hb : 0x80 ≤ b.toNat) (h : f b' = b) :
    b' = b := by
  rcases Nat.lt_or_ge b'.toNat 0x80 with hlow | hhigh
  · have := hf.low b' hlow
    rw [h] at this
    omega
  · rw [← h, hf.high b' hhigh]

/-- Texts that begin alike but for the case of letters do not part inside a character of what they begin with. -/
theorem valid_sharedFront_of_le (hne : names ≠ []) (htyped : utf8IsValidString typed = true)
    (hbegin : ∀ name ∈ names, typed.map toLower <+: name.map toLower)
    (hlen : (sharedFront names).length ≤ typed.length) : utf8IsValidString (sharedFront names) = true := by
  obtain ⟨name, hname⟩ := List.exists_mem_of_ne_nil names hne
  have hlower : (sharedFront names).map toLower = (typed.take (sharedFront names).length).map toLower := by
    have hshared := (sharedFront_isPrefix hname).map toLower
    rw [List.prefix_iff_eq_take.1 (List.prefix_of_prefix_length_le hshared (hbegin name hname) (by simpa using hlen)),
      List.length_map, List.map_take]
  rw [← valid_map toLower_ascii, hlower, valid_map toLower_ascii, valid_take_iff htyped]
  intro b hb hinside
  -- The next byte of what is typed would be the next one of every match.
  have hhigh : 0x80 ≤ b.toNat := ((isContinuation_iff b).1 hinside).1
  have hnext : ∀ name ∈ names, sharedFront names ++ [b] <+: name := by
    intro name hname
    have hfront := List.prefix_iff_eq_take.1 (sharedFront_isPrefix hname)
    obtain ⟨rest, hrest⟩ := hbegin name hname
    have hbyte : (name.map toLower)[(sharedFront names).length]? = some b := by
      have hlt := (List.getElem?_eq_some_iff.1 hb).1
      rw [← hrest, List.getElem?_append_left (by simpa using hlt), List.getElem?_map, hb, Option.map_some,
        toLower_ascii.high b hhigh]
    rw [List.getElem?_map, Option.map_eq_some_iff] at hbyte
    obtain ⟨b', hb', hlow⟩ := hbyte
    rw [toLower_ascii.eq_of_high hhigh hlow] at hb'
    have hstep : name.take ((sharedFront names).length + 1) = sharedFront names ++ [b] := by
      rw [List.take_add_one, ← hfront, hb', Option.toList_some]
    exact hstep ▸ List.take_prefix _ _
  have hlonger := ((isPrefix_sharedFront_iff hne).2 hnext).length_le
  rw [List.length_append, List.length_singleton] at hlonger
  omega

/-- What is put into the line is valid if and only if the matches do not part inside a character. -/
theorem valid_tabLine_iff {front : Bytes} {buf : CBuf MAX_COMMAND_INPUT_LEN} (hmax : 1 ≤ maxMatches)
    (hvalid : ∀ name ∈ names, utf8IsValidString name = true)
    (hbegin : ∀ name ∈ names, typed.map toLower <+: name.map toLower)
    (hfits : ∀ name ∈ names, front.length + name.length + 1 < MAX_COMMAND_INPUT_LEN)
    (hfront : utf8IsValidString front = true) (htyped : utf8IsValidString typed = true)
    (hbuf : utf8IsValidString buf.bytes = true) :
    utf8IsValidString (tabLine front typed (leftBehind maxMatches names) buf).bytes = true ↔ PartBetween names := by
  cases names with
  | nil => exact iff_of_true hbuf nofun
  | cons name others =>
    have hcount : (leftBehind maxMatches (name :: others)).count ≠ 0 := Nat.succ_ne_zero _
    rw [← valid_sharedFront_iff (List.cons_ne_nil _ _) hvalid, tabLine, if_neg hcount]
    have hname := hvalid name List.mem_cons_self
    have hroom := hfits name List.mem_cons_self
    split
    · rename_i hone
      have hothers : others = [] := List.length_eq_zero_iff.1 (Nat.succ.inj hone)
      subst hothers
      have hline : utf8IsValidString (front ++ name ++ [0x20]) = true := by
        rw [List.append_assoc, valid_append hfront, valid_append hname]
        rfl
      have hfound : (leftBehind maxMatches [name]).found = [name] := List.take_of_length_le hmax
      refine iff_of_true ?_ hname
      rw [hfound, List.headD_cons, CBuf.copy_bytes (valid_zero_notMem hline)]
      · exact hline
      · simpa [Nat.add_assoc] using hroom
    · split
      · have hshared : sharedFront (name :: others) <+: name := sharedFront_isPrefix List.mem_cons_self
        have hlen := hshared.length_le
        have hnul : 0 ∉ front ++ sharedFront (name :: others) := by
          rw [List.mem_append, not_or]
          exact ⟨valid_zero_notMem hfront, fun h0 => valid_zero_notMem hname (hshared.subset h0)⟩
        have hlcp : (leftBehind maxMatches (name :: others)).lcp = sharedFront (name :: others) := rfl
        rw [hlcp, CBuf.copy_bytes hnul, valid_append hfront]
        rw [List.length_append]
        omega
      · rename_i hle
        exact iff_of_true hbuf (valid_sharedFront_of_le (List.cons_ne_nil _ _) htyped hbegin (Nat.le_of_not_lt hle))

section
variable {room : List (CBuf MAX_USERNAME_LEN)} {buf : CBuf MAX_COMMAND_INPUT_LEN} {word : Bytes} {id : CommandId}

theorem canonicalNames_plain : ∀ name ∈ canonicalNames, name.length ≤ 10 ∧ ∀ b ∈ name, b ≠ 0 ∧ b.toNat < 0x80 := by
  decide

theorem canonicalNames_short : ∀ name ∈ canonicalNames, name.length < 64 := fun name hname =>
  (canonicalNames_plain name hname).1.trans_lt (by decide)

theorem canonicalNames_partBetween (typed : Bytes) : PartBetween (matching typed canonicalNames) := by
  refine agreeInside_of_none fun name hname b hb hinside => ?_
  have hlow := ((canonicalNames_plain name (mem_matching.1 hname).1).2 b hb).2
  have hhigh := ((isContinuation_iff b).1 hinside).1
  omega

/-- A word without a space is completed from the catalog. -/
theorem commandTabComplete_word (hbuf : 0x20 ∉ buf.bytes) :
    commandTabComplete room buf = tabLine [] buf.bytes (commandCatalogComplete buf.bytes 16 64) buf := by
  rw [commandCatalogComplete_eq canonicalNames_short]
  unfold commandTabComplete
  rw [if_pos hbuf, ← canonicalNames, prefixFilter_eq_matching]
  rcases matching buf.bytes canonicalNames with _ | ⟨name, _ | ⟨other, others⟩⟩
  · rfl
  · rfl
  · dsimp only
    rw [commonPrefix_eq]
    rfl

theorem fits_of_some_mem (hcands : tabCandidates room word = some (id, cands)) :
    ∀ name, some name ∈ cands.map some → name.length < MAX_USERNAME_LEN := by
  intro name hname
  obtain ⟨_, hmem, heq⟩ := List.mem_map.1 hname
  exact (fits_of_tabCandidates hcands (Option.some.inj heq ▸ hmem)).1

/-- Behind a word with candidates, the first argument is completed from these. -/
theorem commandTabComplete_first (hbuf : tabArgument buf.bytes = some (word, typed))
    (hcands : tabCandidates room word = some (id, cands)) :
    commandTabComplete room buf =
      tabLine (word ++ [0x20]) typed (prefixFilterInto (cands.map some) typed 64 MAX_USERNAME_LEN) buf := by
  rw [prefixFilterInto_eq (fits_of_some_mem hcands), reduceOption_map_some]
  simp only [tabArgument, Option.ite_none_left_eq_some, Option.some.injEq, Prod.mk.injEq] at hbuf
  obtain ⟨hspace, hword, htyped, rfl, rfl⟩ := hbuf
  unfold tabCandidates at hcands
  unfold commandTabComplete
  rw [if_neg hspace]
  dsimp only at hcands ⊢
  rw [if_neg hword, if_neg htyped, ← prefixFilter_eq_matching]
  split_ifs at hcands ⊢ <;> cases hcands
  all_goals
    dsimp only
    generalize prefixFilter _ _ = found
    rcases found with _ | ⟨name, _ | ⟨other, others⟩⟩
    · rfl
    · dsimp only
      rw [List.append_cons _ 0x20 name]
      rfl
    · dsimp only
      rw [commonPrefix_eq, List.append_cons _ 0x20 (sharedFront _)]
      rfl

/-- Otherwise the line stays as it is. -/
theorem commandTabComplete_other (hspace : 0x20 ∈ buf.bytes) (hother : ∀ word typed id cands,
    tabArgument buf.bytes = some (word, typed) → tabCandidates room word ≠ some (id, cands)) :
    commandTabComplete room buf = buf := by
  unfold commandTabComplete
  rw [if_neg (not_not.2 hspace)]
  dsimp only
  split
  · rfl
  split
  · rfl
  rename_i hword htyped
  have hnone := fun id cands => hother _ _ id cands (by
    rw [tabArgument, if_neg (not_not.2 hspace)]
    dsimp only
    rw [if_neg hword, if_neg htyped])
  unfold tabCandidates at hnone
  dsimp only at hnone
  split_ifs at hnone ⊢
  · exact absurd rfl (hnone _ _)
  · exact absurd rfl (hnone _ _)
  · exact absurd rfl (hnone _ _)
  · rfl

theorem valid_skipSpaces {s : Bytes} (h : utf8IsValidString s = true) : utf8IsValidString (skipSpaces s) = true := by
  induction s with
  | nil => rfl
  | cons b s ih =>
    rw [skipSpaces, List.dropWhile_cons]
    split
    · rename_i hb
      rw [beq_iff_eq.1 hb, ← List.nil_append (0x20 :: s), valid_split (by decide) (by decide), Bool.and_eq_true] at h
      exact ih h.2
    · exact h

/-- The two sides of the first space of a valid line are valid. -/
theorem valid_tabArgument (hbuf : tabArgument buf.bytes = some (word, typed))
    (h : utf8IsValidString buf.bytes = true) : utf8IsValidString (word ++ [0x20]) = true ∧
      utf8IsValidString typed = true := by
  simp only [tabArgument, Option.ite_none_left_eq_some, Option.some.injEq, Prod.mk.injEq] at hbuf
  obtain ⟨hspace, -, -, rfl, rfl⟩ := hbuf
  obtain ⟨front, rest, hline, hfront⟩ := List.eq_append_cons_of_mem (not_not.1 hspace)
  have hword : buf.bytes.takeWhile (· != 0x20) = front := by
    rw [hline, List.takeWhile_append_of_pos fun b hb => bne_iff_ne.2 (ne_of_mem_of_not_mem hb hfront)]
    exact List.append_nil front
  rw [hword]
  rw [hline] at h ⊢
  rw [List.drop_left]
  have hspaces : skipSpaces (0x20 :: rest) = skipSpaces rest := rfl
  have hparts := h
  rw [valid_split (by decide) (by decide), Bool.and_eq_true] at hparts
  rw [hspaces]
  exact ⟨valid_of_space h, valid_skipSpaces hparts.2⟩

theorem valid_tabCandidates (hcands : tabCandidates room word = some (id, cands))
    (hroom : ∀ name ∈ room, utf8IsValidString name.bytes = true) : ∀ name ∈ cands, utf8IsValidString name = true := by
  unfold tabCandidates at hcands
  dsimp only at hcands
  split_ifs at hcands <;> cases hcands
  · decide
  · decide
  · intro name hname
    obtain ⟨n, hn, rfl⟩ := List.mem_map.1 (List.mem_of_mem_take hname)
    exact hroom n hn

/-- The command line stays valid under Tab if and only if the matches for a first argument do not part inside a
character. -/
theorem valid_commandTabComplete_iff (hroom : ∀ name ∈ room, utf8IsValidString name.bytes = true)
    (hbuf : utf8IsValidString buf.bytes = true) :
    utf8IsValidString (commandTabComplete room buf).bytes = true ↔
      ∀ word typed id cands, tabArgument buf.bytes = some (word, typed) → tabCandidates room word = some (id, cands) →
        PartBetween (matching typed cands) := by
  by_cases hspace : 0x20 ∈ buf.bytes
  · by_cases hfirst : ∃ word typed id cands,
      tabArgument buf.bytes = some (word, typed) ∧ tabCandidates room word = some (id, cands)
    · obtain ⟨word, typed, id, cands, hargument, hcands⟩ := hfirst
      obtain ⟨hword, htyped⟩ := valid_tabArgument hargument hbuf
      have hvalid : ∀ name ∈ matching typed cands, utf8IsValidString name = true :=
        fun name hname => valid_tabCandidates hcands hroom name (mem_matching.1 hname).1
      have hfits : ∀ name ∈ matching typed cands,
          (word ++ [0x20]).length + name.length + 1 < MAX_COMMAND_INPUT_LEN := by
        intro name hname
        have hname := (fits_of_tabCandidates hcands (mem_matching.1 hname).1).1
        have hlen := (tabArgument_some hargument).2.1
        rw [MAX_USERNAME_LEN] at hname
        rw [List.length_append, List.length_singleton, MAX_COMMAND_INPUT_LEN]
        omega
      rw [commandTabComplete_first hargument hcands, prefixFilterInto_eq (fits_of_some_mem hcands),
        reduceOption_map_some, valid_tabLine_iff (show 1 ≤ 64 by decide) hvalid
          (fun name hname => (mem_matching.1 hname).2) hfits hword htyped hbuf]
      constructor
      · intro h word' typed' id' cands' hargument' hcands'
        rw [hargument] at hargument'
        cases hargument'
        rw [hcands] at hcands'
        cases hcands'
        exact h
      · exact fun h => h word typed id cands hargument hcands
    · rw [commandTabComplete_other hspace fun word typed id cands h h' => hfirst ⟨word, typed, id, cands, h, h'⟩]
      exact iff_of_true hbuf fun word typed id cands h h' => absurd ⟨word, typed, id, cands, h, h'⟩ hfirst
  · have hvalid : ∀ name ∈ matching buf.bytes canonicalNames, utf8IsValidString name = true :=
      fun name hname => valid_of_ascii (canonicalNames_plain name (mem_matching.1 hname).1).2
    have hfits : ∀ name ∈ matching buf.bytes canonicalNames,
        ([] : Bytes).length + name.length + 1 < MAX_COMMAND_INPUT_LEN := by
      intro name hname
      have hname := (canonicalNames_plain name (mem_matching.1 hname).1).1
      rw [List.length_nil, MAX_COMMAND_INPUT_LEN]
      omega
    rw [commandTabComplete_word hspace, commandCatalogComplete_eq canonicalNames_short,
      valid_tabLine_iff (show 1 ≤ 16 by decide) hvalid (fun name hname => (mem_matching.1 hname).2) hfits valid_nil hbuf
        hbuf]
    refine iff_of_true (canonicalNames_partBetween _) fun word typed id cands hargument => ?_
    rw [tabArgument, if_pos hspace] at hargument
    cases hargument

end

end

/-- Matches are counted and listed, and `lcp` is the longest valid text that they share if and only if they do not part
inside a character. The names of the catalog never do. The command line stays valid as long as the matches for a first
argument do not. -/
theorem completion_exact_iff (cands : List (Option Bytes)) (typed : Bytes) (maxMatches lcpSize : Nat)
    (room : List (CBuf MAX_USERNAME_LEN)) (buf : CBuf MAX_COMMAND_INPUT_LEN) :
    ((∀ name, some name ∈ cands → utf8IsValidString name = true ∧ name.length < lcpSize) →
      (Completes cands.reduceOption typed maxMatches (prefixFilterInto cands typed maxMatches lcpSize) ↔
        PartBetween (matching typed cands.reduceOption))) ∧
    ((∀ name ∈ canonicalNames, name.length < lcpSize) →
      Completes canonicalNames typed maxMatches (commandCatalogComplete typed maxMatches lcpSize)) ∧
    ((∀ name ∈ room, utf8IsValidString name.bytes = true) → utf8IsValidString buf.bytes = true →
      (utf8IsValidString (commandTabComplete room buf).bytes = true ↔
        ∀ word first id names, tabArgument buf.bytes = some (word, first) →
          tabCandidates room word = some (id, names) → PartBetween (matching first names))) := by
  refine ⟨fun hnames => ?_, fun hshort => ?_, fun hroom hbuf => valid_commandTabComplete_iff hroom hbuf⟩
  · rw [prefixFilterInto_eq fun name hname => (hnames name hname).2]
    exact completes_leftBehind_iff fun name hname => (hnames name (List.reduceOption_mem_iff.1 hname)).1
  · rw [commandCatalogComplete_eq hshort, completes_leftBehind_iff fun name hname =>
      valid_of_ascii (canonicalNames_plain name hname).2]
    exact canonicalNames_partBetween typed

/-- Behind `JO`, of `josé`, a missing name, `bob` and `josefa`; and behind `msg JO` in a room of the three. -/
theorem completion_exact_jos :
    let cands := [some (lit "jos" ++ [0xC3, 0xA9]), none, some (lit "bob"), some (lit "josefa")]
    let r := prefixFilterInto cands (lit "JO") 64 MAX_USERNAME_LEN
    let line := commandTabComplete (cands.reduceOption.map (CBuf.copy _)) (CBuf.copy _ (lit "msg JO"))
    Completes cands.reduceOption (lit "JO") 64 r ∧ r.count = 2 ∧ r.lcp = lit "jos" ∧
      utf8IsValidString line.bytes = true ∧ line.bytes = lit "msg jos" := by
  intro cands r line
  have hnames : ∀ name, some name ∈ cands → utf8IsValidString name = true ∧ name.length < MAX_USERNAME_LEN := by
    simp only [cands, List.mem_cons, Option.some.injEq, reduceCtorEq, false_or, List.not_mem_nil, or_false]
    rintro name (rfl | rfl | rfl) <;> decide
  have hpart : PartBetween (matching (lit "JO") cands.reduceOption) := by
    rw [← valid_sharedFront_iff (by decide) (by decide)]
    decide
  obtain ⟨hcompletes, -, hline⟩ := completion_exact_iff cands (lit "JO") 64 MAX_USERNAME_LEN
    (cands.reduceOption.map (CBuf.copy _)) (CBuf.copy _ (lit "msg JO"))
  refine ⟨(hcompletes hnames).2 hpart, by decide, by decide,
    (hline (by decide) (by decide)).2 ?_, by decide⟩
  intro word first id names hword hcands
  have hargument : tabArgument (CBuf.copy MAX_COMMAND_INPUT_LEN (lit "msg JO")).bytes = some (lit "msg", lit "JO") := by
    decide
  obtain ⟨rfl, rfl⟩ := Prod.mk.inj (Option.some.inj (hargument.symm.trans hword))
  have hroom : tabCandidates (cands.reduceOption.map (CBuf.copy _)) (lit "msg") = some (.msg, cands.reduceOption) := by
    decide
  obtain ⟨rfl, rfl⟩ := Prod.mk.inj (Option.some.inj (hroom.symm.trans hcands))
  exact hpart

/-- `é` and `è` share their first byte only, and it is put behind `msg `. -/
theorem accents_part :
    let names : List Bytes := [[0xC3, 0xA9], [0xC3, 0xA8]]
    let room := names.map (CBuf.copy MAX_USERNAME_LEN)
    (∀ name ∈ names, utf8IsValidString name = true ∧ name.length < MAX_USERNAME_LEN) ∧
      ¬ Completes names [] 64 (prefixFilterInto (names.map some) [] 64 MAX_USERNAME_LEN) ∧
      (commandTabComplete room (CBuf.copy _ (lit "msg "))).bytes = lit "msg " ++ [0xC3] ∧
      utf8IsValidString (lit "msg ") = true ∧ utf8IsValidString (lit "msg " ++ [0xC3]) = false := by
  refine ⟨by decide, fun h => ?_, by decide, by decide, by decide⟩
  have hgood := (h.lcp (by decide)).isGood
  revert hgood
  decide

end Tnt
