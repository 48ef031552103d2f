import Tnt.Addressing
/-!
# Completion and dispatch (`input.c`, `command_catalog.c`, `commands.c`)

Tab completes a command line by rules of its own: it takes a command word in any
letter case, and puts in any name as it is. `tab_agrees_iff` says when the line that
comes of it is read by the dispatcher as it was meant.
-/
open BaseLib

namespace Tnt

/-! ## What is completed -/

/-- The names that `command_catalog_complete` goes through. -/
def canonicalNames : List Bytes := commandCatalog.map fun (_, names) => names.headD []

/-- `cmd` and `argregion` of `command_tab_complete`, where the first argument is completed. -/
def tabArgument (buf : Bytes) : Option (Bytes × Bytes) :=
  if 0x20 ∉ buf then none
  else
    let cmd := buf.takeWhile (· != 0x20)
    let argRegion := skipSpaces (buf.drop cmd.length)
    if cmd.length = 0 ∨ cmd.length ≥ 32 then none
    else if 0x20 ∈ argRegion then none
    else some (cmd, argRegion)

/-- The command that a word is taken for, and the candidates for its first argument. -/
def tabCandidates (names : List (CBuf MAX_USERNAME_LEN)) (cmd : Bytes) : Option (CommandId × List Bytes) :=
  let isNamed (name : Bytes) := cmd.map toLower == name
  if isNamed (lit "theme") || isNamed (lit "color") then some (.theme, themeNames)
  else if isNamed (lit "lang") || isNamed (lit "language") then some (.lang, [lit "en", lit "zh"])
  else if isNamed (lit "msg") || isNamed (lit "w") then some (.msg, (names.map (·.bytes)).take 64)
  else none

/-- A candidate begins with what is typed, in any letter case. -/
def beginsWith (typed name : Bytes) : Bool := typed.length = 0 || strncasecmpEq name typed typed.length

/-! ## What is dispatched -/

/-- The target of `:msg`, as `commands_dispatch` cuts it out of the argument. -/
def msgTarget (arg : Bytes) : Bytes :=
  ((arg.dropWhile (· == 0x20)).takeWhile (· != 0x20)).take (MAX_USERNAME_LEN - 1)

/-- What `commands_dispatch` takes as the first argument of a command. -/
def dispatchedArgument (id : CommandId) (arg : Bytes) : Bytes :=
  match id with
  | .msg => msgTarget arg
  | .theme => skipSpaces arg
  | _ => arg

/-- A line is a command with a first argument, for the catalog as it is and for the dispatcher behind its trimming. -/
structure DispatchedAs (buf : CBuf MAX_COMMAND_INPUT_LEN) (id : CommandId) (argument : Bytes) : Prop where
  matched : ∃ arg, commandCatalogMatch buf.bytes = some (id, arg)
  dispatched : ∃ arg, commandCatalogMatch (commandText buf) = some (id, arg) ∧ dispatchedArgument id arg = argument

section
variable (names : List (CBuf MAX_USERNAME_LEN)) (buf : CBuf MAX_COMMAND_INPUT_LEN)

/-- What Tab puts in is read as what was chosen, and nothing is offered behind a word that is no command. -/
structure TabAgrees : Prop where
  command : ∀ name, 0x20 ∉ buf.bytes → prefixFilter canonicalNames buf.bytes = [name] →
    (commandTabComplete names buf).bytes = name ++ [0x20] ∧
      ∃ id others, (id, name :: others) ∈ commandCatalog ∧ DispatchedAs (commandTabComplete names buf) id []
  argument : ∀ word typed id cands name, tabArgument buf.bytes = some (word, typed) →
    tabCandidates names word = some (id, cands) → prefixFilter cands typed = [name] →
      (commandTabComplete names buf).bytes = word ++ 0x20 :: name ++ [0x20] ∧
        DispatchedAs (commandTabComplete names buf) id name
  rejected : ∀ word typed id cands, tabArgument buf.bytes = some (word, typed) →
    tabCandidates names word = some (id, cands) → commandCatalogMatch word = none → prefixFilter cands typed = []

/-- Where something is offered, the word is in lower case, and an only candidate has no space in it. -/
def TabSafe : Prop :=
  ∀ word typed id cands, tabArgument buf.bytes = some (word, typed) → tabCandidates names word = some (id, cands) →
    ∀ name ∈ cands, beginsWith typed name = true →
      word.map toLower = word ∧ (cands.countP (beginsWith typed) = 1 → 0x20 ∉ name)

end

section
variable {names : List (CBuf MAX_USERNAME_LEN)} {buf : CBuf MAX_COMMAND_INPUT_LEN} {word typed name : Bytes}
  {id : CommandId} {cands : List Bytes}

theorem mem_prefixFilter : name ∈ prefixFilter cands typed ↔ name ∈ cands ∧ beginsWith typed name = true :=
  List.mem_filter

theorem countP_eq_one (h : prefixFilter cands typed = [name]) : cands.countP (beginsWith typed) = 1 := by
  have hlen : (cands.filter (beginsWith typed)).length = 1 := congrArg List.length h
  rwa [List.countP_eq_length_filter]

theorem tabArgument_some (h : tabArgument buf.bytes = some (word, typed)) :
    word <+: buf.bytes ∧ word.length < 32 ∧ 0x20 ∉ word := by
  simp only [tabArgument, Option.ite_none_left_eq_some, Option.some.injEq, Prod.mk.injEq] at h
  obtain ⟨-, hlen, -, rfl, -⟩ := h
  refine ⟨List.takeWhile_prefix _, by omega, fun hmem => ?_⟩
  exact bne_iff_ne.1 (@List.mem_takeWhile_imp _ (· != 0x20) _ _ hmem) rfl

theorem commandTabComplete_command (hbuf : 0x20 ∉ buf.bytes) (hname : prefixFilter canonicalNames buf.bytes = [name]) :
    commandTabComplete names buf = CBuf.copy _ (name ++ [0x20]) := by
  unfold commandTabComplete
  rw [if_pos hbuf]
  rw [canonicalNames] at hname
  rw [hname]

theorem commandTabComplete_argument (hbuf : tabArgument buf.bytes = some (word, typed))
    (hcands : tabCandidates names word = some (id, cands)) (hname : prefixFilter cands typed = [name]) :
    commandTabComplete names buf = CBuf.copy _ (word ++ 0x20 :: name ++ [0x20]) := by
  simp only [tabArgument, Option.ite_none_left_eq_some, Option.some.injEq, Prod.mk.injEq] at hbuf
  obtain ⟨hspace, hword, htyped, rfl, rfl⟩ := hbuf
  unfold tabCandidates at hcands
  unfold commandTabComplete
  rw [if_neg hspace]
  dsimp only at hcands ⊢
  rw [if_neg hword, if_neg htyped]
  split_ifs at hcands ⊢ <;> cases hcands <;> simp only [hname]

/-- The candidates fit behind the word. -/
theorem fits_of_tabCandidates (hcands : tabCandidates names word = some (id, cands)) (hname : name ∈ cands) :
    name.length < MAX_USERNAME_LEN ∧ 0 ∉ name := by
  unfold tabCandidates at hcands
  dsimp only at hcands
  split_ifs at hcands <;> cases hcands
  · revert name
    decide
  · revert name
    decide
  · obtain ⟨n, -, rfl⟩ := List.mem_map.1 (List.mem_of_mem_take hname)
    exact ⟨n.fits, n.nul_free⟩

/-! ## Words of the catalog -/

/-- A name of the catalog is read as its command. -/
theorem commandCatalogMatch_name {others : List Bytes} (hentry : (id, others) ∈ commandCatalog)
    (hname : name ∈ others) {rest : Bytes} (hrest : rest = [] ∨ rest.head? = some 0x20) :
    commandCatalogMatch (name ++ rest) = some (id, skipSpaces rest) := by
  have hcases : rest = [] ∨ ∃ t, rest = 0x20 :: t := by
    cases rest with
    | nil => exact .inl rfl
    | cons b t => exact .inr ⟨t, by simpa using hrest⟩
  simp only [commandCatalog, List.mem_cons, Prod.mk.injEq, List.not_mem_nil, or_false] at hentry
  rcases hentry with h | h | h | h | h | h | h | h | h | h | h | h | h <;> obtain ⟨rfl, rfl⟩ := h <;>
    simp only [List.mem_cons, List.not_mem_nil, or_false] at hname <;>
    rcases hname with rfl | rfl | rfl <;> rcases hcases with rfl | ⟨t, rfl⟩ <;> rfl

/-- A word that is read as a command is one of its names. -/
theorem mem_of_commandCatalogMatch {arg : Bytes} (h : commandCatalogMatch word = some (id, arg)) (hspace : 0x20 ∉ word)
    (hnul : 0 ∉ word) : ∃ others, (id, others) ∈ commandCatalog ∧ word ∈ others := by
  obtain ⟨others, name, rest, hentry, hname, hword, hend, -⟩ := commandCatalogMatch_some h
  have hskip : skipSpaces word = word := skipSpaces_of_head fun hhead => hspace (List.mem_of_head? hhead)
  rw [hskip] at hword
  cases rest with
  | nil =>
    rw [List.append_nil] at hword
    exact ⟨others, hentry, hword ▸ hname⟩
  | cons b t =>
    have hb : b ∈ word := by simp [hword]
    rcases hend with rfl | rfl
    · exact absurd hb hnul
    · exact absurd hb hspace

theorem lower_of_mem_catalog : ∀ entry ∈ commandCatalog, ∀ name ∈ entry.2,
    name.map toLower = name ∧ Trimmed name ∧ name.head? ≠ some 0x3A := by
  unfold Trimmed
  decide

/-- A word in lower case behind which something is offered is a name of that command. -/
theorem mem_catalog_of_tabCandidates (h : tabCandidates names word = some (id, cands))
    (hlower : word.map toLower = word) : ∃ others, (id, others) ∈ commandCatalog ∧ word ∈ others := by
  unfold tabCandidates at h
  simp only [hlower, Bool.or_eq_true, beq_iff_eq] at h
  split_ifs at h with h1 h2 h3 <;> cases h
  · exact ⟨[lit "theme", lit "color"], by decide, by simpa using h1⟩
  · exact ⟨[lit "lang", lit "language"], by decide, by simpa using h2⟩
  · exact ⟨[lit "msg", lit "w"], by decide, by simpa using h3⟩

/-! ## The completed line -/

/-- The target that `:msg` sends to. -/
theorem msgArgs_target {arg content : Bytes} {target : CBuf MAX_USERNAME_LEN}
    (h : msgArgs arg = some (target, content)) : target = CBuf.copy _ (msgTarget arg) := by
  simp only [msgArgs, Option.ite_none_left_eq_some, Option.some.injEq, Prod.mk.injEq] at h
  exact h.2.1.symm

theorem space_notMem_msgTarget (arg : Bytes) : 0x20 ∉ msgTarget arg := by
  intro h
  have hmem := List.mem_of_mem_take h
  exact bne_iff_ne.1 (@List.mem_takeWhile_imp _ (· != 0x20) _ _ hmem) rfl

/-- Only names have spaces in them. -/
theorem space_notMem_of_tabCandidates (h : tabCandidates names word = some (id, cands)) (hid : id ≠ .msg) :
    ∀ name ∈ cands, 0x20 ∉ name := by
  unfold tabCandidates at h
  dsimp only at h
  split_ifs at h <;> cases h
  · decide
  · decide
  · exact absurd rfl hid

/-- A single word is taken whole. -/
theorem dispatchedArgument_word (id : CommandId) (hspace : 0x20 ∉ name) (hfits : name.length < MAX_USERNAME_LEN) :
    dispatchedArgument id name = name := by
  have hskip : skipSpaces name = name := skipSpaces_of_head fun hhead => hspace (List.mem_of_head? hhead)
  have htarget : msgTarget name = name := by
    have hdrop : name.dropWhile (· == 0x20) = name := hskip
    have htake : name.takeWhile (· != 0x20) = name :=
      List.takeWhile_eq_self_iff.2 fun b hb => bne_iff_ne.2 (ne_of_mem_of_not_mem hb hspace)
    rw [msgTarget, hdrop, htake, List.take_of_length_le (Nat.le_sub_one_of_lt hfits)]
  cases id <;> first | rfl | assumption

/-- A name of the catalog with an argument, and spaces behind it. -/
theorem dispatchedAs_line {rest spaces : Bytes} {others : List Bytes} (hentry : (id, others) ∈ commandCatalog)
    (hname : name ∈ others) (hbytes : buf.bytes = name ++ rest ++ spaces) (hspaces : ∀ b ∈ spaces, b = 0x20)
    (hrest : rest = [] ∨ rest.head? = some 0x20 ∧ rest.getLast? ≠ some 0x20) :
    DispatchedAs buf id (dispatchedArgument id (skipSpaces rest)) := by
  obtain ⟨-, ⟨hne, hhead, hlast⟩, hcolon⟩ := lower_of_mem_catalog _ hentry name hname
  constructor
  · have htail : rest ++ spaces = [] ∨ (rest ++ spaces).head? = some 0x20 := by
      rcases hrest with rfl | ⟨hrest, -⟩
      · cases spaces with
        | nil => exact .inl rfl
        | cons b t => exact .inr (congrArg some (hspaces b List.mem_cons_self))
      · right
        rw [List.head?_append, hrest]
        rfl
    rw [hbytes, List.append_assoc]
    exact ⟨_, commandCatalogMatch_name hentry hname htail⟩
  · have htext : Trimmed (name ++ rest) := by
      refine ⟨List.append_ne_nil_of_left_ne_nil hne _, ?_, ?_⟩
      · rwa [List.head?_append_of_ne_nil _ hne]
      · rcases hrest with rfl | ⟨hrest, hrlast⟩
        · rwa [List.append_nil]
        · rwa [List.getLast?_append_of_ne_nil _ (by rintro rfl; cases hrest)]
    have hcolon' : (name ++ rest).head? ≠ some 0x3A := by rwa [List.head?_append_of_ne_nil _ hne]
    rw [commandText_eq hbytes htext hcolon' hspaces]
    exact ⟨_, commandCatalogMatch_name hentry hname (hrest.imp_right And.left), rfl⟩

/-- The line with a single word behind a name of the catalog. -/
theorem dispatchedAs_argument {others : List Bytes} (hentry : (id, others) ∈ commandCatalog) (hword : word ∈ others)
    (hbytes : buf.bytes = word ++ 0x20 :: name ++ [0x20]) (hspace : 0x20 ∉ name)
    (hfits : name.length < MAX_USERNAME_LEN) : DispatchedAs buf id name := by
  by_cases hne : name = []
  · subst hne
    have hbytes : buf.bytes = word ++ [] ++ [0x20, 0x20] := by simpa using hbytes
    have h := dispatchedAs_line hentry hword hbytes (by simp) (.inl rfl)
    rwa [show skipSpaces [] = [] from rfl, dispatchedArgument_word id hspace hfits] at h
  · have hlast : (0x20 :: name : Bytes).getLast? ≠ some 0x20 := by
      rw [List.getLast?_cons_of_ne_nil hne]
      exact fun hlast => hspace (List.mem_of_getLast? hlast)
    have h := dispatchedAs_line hentry hword hbytes (by simp) (.inr ⟨rfl, hlast⟩)
    have hskip : skipSpaces (0x20 :: name) = name := skipSpaces_of_head fun hhead => hspace (List.mem_of_head? hhead)
    rwa [hskip, dispatchedArgument_word id hspace hfits] at h

/-- The line with a name of the catalog alone. -/
theorem dispatchedAs_name {others : List Bytes} (hentry : (id, others) ∈ commandCatalog) (hname : name ∈ others)
    (hbytes : buf.bytes = name ++ [0x20]) : DispatchedAs buf id [] := by
  have hbytes : buf.bytes = name ++ [] ++ [0x20] := by rwa [List.append_nil]
  have h := dispatchedAs_line hentry hname hbytes (by simp) (.inl rfl)
  rwa [show skipSpaces [] = [] from rfl, dispatchedArgument_word id List.not_mem_nil (by decide)] at h

theorem mem_catalog_of_mem_canonicalNames (h : name ∈ canonicalNames) :
    ∃ id others, (id, name :: others) ∈ commandCatalog := by
  obtain ⟨⟨id, all⟩, hentry, rfl⟩ := List.mem_map.1 h
  have hne : ∀ entry ∈ commandCatalog, entry.2 ≠ [] := by decide
  obtain ⟨name, others, rfl⟩ := List.exists_cons_of_ne_nil (hne _ hentry)
  exact ⟨id, others, hentry⟩

/-- A command word that is not in lower case is none. -/
theorem lower_of_commandCatalogMatch {arg : Bytes} (h : commandCatalogMatch word = some (id, arg))
    (hspace : 0x20 ∉ word) (hnul : 0 ∉ word) : word.map toLower = word := by
  obtain ⟨others, hentry, hword⟩ := mem_of_commandCatalogMatch h hspace hnul
  exact (lower_of_mem_catalog _ hentry word hword).1

/-- Completion and dispatch agree in a room and on a line, if and only if the line is safe to complete there. -/
theorem tab_agrees_iff (names : List (CBuf MAX_USERNAME_LEN)) (buf : CBuf MAX_COMMAND_INPUT_LEN) :
    TabAgrees names buf ↔ TabSafe names buf := by
  constructor
  · intro h word typed id cands hbuf hcands name hname hbegins
    obtain ⟨hfront, -, hspace⟩ := tabArgument_some hbuf
    have hoffered : name ∈ prefixFilter cands typed := mem_prefixFilter.2 ⟨hname, hbegins⟩
    constructor
    · -- A word in other letters is no command, and nothing may be offered behind it.
      cases hmatch : commandCatalogMatch word with
      | none =>
        rw [h.rejected word typed id cands hbuf hcands hmatch] at hoffered
        cases hoffered
      | some found => exact lower_of_commandCatalogMatch hmatch hspace fun h0 => buf.nul_free (hfront.subset h0)
    · intro hone
      obtain ⟨only, honly⟩ := List.length_eq_one_iff.1 (List.countP_eq_length_filter.symm.trans hone)
      have honly : prefixFilter cands typed = [only] := honly
      obtain rfl : name = only := by
        rw [honly] at hoffered
        exact List.mem_singleton.1 hoffered
      obtain ⟨-, hread⟩ := h.argument word typed id cands name hbuf hcands honly
      obtain ⟨arg, -, harg⟩ := hread.dispatched
      -- Only `:msg` offers names, and it reads its target up to the first space.
      by_cases hid : id = .msg
      · subst hid
        rw [← harg]
        exact space_notMem_msgTarget arg
      · exact space_notMem_of_tabCandidates hcands hid name hname
  · intro hsafe
    constructor
    · intro name hbuf hname
      obtain ⟨hmem, -⟩ := mem_prefixFilter.1 (hname ▸ List.mem_singleton_self name)
      obtain ⟨id, others, hentry⟩ := mem_catalog_of_mem_canonicalNames hmem
      have hplain : ∀ entry ∈ commandCatalog, ∀ name ∈ entry.2, name.length < 32 ∧ 0 ∉ name := by decide
      obtain ⟨hlen, hnul⟩ := hplain _ hentry name List.mem_cons_self
      have hbytes : (commandTabComplete names buf).bytes = name ++ [0x20] := by
        rw [commandTabComplete_command hbuf hname, CBuf.copy_bytes]
        · simp [hnul]
        · rw [List.length_append, List.length_singleton, MAX_COMMAND_INPUT_LEN]
          omega
      exact ⟨hbytes, id, others, hentry, dispatchedAs_name hentry List.mem_cons_self hbytes⟩
    · intro word typed id cands name hbuf hcands hname
      obtain ⟨hfront, hwordLen, -⟩ := tabArgument_some hbuf
      obtain ⟨hmem, hbegins⟩ := mem_prefixFilter.1 (hname ▸ List.mem_singleton_self name)
      obtain ⟨hlower, hspace⟩ := hsafe word typed id cands hbuf hcands name hmem hbegins
      obtain ⟨others, hentry, hword⟩ := mem_catalog_of_tabCandidates hcands hlower
      obtain ⟨hfits, hnul⟩ := fits_of_tabCandidates hcands hmem
      have hwordNul : 0 ∉ word := fun h0 => buf.nul_free (hfront.subset h0)
      -- Word and name are short, so nothing is cut off.
      have hbytes : (commandTabComplete names buf).bytes = word ++ 0x20 :: name ++ [0x20] := by
        rw [commandTabComplete_argument hbuf hcands hname, CBuf.copy_bytes]
        · simp [hnul, hwordNul]
        · rw [MAX_USERNAME_LEN] at hfits
          simp only [List.length_append, List.length_cons, List.length_nil, MAX_COMMAND_INPUT_LEN]
          omega
      exact ⟨hbytes, dispatchedAs_argument hentry hword hbytes (hspace (countP_eq_one hname)) hfits⟩
    · intro word typed id cands hbuf hcands hnone
      by_contra hne
      obtain ⟨name, hname⟩ := List.exists_mem_of_ne_nil _ hne
      obtain ⟨hmem, hbegins⟩ := mem_prefixFilter.1 hname
      obtain ⟨others, hentry, hword⟩ :=
        mem_catalog_of_tabCandidates hcands (hsafe word typed id cands hbuf hcands name hmem hbegins).1
      have hmatch := commandCatalogMatch_name hentry hword (.inl rfl)
      rw [List.append_nil, hnone] at hmatch
      cases hmatch

end

/-- `THEME cy` and `msg bob` with `bob lee` in the room are completed to lines that are not read as they were meant. -/
theorem capitals_and_spaces_disagree :
    ¬ TabAgrees [] (CBuf.copy _ (lit "THEME cy")) ∧
      ¬ TabAgrees [CBuf.copy _ (lit "bob lee")] (CBuf.copy _ (lit "msg bob")) := by
  constructor
  · intro h
    have hoffered := h.rejected (lit "THEME") (lit "cy") .theme themeNames (by decide) (by decide) (by decide)
    revert hoffered
    decide
  · intro h
    obtain ⟨-, hread⟩ :=
      h.argument (lit "msg") (lit "bob") .msg [lit "bob lee"] (lit "bob lee") (by decide) (by decide) (by decide)
    obtain ⟨arg, -, harg⟩ := hread.dispatched
    have htarget : msgTarget arg = lit "bob lee" := harg
    exact space_notMem_msgTarget arg (htarget ▸ by decide)

end Tnt
