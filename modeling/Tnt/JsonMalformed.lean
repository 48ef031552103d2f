import Mathlib.Data.List.DropRight
import Tnt.JsonStrings
import Tnt.Manifest
/-!
# What the reader takes for an object

`tnt_json_get_string_field` looks at a text through a looser grammar than that of JSON: spaces are those of
`isspace`, a value that it passes over is whatever `skip_json_value` passes, and nothing is asked
of what stands behind the brace. The texts it accepts are those that have such a
reading (`jsonGetStringField_isSome`), and a text is JSON if and only if its readings are
(`jsonGetStringField_sound_iff`).
-/
open BaseLib

namespace Tnt

open Json

/-! ## Texts that are passed over -/

theorem skipNested_suffix {r : Nat} {depth : Int} {p q : Bytes} (h : skipNested r depth p = some q) : q <:+ p := by
  induction r generalizing depth p with
  | zero => cases h
  | succ r ih =>
    rw [skipNested_succ] at h
    obtain ⟨p', hstring, h⟩ := Option.bind_eq_some_iff.1 h
    refine List.IsSuffix.trans ?_ (skipString_suffix hstring)
    cases p' with
    | nil => cases h
    | cons c p' =>
      rw [roundBehind] at h
      split at h
      · exact (ih h).trans (List.suffix_cons c p')
      · cases h
        exact List.suffix_cons c q

theorem skipJsonValue_suffix {p q : Bytes} (h : skipJsonValue p = some q) : q <:+ skipWs p := by
  unfold skipJsonValue at h
  dsimp only at h
  split at h
  · exact skipJsonString_suffix h
  split at h
  · exact skipNested_suffix h
  · cases h
    exact List.dropWhile_suffix _

/-! ## Spaces -/

/-- What `skip_ws` passes. -/
structure Spaces where
  bytes : Bytes
  space : ∀ c ∈ bytes, isSpace c = true

theorem skipWs_spaces (s : Spaces) (p : Bytes) : skipWs (s.bytes ++ p) = skipWs p :=
  List.dropWhile_append_of_pos s.space

/-- A text begins with spaces, and then comes what `skip_ws` leaves. -/
theorem spaces_of_skipWs {p q : Bytes} (h : skipWs p = q) : ∃ s : Spaces, p = s.bytes ++ q :=
  ⟨⟨p.takeWhile isSpace, fun _ hc => List.mem_takeWhile_imp hc⟩, by
    rw [← h]
    exact (List.takeWhile_append_dropWhile).symm⟩

theorem skipWs_idem (p : Bytes) : skipWs (skipWs p) = skipWs p := List.dropWhile_idempotent _ p

/-- Where spaces end in a text is determined. -/
theorem spaces_inj {s s' p p' : Bytes} (hs : ∀ c ∈ s, isSpace c = true) (hs' : ∀ c ∈ s', isSpace c = true)
    (hp : skipWs p = p) (hp' : skipWs p' = p') (h : s ++ p = s' ++ p') : s = s' ∧ p = p' := by
  have heq : p = p' := by
    calc p = skipWs p := hp.symm
      _ = skipWs (s ++ p) := (List.dropWhile_append_of_pos hs).symm
      _ = skipWs (s' ++ p') := by rw [h]
      _ = skipWs p' := List.dropWhile_append_of_pos hs'
      _ = p' := hp'
  rw [heq] at h
  exact ⟨List.append_cancel_right h, heq⟩

/-! ## Loose readings -/

/-- A member as the reader sees it: what stands for its value is a text. -/
structure LooseMember where
  before : Spaces
  name : List Character
  afterName : Spaces
  beforeValue : Spaces
  text : Bytes
  after : Spaces

/-- An object as the reader sees it, with whatever stands behind its brace. -/
structure LooseDocument where
  before : Spaces
  first : LooseMember
  others : List LooseMember
  behind : Bytes

def LooseMember.render (m : LooseMember) : Bytes :=
  m.before.bytes ++ (quoted m.name ++ (m.afterName.bytes ++ 0x3A :: (m.beforeValue.bytes ++ (m.text ++ m.after.bytes))))

/-- What stands behind a member. -/
def looseRest : List LooseMember → Bytes → Bytes
  | [], behind => 0x7D :: behind
  | m :: members, behind => 0x2C :: (m.render ++ looseRest members behind)

namespace LooseDocument

def members (doc : LooseDocument) : List LooseMember := doc.first :: doc.others

def render (doc : LooseDocument) : Bytes :=
  doc.before.bytes ++ 0x7B :: (doc.first.render ++ looseRest doc.others doc.behind)

end LooseDocument

section Reader
variable (key : Bytes) (outSize : Nat)

/-- The reader goes over the member to `rest`: it takes the name; it takes the value as a string, if the name is the
key; and else it passes over a text that does not begin with a space. -/
def LooseMember.Taken (m : LooseMember) (rest : Bytes) : Prop :=
  ∃ parsedKey, readString 128 m.name = some parsedKey ∧
    if parsedKey = key then ∃ cs out, m.text = quoted cs ∧ readString outSize cs = some out
    else skipWs (m.text ++ (m.after.bytes ++ rest)) = m.text ++ (m.after.bytes ++ rest) ∧
      skipJsonValue (m.text ++ (m.after.bytes ++ rest)) = some (m.after.bytes ++ rest)

def MembersTaken : List LooseMember → Bytes → Prop
  | [], _ => True
  | m :: members, behind => m.Taken key outSize (looseRest members behind) ∧ MembersTaken members behind

/-- The reader goes over all members, one of which is named `key`. -/
def LooseDocument.Taken (doc : LooseDocument) : Prop :=
  key ≠ [] ∧ MembersTaken key outSize doc.members doc.behind ∧ ∃ m ∈ doc.members, decode m.name = some key

/-- The value found behind the member. -/
def LooseMember.found (m : LooseMember) (found : Option Bytes) : Option Bytes :=
  if decode m.name = some key then (parseJsonString outSize m.text).map Prod.fst else found

end Reader

/-! ## Readings that are JSON -/

def Spaces.IsJson (s : Spaces) : Prop := ∀ c ∈ s.bytes, isBlank c = true

/-- The member is one of JSON: its spaces are blanks, and its text is a value, or one with blanks behind it. -/
structure LooseMember.IsJson (m : LooseMember) : Prop where
  before : m.before.IsJson
  afterName : m.afterName.IsJson
  beforeValue : m.beforeValue.IsJson
  text : ∃ (v : Value) (b : Blanks), m.text = v.render ++ b.bytes
  after : m.after.IsJson

/-- The object is one of JSON, with nothing but blanks behind it. -/
structure LooseDocument.IsJson (doc : LooseDocument) : Prop where
  before : doc.before.IsJson
  members : ∀ m ∈ doc.members, m.IsJson
  behind : ∀ c ∈ doc.behind, isBlank c = true

/-! ## A round of the reader -/

theorem skipWs_quoted (cs : List Character) (p : Bytes) : skipWs (quoted cs ++ p) = quoted cs ++ p := by
  unfold quoted
  rw [List.cons_append, List.cons_append]
  exact skipWs_cons (by decide) _

/-- The bytes that end a member for the reader. -/
def endsMember (c : UInt8) : Bool := c == 0x2C || c == 0x7D

theorem skipWs_endsMember {c : UInt8} (h : endsMember c = true) (p : Bytes) : skipWs (c :: p) = c :: p := by
  apply skipWs_cons
  rw [endsMember, Bool.or_eq_true, beq_iff_eq, beq_iff_eq] at h
  rcases h with rfl | rfl <;> rfl

theorem nextMember_eq_some {key : Bytes} {outSize rounds : Nat} {found : Option Bytes} {p out : Bytes} :
    nextMember key outSize rounds found p = some out ↔
      ∃ (s : Spaces) (c : UInt8) (q : Bytes), p = s.bytes ++ c :: q ∧
        (c = 0x2C ∧ getStringFieldLoop key outSize rounds found q = some out ∨ c = 0x7D ∧ found = some out) := by
  constructor
  · intro h
    unfold nextMember at h
    cases hp : skipWs p with
    | nil =>
      rw [hp] at h
      cases h
    | cons c q =>
      rw [hp] at h
      dsimp only at h
      obtain ⟨s, hs⟩ := spaces_of_skipWs hp
      split at h
      next hc => exact ⟨s, c, q, hs, .inl ⟨hc, h⟩⟩
      split at h
      next hc => exact ⟨s, c, q, hs, .inr ⟨hc, h⟩⟩
      · cases h
  · rintro ⟨s, c, q, rfl, ⟨rfl, h⟩ | ⟨rfl, h⟩⟩
    · unfold nextMember
      rw [skipWs_spaces, skipWs_cons (by decide)]
      exact h
    · unfold nextMember
      rw [skipWs_spaces, skipWs_cons (by decide)]
      exact h

/-- What a round takes is a member. -/
theorem getStringFieldLoop_succ {key : Bytes} {outSize rounds : Nat} {found : Option Bytes} {p out : Bytes}
    (h : getStringFieldLoop key outSize (rounds + 1) found p = some out) :
    ∃ (m : LooseMember) (c : UInt8) (q : Bytes), p = m.render ++ c :: q ∧ m.Taken key outSize (c :: q) ∧
      (c = 0x2C ∧ getStringFieldLoop key outSize rounds (m.found key outSize found) q = some out ∨
        c = 0x7D ∧ m.found key outSize found = some out) := by
  rw [getStringFieldLoop] at h
  dsimp only at h
  split at h
  · cases h
  obtain ⟨before, hbefore⟩ := spaces_of_skipWs (rfl : skipWs p = _)
  obtain ⟨⟨parsedKey, p₁⟩, hname, h⟩ := Option.bind_eq_some_iff.1 h
  obtain ⟨-, name, hp₁, hread⟩ := parseJsonString_eq_some.1 hname
  dsimp only at h
  cases hcolon : skipWs p₁ with
  | nil =>
    rw [hcolon] at h
    cases h
  | cons colon p₂ =>
    rw [hcolon] at h
    dsimp only at h
    split at h
    · cases h
    next hc =>
      obtain ⟨afterName, hafterName⟩ := spaces_of_skipWs hcolon
      obtain ⟨beforeValue, hbeforeValue⟩ := spaces_of_skipWs (rfl : skipWs p₂ = _)
      obtain ⟨⟨found', p₃⟩, hvalue, hnext⟩ := Option.bind_eq_some_iff.1 h
      replace hnext : nextMember key outSize rounds found' p₃ = some out := hnext
      obtain ⟨after, c, q, hp₃, hend⟩ := nextMember_eq_some.1 hnext
      have hp {text : Bytes} (htext : skipWs p₂ = text ++ p₃) :
          p = (LooseMember.mk before name afterName beforeValue text after).render ++ c :: q := by
        rw [hbefore, hp₁, hafterName, not_not.1 hc, hbeforeValue, htext, hp₃]
        simp only [LooseMember.render, List.append_assoc, List.cons_append]
      have hdecode := readString_eq_some hread
      split at hvalue
      next hkey =>
        obtain ⟨⟨value, p₄⟩, hparse, hpair⟩ := Option.map_eq_some_iff.1 hvalue
        obtain ⟨rfl, rfl⟩ := Prod.mk.inj hpair
        obtain ⟨hsize, cs, hcs, hout⟩ := parseJsonString_eq_some.1 hparse
        refine ⟨_, c, q, hp hcs, ⟨parsedKey, hread, ?_⟩, ?_⟩
        · rw [if_pos hkey]
          exact ⟨cs, value, rfl, hout⟩
        · have hfound := parseJsonString_eq_some.2 ⟨hsize, cs, (List.append_nil (quoted cs)).symm, hout⟩
          unfold LooseMember.found
          rw [if_pos (by rw [hdecode, hkey]), hfound]
          exact hend
      next hkey =>
        obtain ⟨p₄, hskip, hpair⟩ := Option.map_eq_some_iff.1 hvalue
        obtain ⟨rfl, rfl⟩ := Prod.mk.inj hpair
        obtain ⟨text, htext⟩ := skipJsonValue_suffix hskip
        rw [skipWs_idem] at htext
        refine ⟨_, c, q, hp htext.symm, ⟨parsedKey, hread, ?_⟩, ?_⟩
        · rw [if_neg hkey]
          dsimp only
          rw [← hp₃, htext]
          exact ⟨skipWs_idem p₂, hskip⟩
        · unfold LooseMember.found
          rw [if_neg (by rw [hdecode]; exact fun heq => hkey (Option.some.inj heq))]
          exact hend

/-- The other way round, a member that can be taken is. -/
theorem getStringFieldLoop_render {key : Bytes} {outSize rounds : Nat} (found : Option Bytes) {m : LooseMember}
    {c : UInt8} {q : Bytes} (hc : endsMember c = true) (hm : m.Taken key outSize (c :: q)) :
    getStringFieldLoop key outSize (rounds + 1) found (m.render ++ c :: q) =
      if c = 0x2C then getStringFieldLoop key outSize rounds (m.found key outSize found) q
      else m.found key outSize found := by
  obtain ⟨before, name, afterName, beforeValue, text, after⟩ := m
  obtain ⟨parsedKey, hread, hvalue⟩ := hm
  dsimp only at hread hvalue
  have hdecode := readString_eq_some hread
  have hstart : skipWs (LooseMember.render ⟨before, name, afterName, beforeValue, text, after⟩ ++ c :: q) =
      quoted name ++ (afterName.bytes ++ 0x3A :: (beforeValue.bytes ++ (text ++ (after.bytes ++ c :: q)))) := by
    simp only [LooseMember.render, List.append_assoc, List.cons_append]
    rw [skipWs_spaces, skipWs_quoted]
  have hend (found : Option Bytes) :
      nextMember key outSize rounds found (after.bytes ++ c :: q) =
        if c = 0x2C then getStringFieldLoop key outSize rounds found q else found := by
    unfold nextMember
    rw [skipWs_spaces, skipWs_endsMember hc]
    rw [endsMember, Bool.or_eq_true, beq_iff_eq, beq_iff_eq] at hc
    rcases hc with rfl | rfl <;> rfl
  rw [getStringFieldLoop]
  dsimp only
  rw [hstart, if_neg (by simp [quoted, byteAt]), parseJsonString_quoted (by decide), hread, Option.map_some,
    Option.bind_some]
  dsimp only
  rw [skipWs_spaces, skipWs_cons (by decide)]
  dsimp only
  rw [if_neg (by decide), skipWs_spaces]
  by_cases hkey : parsedKey = key
  · rw [if_pos hkey] at hvalue
    obtain ⟨cs, out, rfl, hout⟩ := hvalue
    have hsize : 0 < outSize := Nat.zero_lt_of_lt (readString_bounds hout).2
    have hfound : LooseMember.found key outSize ⟨before, name, afterName, beforeValue, quoted cs, after⟩ found =
      some out := by
      rw [LooseMember.found, if_pos (by rw [hdecode, hkey]),
        parseJsonString_eq_some.2 ⟨hsize, cs, (List.append_nil (quoted cs)).symm, hout⟩]
      rfl
    rw [if_pos hkey, hfound, skipWs_quoted, parseJsonString_quoted hsize, hout]
    exact hend (some out)
  · rw [if_neg hkey] at hvalue
    obtain ⟨hspace, hskip⟩ := hvalue
    have hfound : LooseMember.found key outSize ⟨before, name, afterName, beforeValue, text, after⟩ found = found := by
      rw [LooseMember.found, if_neg (by rw [hdecode]; exact fun heq => hkey (Option.some.inj heq))]
    rw [if_neg hkey, hfound, hspace, hskip]
    exact hend found

/-! ## Runs of the reader -/

section Runs
variable {key : Bytes} {outSize : Nat}

/-- What is found behind members. -/
def foundIn (key : Bytes) (outSize : Nat) : Option Bytes → List LooseMember → Option Bytes
  | found, [] => found
  | found, m :: members => foundIn key outSize (m.found key outSize found) members

/-- Where the reader finds a value, it has gone over members. -/
theorem getStringFieldLoop_sound {rounds : Nat} {found : Option Bytes} {p out : Bytes}
    (h : getStringFieldLoop key outSize rounds found p = some out) :
    ∃ (m : LooseMember) (members : List LooseMember) (behind : Bytes), p = m.render ++ looseRest members behind ∧
      MembersTaken key outSize (m :: members) behind ∧ foundIn key outSize found (m :: members) = some out := by
  induction rounds generalizing found p with
  | zero => cases h
  | succ rounds ih =>
    obtain ⟨m, c, q, rfl, htaken, ⟨rfl, hrest⟩ | ⟨rfl, hfound⟩⟩ := getStringFieldLoop_succ h
    · obtain ⟨n, members, behind, rfl, hmembers, hout⟩ := ih hrest
      exact ⟨m, n :: members, behind, rfl, ⟨htaken, hmembers⟩, hout⟩
    · exact ⟨m, [], q, rfl, ⟨htaken, trivial⟩, hfound⟩

/-- Members that can be taken are gone over. -/
theorem getStringFieldLoop_complete {rounds : Nat} (found : Option Bytes) {m : LooseMember} {members : List LooseMember}
    {behind : Bytes} (htaken : MembersTaken key outSize (m :: members) behind) (hrounds : members.length < rounds) :
    getStringFieldLoop key outSize rounds found (m.render ++ looseRest members behind) =
      foundIn key outSize found (m :: members) := by
  induction members generalizing rounds found m with
  | nil =>
    obtain ⟨rounds, rfl⟩ := Nat.exists_eq_succ_of_ne_zero (Nat.ne_of_gt hrounds)
    exact getStringFieldLoop_render found rfl htaken.1
  | cons n members ih =>
    obtain ⟨rounds, rfl⟩ := Nat.exists_eq_succ_of_ne_zero (Nat.ne_of_gt (Nat.zero_lt_of_lt hrounds))
    rw [List.length_cons] at hrounds
    calc getStringFieldLoop key outSize (rounds + 1) found (m.render ++ looseRest (n :: members) behind) =
        getStringFieldLoop key outSize rounds (m.found key outSize found) (n.render ++ looseRest members behind) :=
          getStringFieldLoop_render found rfl htaken.1
      _ = foundIn key outSize found (m :: n :: members) := ih _ htaken.2 (by omega)

theorem length_looseRest (members : List LooseMember) (behind : Bytes) :
    members.length < (looseRest members behind).length := by
  induction members with
  | nil => exact Nat.zero_lt_succ _
  | cons m members ih =>
    simp only [looseRest, List.length_cons, List.length_append]
    omega

/-- A member that is taken and named `key` is a string that was read. -/
theorem found_eq_some {m : LooseMember} {rest : Bytes} (hm : m.Taken key outSize rest)
    (hname : decode m.name = some key)
    (found : Option Bytes) :
    ∃ cs out, m.text = quoted cs ∧ readString outSize cs = some out ∧ m.found key outSize found = some out := by
  obtain ⟨parsedKey, hread, hvalue⟩ := hm
  have hkey : parsedKey = key := by
    have hdecode := readString_eq_some hread
    rw [hname] at hdecode
    exact (Option.some.inj hdecode).symm
  rw [if_pos hkey] at hvalue
  obtain ⟨cs, out, htext, hout⟩ := hvalue
  refine ⟨cs, out, htext, hout, ?_⟩
  have hsize : 0 < outSize := Nat.zero_lt_of_lt (readString_bounds hout).2
  rw [LooseMember.found, if_pos hname, htext,
    parseJsonString_eq_some.2 ⟨hsize, cs, (List.append_nil (quoted cs)).symm, hout⟩]
  rfl

/-- What is found is what was there before, or the string of a member named so. -/
theorem foundIn_eq_some {found : Option Bytes} {members : List LooseMember} {behind out : Bytes}
    (htaken : MembersTaken key outSize members behind) (h : foundIn key outSize found members = some out) :
    found = some out ∨
      ∃ m ∈ members, decode m.name = some key ∧ ∃ cs, m.text = quoted cs ∧ readString outSize cs = some out := by
  induction members generalizing found with
  | nil => exact .inl h
  | cons m members ih =>
    rcases ih htaken.2 h with hm | ⟨n, hn, hfound⟩
    · by_cases hname : decode m.name = some key
      · obtain ⟨cs, out', htext, hout, hfound⟩ := found_eq_some htaken.1 hname found
        rw [hfound] at hm
        cases hm
        exact .inr ⟨m, List.mem_cons_self, hname, cs, htext, hout⟩
      · rw [LooseMember.found, if_neg hname] at hm
        exact .inl hm
    · exact .inr ⟨n, List.mem_cons_of_mem _ hn, hfound⟩

/-- Where a member is named so, or something was found before, something is found. -/
theorem foundIn_isSome {found : Option Bytes} {members : List LooseMember} {behind : Bytes}
    (htaken : MembersTaken key outSize members behind)
    (h : found.isSome ∨ ∃ m ∈ members, decode m.name = some key) : (foundIn key outSize found members).isSome := by
  induction members generalizing found with
  | nil => exact h.resolve_right fun ⟨m, hm, _⟩ => List.not_mem_nil hm
  | cons m members ih =>
    apply ih htaken.2
    by_cases hname : decode m.name = some key
    · obtain ⟨cs, out, -, -, hfound⟩ := found_eq_some htaken.1 hname found
      rw [hfound]
      exact .inl rfl
    · rw [LooseMember.found, if_neg hname]
      rcases h with h | ⟨n, hn, hkey⟩
      · exact .inl h
      · rcases List.mem_cons.1 hn with rfl | hn
        · exact absurd hkey hname
        · exact .inr ⟨n, hn, hkey⟩

end Runs

/-! ## Readings of JSON -/

theorem isEnd_of_endsMember {c : UInt8} (h : endsMember c = true) : isEnd c = true := by
  unfold isEnd
  rw [show (c == 0x2C || c == 0x7D) = true from h]
  rfl

theorem Spaces.isJson_of_bytes {s : Spaces} {b : Bytes} (hb : ∀ c ∈ b, isBlank c = true)
    (h : s.bytes = b) : s.IsJson := by
  intro c hc
  rw [h] at hc
  exact hb c hc

theorem space_of_blank {b : Bytes} (hb : ∀ c ∈ b, isBlank c = true) : ∀ c ∈ b, isSpace c = true :=
  fun c hc => isSpace_of_isBlank (hb c hc)

/-- A text that a string begins is its value. -/
theorem string_of_render {outSize : Nat} {cs : List Character} {out p p' : Bytes} {v : Value}
    (hout : readString outSize cs = some out) (h : quoted cs ++ p = v.render ++ p') :
    ∃ cs', v = .string cs' ∧ decode cs' = some out ∧ p = p' := by
  have hsize : 0 < outSize := Nat.zero_lt_of_lt (readString_bounds hout).2
  have hparse : parseJsonString outSize (quoted cs ++ p) = some (out, p) :=
    parseJsonString_eq_some.2 ⟨hsize, cs, rfl, hout⟩
  rw [h] at hparse
  by_cases hv : ∃ cs', v = .string cs'
  · obtain ⟨cs', rfl⟩ := hv
    rw [Value.render, parseJsonString_quoted hsize] at hparse
    obtain ⟨out', hout', hpair⟩ := Option.map_eq_some_iff.1 hparse
    obtain ⟨rfl, rfl⟩ := Prod.mk.inj hpair
    exact ⟨cs', rfl, readString_eq_some hout', rfl⟩
  · rw [parseJsonString_other outSize fun cs' hcs => hv ⟨cs', hcs⟩] at hparse
    cases hparse

section Readings
variable {key : Bytes} {outSize : Nat}

/-- Where a member of JSON is taken, it is taken for itself. -/
theorem LooseMember.Taken.isJson {m : LooseMember} {b : Blanks} {n : Member} {c c' : UInt8} {q q' : Bytes}
    (htaken : m.Taken key outSize (c :: q)) (hc : endsMember c = true) (hc' : endsMember c' = true)
    (h : m.render ++ c :: q = b.bytes ++ (n.render ++ c' :: q')) : m.IsJson ∧ c :: q = c' :: q' := by
  obtain ⟨before, name, afterName, beforeValue, text, after⟩ := m
  obtain ⟨before', name', afterName', beforeValue', value, after'⟩ := n
  obtain ⟨parsedKey, hread, hvalue⟩ := htaken
  dsimp only at hread hvalue
  have hstart : before.bytes ++
        (quoted name ++ (afterName.bytes ++ 0x3A :: (beforeValue.bytes ++ (text ++ (after.bytes ++ c :: q)))))
      = (b.bytes ++ before'.bytes) ++ (quoted name' ++ (afterName'.bytes ++
        0x3A :: (beforeValue'.bytes ++ (value.render ++ (after'.bytes ++ c' :: q'))))) := by
    simpa only [LooseMember.render, Member.render, List.append_assoc, List.cons_append] using h
  have hblank : ∀ c ∈ b.bytes ++ before'.bytes, isBlank c = true := by
    intro c hc
    exact (List.mem_append.1 hc).elim (b.blank c) (before'.blank c)
  obtain ⟨hbefore, hname⟩ :=
    spaces_inj before.space (space_of_blank hblank) (skipWs_quoted _ _) (skipWs_quoted _ _) hstart
  obtain ⟨-, -, -, hbehindName⟩ := @string_of_render 128 _ _ _ _ (.string name') hread hname
  obtain ⟨hafterName, hcolon⟩ := spaces_inj afterName.space (space_of_blank afterName'.blank)
    (skipWs_cons (by decide) _) (skipWs_cons (by decide) _) hbehindName
  have hbehindColon := (List.cons.inj hcolon).2
  have hends {s : Spaces} {b : Bytes} (hb : ∀ c ∈ b, isBlank c = true) (hs : s.bytes ++ c :: q = b ++ c' :: q') :
      s.bytes = b ∧ c :: q = c' :: q' :=
    spaces_inj s.space (space_of_blank hb) (skipWs_endsMember hc _) (skipWs_endsMember hc' _) hs
  by_cases hkey : parsedKey = key
  · -- The value is read as a string, so it is one.
    rw [if_pos hkey] at hvalue
    obtain ⟨cs, out, rfl, hout⟩ := hvalue
    obtain ⟨hbeforeValue, htext⟩ := spaces_inj beforeValue.space (space_of_blank beforeValue'.blank)
      (skipWs_quoted _ _) (skipWs_render value _) hbehindColon
    obtain ⟨-, -, -, hbehind⟩ := string_of_render hout htext
    obtain ⟨hafter, hrest⟩ := hends after'.blank hbehind
    refine ⟨⟨?_, ?_, ?_, ⟨.string cs, noBlanks, ?_⟩, ?_⟩, hrest⟩
    · exact Spaces.isJson_of_bytes hblank hbefore
    · exact Spaces.isJson_of_bytes afterName'.blank hafterName
    · exact Spaces.isJson_of_bytes beforeValue'.blank hbeforeValue
    · exact (List.append_nil (quoted cs)).symm
    · exact Spaces.isJson_of_bytes after'.blank hafter
  · -- The value is skipped, and the skipper may take blanks behind it along.
    rw [if_neg hkey] at hvalue
    obtain ⟨hspace, hskip⟩ := hvalue
    obtain ⟨hbeforeValue, htext⟩ := spaces_inj beforeValue.space (space_of_blank beforeValue'.blank)
      hspace (skipWs_render value _) hbehindColon
    obtain ⟨tail, ⟨front, hfront⟩, hpassed⟩ := skipJsonValue_render value (space_of_blank after'.blank)
      (isEnd_of_endsMember hc') q'
    rw [← htext, hskip] at hpassed
    have htail : ∀ c ∈ tail, isBlank c = true := by
      intro c hc
      apply after'.blank c
      rw [← hfront]
      exact List.mem_append_right front hc
    obtain ⟨hafter, hrest⟩ := hends htail (Option.some.inj hpassed)
    refine ⟨⟨?_, ?_, ?_, ⟨value, ⟨front, ?_⟩, ?_⟩, ?_⟩, hrest⟩
    · exact Spaces.isJson_of_bytes hblank hbefore
    · exact Spaces.isJson_of_bytes afterName'.blank hafterName
    · exact Spaces.isJson_of_bytes beforeValue'.blank hbeforeValue
    · intro c hc
      apply after'.blank c
      rw [← hfront]
      exact List.mem_append_left tail hc
    · rw [← hfront, hafter, hrest, List.append_assoc, ← List.append_assoc value.render] at htext
      exact List.append_cancel_right htext
    · exact Spaces.isJson_of_bytes htail hafter

theorem behindMember_eq_cons (members : List Member) (behind : Bytes) :
    ∃ c q, behindMember members behind = c :: q ∧ endsMember c = true := by
  cases members with
  | nil => exact ⟨_, _, rfl, rfl⟩
  | cons m members => exact ⟨_, _, behindMember_cons m members behind, rfl⟩

/-- The first member is taken for itself, -/
theorem isJson_of_member {m : LooseMember} {members : List LooseMember} {b : Blanks} {n : Member} {others : List Member}
    {behind after : Bytes} (htaken : MembersTaken key outSize (m :: members) behind)
    (h : m.render ++ looseRest members behind = b.bytes ++ (n.render ++ behindMember others after)) :
    m.IsJson ∧ looseRest members behind = behindMember others after := by
  obtain ⟨c, q, hloose, hc⟩ : ∃ c q, looseRest members behind = c :: q ∧ endsMember c = true := by
    cases members <;> exact ⟨_, _, rfl, rfl⟩
  obtain ⟨c', q', hstrict, hc'⟩ := behindMember_eq_cons others after
  have hfirst := htaken.1
  rw [hloose] at hfirst h ⊢
  rw [hstrict] at h ⊢
  exact hfirst.isJson hc hc' h

/-- and so are the others. -/
theorem isJson_of_members {m : LooseMember} {members : List LooseMember} {b : Blanks} {n : Member}
    {others : List Member}
    {behind after : Bytes} (htaken : MembersTaken key outSize (m :: members) behind)
    (h : m.render ++ looseRest members behind = b.bytes ++ (n.render ++ behindMember others after)) :
    (∀ x ∈ m :: members, x.IsJson) ∧ behind = after := by
  induction members generalizing m b n others with
  | nil =>
    obtain ⟨hm, hrest⟩ := isJson_of_member htaken h
    refine ⟨fun x hx => (List.mem_singleton.1 hx).symm ▸ hm, ?_⟩
    cases others with
    | nil => exact (List.cons.inj hrest).2
    | cons n others =>
      rw [behindMember_cons] at hrest
      exact absurd (List.cons.inj hrest).1 (by decide)
  | cons m' members ih =>
    obtain ⟨hm, hrest⟩ := isJson_of_member htaken h
    cases others with
    | nil => exact absurd (List.cons.inj hrest).1 (by decide)
    | cons n others =>
      rw [behindMember_cons] at hrest
      obtain ⟨hmembers, hafter⟩ := @ih m' noBlanks n others htaken.2 (List.cons.inj hrest).2
      refine ⟨fun x hx => ?_, hafter⟩
      rcases List.mem_cons.1 hx with rfl | hx
      · exact hm
      · exact hmembers x hx

/-- A text of JSON has no other readings. -/
theorem LooseDocument.isJson_of_render {doc : LooseDocument} {strict : Document} (htaken : doc.Taken key outSize)
    (h : doc.render = strict.render) : doc.IsJson := by
  obtain ⟨before, first, others, behind⟩ := doc
  obtain ⟨before', blanks, members, after⟩ := strict
  have hstart : before.bytes ++ 0x7B :: (first.render ++ looseRest others behind) =
      before'.bytes ++ 0x7B :: (blanks.bytes ++ (commas (renderMembers members) ++ 0x7D :: after.bytes)) := by
    simpa only [LooseDocument.render, Document.render, Value.render, List.append_assoc, List.cons_append,
      List.nil_append] using h
  obtain ⟨hbefore, hbrace⟩ := spaces_inj before.space (space_of_blank before'.blank) (skipWs_cons (by decide) _)
    (skipWs_cons (by decide) _) hstart
  have hinside := (List.cons.inj hbrace).2
  cases members with
  | nil =>
    have hspaces := congrArg skipWs hinside
    rw [renderMembers, commas, List.nil_append, skipWs_blanks, skipWs_cons (by decide)] at hspaces
    simp only [LooseMember.render, List.append_assoc] at hspaces
    rw [skipWs_spaces, skipWs_quoted] at hspaces
    exact absurd (List.cons.inj hspaces).1 (by decide)
  | cons n members =>
    rw [renderMembers, commas, List.append_assoc] at hinside
    obtain ⟨hmembers, hafter⟩ := isJson_of_members htaken.2.1 hinside
    exact ⟨Spaces.isJson_of_bytes before'.blank hbefore, hmembers, hafter ▸ after.blank⟩

/-! ## JSON of readings -/

/-- The text of a member is that of a value, with blanks behind it. -/
def LooseMember.Spells (m : LooseMember) (n : Member) : Prop :=
  n.name = m.name ∧ ∃ b : Blanks, m.text = n.value.render ++ b.bytes

theorem LooseMember.IsJson.exists_member {m : LooseMember} (h : m.IsJson) :
    ∃ n : Member, n.render = m.render ∧ m.Spells n := by
  obtain ⟨v, b, htext⟩ := h.text
  have hafter : ∀ c ∈ b.bytes ++ m.after.bytes, isBlank c = true :=
    fun c hc => (List.mem_append.1 hc).elim (b.blank c) (h.after c)
  refine ⟨⟨⟨_, h.before⟩, m.name, ⟨_, h.afterName⟩, ⟨_, h.beforeValue⟩, v, ⟨_, hafter⟩⟩, ?_, rfl, b, htext⟩
  unfold LooseMember.render
  rw [Member.render, htext]
  simp only [List.append_assoc, List.cons_append]

theorem exists_members {members : List LooseMember} (h : ∀ m ∈ members, m.IsJson) :
    ∃ strict : List Member, (∀ behind, behindMember strict behind = looseRest members behind) ∧
      ∀ m ∈ members, ∃ n ∈ strict, m.Spells n := by
  induction members with
  | nil => exact ⟨[], fun _ => rfl, fun m hm => absurd hm List.not_mem_nil⟩
  | cons m members ih =>
    obtain ⟨strict, hrest, hspells⟩ := ih fun x hx => h x (List.mem_cons_of_mem _ hx)
    obtain ⟨n, hn, hspell⟩ := (h m List.mem_cons_self).exists_member
    refine ⟨n :: strict, fun behind => ?_, fun x hx => ?_⟩
    · rw [behindMember_cons, hn, hrest, looseRest]
    · rcases List.mem_cons.1 hx with rfl | hx
      · exact ⟨n, List.mem_cons_self, hspell⟩
      · obtain ⟨k, hk, hspell⟩ := hspells x hx
        exact ⟨k, List.mem_cons_of_mem _ hk, hspell⟩

/-- A reading that is JSON is an object. -/
theorem LooseDocument.IsJson.exists_document {doc : LooseDocument} (h : doc.IsJson) :
    ∃ strict : Document, strict.render = doc.render ∧ ∀ m ∈ doc.members, ∃ n ∈ strict.members, m.Spells n := by
  obtain ⟨first, hfirst, hspell⟩ := (h.members doc.first List.mem_cons_self).exists_member
  obtain ⟨others, hrest, hspells⟩ := exists_members fun m hm => h.members m (List.mem_cons_of_mem _ hm)
  refine ⟨⟨⟨_, h.before⟩, noBlanks, first :: others, ⟨_, h.behind⟩⟩, ?_, fun m hm => ?_⟩
  · have hinside : commas (renderMembers (first :: others)) ++ 0x7D :: doc.behind =
        doc.first.render ++ looseRest doc.others doc.behind := by
      rw [renderMembers, commas, List.append_assoc, hfirst, ← hrest]
      rfl
    unfold Document.render LooseDocument.render
    simp only [Value.render, noBlanks, List.append_assoc, List.cons_append, List.nil_append, hinside]
  · rcases List.mem_cons.1 hm with rfl | hm
    · exact ⟨first, List.mem_cons_self, hspell⟩
    · obtain ⟨n, hn, hspell⟩ := hspells m hm
      exact ⟨n, List.mem_cons_of_mem _ hn, hspell⟩

end Readings

/-! ## The reader and its callers -/

/-- The reader finds a value in a text that has a reading with the member, and only there. -/
theorem jsonGetStringField_isSome {json key : Bytes} {outSize : Nat} {out : Bytes}
    (h : jsonGetStringField json key outSize = some out) :
    ∃ doc : LooseDocument, doc.render = json ∧ doc.Taken key outSize ∧
      ∃ m ∈ doc.members, decode m.name = some key ∧ ∃ cs, m.text = quoted cs ∧ readString outSize cs = some out := by
  unfold jsonGetStringField at h
  split at h
  · cases h
  next hargs =>
    push Not at hargs
    cases hjson : skipWs json with
    | nil =>
      rw [hjson] at h
      cases h
    | cons c p =>
      rw [hjson] at h
      dsimp only at h
      split at h
      · cases h
      next hc =>
        obtain ⟨before, hbefore⟩ := spaces_of_skipWs hjson
        obtain ⟨first, others, behind, rfl, htaken, hfound⟩ := getStringFieldLoop_sound h
        have hmember := (foundIn_eq_some htaken hfound).resolve_left fun h => by cases h
        obtain ⟨m, hm, hname, hvalue⟩ := hmember
        refine ⟨⟨before, first, others, behind⟩, ?_, ⟨hargs.1, htaken, m, hm, hname⟩, m, hm, hname, hvalue⟩
        rw [hbefore, not_not.1 hc]
        rfl

/-- Where a text has such a reading, the reader finds something. -/
theorem LooseDocument.Taken.isSome {key : Bytes} {outSize : Nat} {doc : LooseDocument} (h : doc.Taken key outSize) :
    (jsonGetStringField doc.render key outSize).isSome := by
  obtain ⟨before, first, others, behind⟩ := doc
  obtain ⟨hkey, htaken, m, hm, hname⟩ := h
  obtain ⟨out, hout⟩ := Option.isSome_iff_exists.1 (@foundIn_isSome _ _ none _ _ htaken (.inr ⟨m, hm, hname⟩))
  obtain ⟨_, _, _, cs, _, hread⟩ := (foundIn_eq_some htaken hout).resolve_left fun h => by cases h
  have hsize : outSize ≠ 0 := Nat.ne_of_gt (Nat.zero_lt_of_lt (readString_bounds hread).2)
  unfold jsonGetStringField LooseDocument.render
  rw [if_neg (not_or.2 ⟨hkey, hsize⟩), skipWs_spaces, skipWs_cons (by decide)]
  dsimp only
  rw [if_neg (by decide), getStringFieldLoop_complete none htaken]
  · exact Option.isSome_iff_exists.2 ⟨out, hout⟩
  · have := length_looseRest others behind
    dsimp only
    rw [List.length_append]
    omega

/-- A text is one object of JSON. -/
def IsJsonObject (json : Bytes) : Prop := ∃ doc : Document, doc.render = json

theorem handshakeOk_reads {line : Bytes} (h : handshakeOk line = true) :
    jsonGetStringField line (lit "type") 64 = some (lit "handshake.ok") := by
  unfold handshakeOk at h
  split at h
  · cases h
  next type htype =>
    split at h
    · cases h
    next heq => rw [htype, not_not.1 heq]

theorem parseMessageCreate_reads {line : Bytes} {text : CBuf MAX_MESSAGE_LEN}
    (h : parseMessageCreate line = some text) :
    jsonGetStringField line (lit "type") 64 = some (lit "message.create") := by
  unfold parseMessageCreate at h
  split at h
  · cases h
  next type htype =>
    split at h
    · cases h
    next heq => rw [htype, not_not.1 heq]

/-- What the reader accepts is an object of JSON, and `out` the string of a member named so, if and only if
all readings of the text are JSON. Then its callers accept objects only. -/
theorem jsonGetStringField_sound_iff (json : Bytes) :
    (∀ key outSize,
      (∀ out, jsonGetStringField json key outSize = some out →
        ∃ doc : Document, doc.render = json ∧ ∃ m ∈ doc.named key, ∃ cs, m.value = .string cs ∧ decode cs = some out) ↔
      ∀ doc : LooseDocument, doc.render = json → doc.Taken key outSize → doc.IsJson) ∧
    ((∀ doc : LooseDocument, doc.render = json → doc.Taken (lit "type") 64 → doc.IsJson) →
      (∀ text, parseMessageCreate json = some text → IsJsonObject json) ∧
        (handshakeOk json = true → IsJsonObject json)) := by
  have hobject {key : Bytes} {outSize : Nat}
      (hjson : ∀ doc : LooseDocument, doc.render = json → doc.Taken key outSize → doc.IsJson) {out : Bytes}
      (h : jsonGetStringField json key outSize = some out) :
      ∃ doc : Document, doc.render = json ∧ ∃ m ∈ doc.named key, ∃ cs, m.value = .string cs ∧ decode cs = some out := by
    obtain ⟨doc, rfl, htaken, m, hm, hname, cs, htext, hread⟩ := jsonGetStringField_isSome h
    obtain ⟨strict, hrender, hspells⟩ := (hjson doc rfl htaken).exists_document
    obtain ⟨n, hn, hnName, b, hb⟩ := hspells m hm
    rw [htext] at hb
    have hvalue : quoted cs ++ [] = n.value.render ++ b.bytes := (List.append_nil (quoted cs)).trans hb
    obtain ⟨cs', hcs', hdecode, -⟩ := string_of_render hread hvalue
    have hnamed : n ∈ strict.named key := List.mem_filter.2 ⟨hn, decide_eq_true (by rw [hnName, hname])⟩
    exact ⟨strict, hrender, n, hnamed, cs', hcs', hdecode⟩
  refine ⟨fun key outSize => ⟨fun h doc hdoc htaken => ?_, fun hjson out h => hobject hjson h⟩, fun hjson => ⟨?_, ?_⟩⟩
  · have hsome := htaken.isSome
    rw [hdoc] at hsome
    obtain ⟨out, hout⟩ := Option.isSome_iff_exists.1 hsome
    obtain ⟨strict, hstrict, -⟩ := h out hout
    exact LooseDocument.isJson_of_render htaken (hdoc.trans hstrict.symm)
  · intro text h
    obtain ⟨doc, hdoc, -⟩ := hobject hjson (parseMessageCreate_reads h)
    exact ⟨doc, hdoc⟩
  · intro h
    obtain ⟨doc, hdoc, -⟩ := hobject hjson (handshakeOk_reads h)
    exact ⟨doc, hdoc⟩

/-- The answer of a module to the handshake. -/
def handshakeAnswer : Document :=
  plainObject [plainMember (lit "type") (.string (unescapedText (lit "handshake.ok"))),
    plainMember (lit "protocol") (.string (unescapedText TNT_MODULE_PROTOCOL_VERSION))]

theorem jsonGetStringField_sound_answer :
    (∃ doc : Document, doc.render = handshakeAnswer.render ∧
      ∃ m ∈ doc.named (lit "type"), ∃ cs, m.value = .string cs ∧ decode cs = some (lit "handshake.ok")) ∧
    (handshakeOk handshakeAnswer.render = true → IsJsonObject handshakeAnswer.render) :=
  have hjson (key : Bytes) (outSize : Nat) (doc : LooseDocument) (hdoc : doc.render = handshakeAnswer.render)
      (htaken : doc.Taken key outSize) : doc.IsJson := LooseDocument.isJson_of_render htaken hdoc
  ⟨((jsonGetStringField_sound_iff _).1 (lit "type") 64).2 (hjson _ _) (lit "handshake.ok") (by decide +kernel),
    ((jsonGetStringField_sound_iff _).2 (hjson _ _)).2⟩

def noSpaces : Spaces := ⟨[], fun _ h => absurd h List.not_mem_nil⟩

/-- A member without spaces, as it is read. -/
def looseMember (name value : Bytes) : LooseMember :=
  ⟨noSpaces, unescapedText name, noSpaces, noSpaces, quoted (unescapedText value), noSpaces⟩

/-- The answer with one brace too many. -/
def bracedAnswer : LooseDocument :=
  ⟨noSpaces, looseMember (lit "type") (lit "handshake.ok"),
    [looseMember (lit "protocol") TNT_MODULE_PROTOCOL_VERSION], [0x7D]⟩

theorem bracedAnswer_taken : bracedAnswer.Taken (lit "type") 64 := by
  refine ⟨by decide, ⟨⟨lit "type", rfl, ?_⟩, ⟨lit "protocol", rfl, ?_⟩, trivial⟩, _, List.mem_cons_self, rfl⟩
  · rw [if_pos rfl]
    exact ⟨unescapedText (lit "handshake.ok"), lit "handshake.ok", rfl, rfl⟩
  · rw [if_neg (by decide)]
    exact ⟨by decide +kernel, by decide +kernel⟩

/-- A line with a brace too many is accepted. -/
theorem handshakeOk_braced :
    jsonGetStringField bracedAnswer.render (lit "type") 64 = some (lit "handshake.ok") ∧
      handshakeOk bracedAnswer.render = true ∧ ¬ IsJsonObject bracedAnswer.render := by
  refine ⟨by decide +kernel, by decide +kernel, fun ⟨doc, hdoc⟩ => ?_⟩
  have hjson := LooseDocument.isJson_of_render bracedAnswer_taken hdoc.symm
  exact absurd (hjson.behind 0x7D List.mem_cons_self) (by decide)

end Tnt
