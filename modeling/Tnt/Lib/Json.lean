import Tnt.Lib.CText
/-!
# The grammar of JSON

A tree says how a text is spelt: where its blanks stand and how each character of a
string is written. The well-formed texts are those that a tree renders. What a string
stands for is `decode`, in UTF-8, and there is nothing that a lone surrogate stands for.
-/

namespace BaseLib.Json

/-! ## Blanks and strings -/

def isBlank (c : UInt8) : Bool := c == 0x20 || c == 0x09 || c == 0x0A || c == 0x0D

theorem isBlank_cases {c : UInt8} (h : isBlank c = true) : c = 0x20 ∨ c = 0x09 ∨ c = 0x0A ∨ c = 0x0D := by
  simpa [isBlank, or_assoc] using h

/-- `ws` -/
structure Blanks where
  bytes : Bytes
  blank : ∀ c ∈ bytes, isBlank c = true

def isHex (c : UInt8) : Bool := (0x30 ≤ c && c ≤ 0x39) || (0x41 ≤ c && c ≤ 0x46) || (0x61 ≤ c && c ≤ 0x66)

/-- The four digits behind `\u`. -/
structure CodeUnit where
  a : UInt8
  b : UInt8
  c : UInt8
  d : UInt8
  hex : isHex a ∧ isHex b ∧ isHex c ∧ isHex d

/-- The value of a hexadecimal digit. -/
def hexVal (c : UInt8) : Nat :=
  if c ≤ 0x39 then c.toNat - 0x30 else if c ≤ 0x46 then c.toNat - 0x37 else c.toNat - 0x57

def CodeUnit.value (u : CodeUnit) : Nat := hexVal u.a * 4096 + hexVal u.b * 256 + hexVal u.c * 16 + hexVal u.d

def CodeUnit.IsHigh (u : CodeUnit) : Prop := 0xD800 ≤ u.value ∧ u.value ≤ 0xDBFF

def CodeUnit.IsLow (u : CodeUnit) : Prop := 0xDC00 ≤ u.value ∧ u.value ≤ 0xDFFF

instance (u : CodeUnit) : Decidable u.IsHigh := inferInstanceAs (Decidable (_ ∧ _))

instance (u : CodeUnit) : Decidable u.IsLow := inferInstanceAs (Decidable (_ ∧ _))

inductive Escape
  | quote | backslash | slash | backspace | formFeed | lineFeed | carriageReturn | tab

namespace Escape

/-- The letter behind the backslash. -/
def letter : Escape → UInt8
  | quote => 0x22
  | backslash => 0x5C
  | slash => 0x2F
  | backspace => 0x62
  | formFeed => 0x66
  | lineFeed => 0x6E
  | carriageReturn => 0x72
  | tab => 0x74

/-- The byte that is meant. -/
def byte : Escape → UInt8
  | quote => 0x22
  | backslash => 0x5C
  | slash => 0x2F
  | backspace => 0x08
  | formFeed => 0x0C
  | lineFeed => 0x0A
  | carriageReturn => 0x0D
  | tab => 0x09

end Escape

/-- How a byte or a code unit of a string is written. -/
inductive Character
  | plain (c : UInt8) (h : 0x20 ≤ c ∧ c ≠ 0x22 ∧ c ≠ 0x5C)
  | escape (e : Escape)
  | unicode (u : CodeUnit)

def Character.render : Character → Bytes
  | plain c _ => [c]
  | escape e => [0x5C, e.letter]
  | unicode u => [0x5C, 0x75, u.a, u.b, u.c, u.d]

/-- What stands between the quotes. -/
def spell (cs : List Character) : Bytes := cs.flatMap Character.render

@[simp] theorem spell_cons (ch : Character) (cs : List Character) : spell (ch :: cs) = ch.render ++ spell cs :=
  List.flatMap_cons

def quoted (cs : List Character) : Bytes := 0x22 :: spell cs ++ [0x22]

/-- A text that needs no escapes, as it is; what would need one is left out. -/
def unescapedText (text : Bytes) : List Character :=
  text.filterMap fun c => if h : 0x20 ≤ c ∧ c ≠ 0x22 ∧ c ≠ 0x5C then some (.plain c h) else none

/-- A codepoint in UTF-8. -/
def utf8 (n : Nat) : Bytes := String.utf8EncodeChar (Char.ofNat n)

/-- What a string stands for. -/
def decode : List Character → Option Bytes
  | [] => some []
  | .plain c _ :: cs => (decode cs).map (c :: ·)
  | .escape e :: cs => (decode cs).map (e.byte :: ·)
  | .unicode u :: .unicode v :: cs =>
    if u.IsHigh ∧ v.IsLow then
      (decode cs).map (utf8 (0x10000 + (u.value - 0xD800) * 0x400 + (v.value - 0xDC00)) ++ ·)
    else if u.IsHigh ∨ u.IsLow then none
    else (decode (.unicode v :: cs)).map (utf8 u.value ++ ·)
  | .unicode u :: cs => if u.IsHigh ∨ u.IsLow then none else (decode cs).map (utf8 u.value ++ ·)

theorem decode_unescapedText {text : Bytes} (h : ∀ c ∈ text, 0x20 ≤ c ∧ c ≠ 0x22 ∧ c ≠ 0x5C) :
    decode (unescapedText text) = some text := by
  induction text with
  | nil => rfl
  | cons c text ih =>
    have hc := h c List.mem_cons_self
    have hcons : unescapedText (c :: text) = .plain c hc :: unescapedText text :=
      List.filterMap_cons_some (dif_pos hc)
    rw [hcons, decode, ih fun d hd => h d (List.mem_cons_of_mem _ hd)]
    rfl

/-! ## Values -/

structure Digits where
  bytes : Bytes
  digit : ∀ c ∈ bytes, isDigit c = true
  nonempty : bytes ≠ []

structure Exponent where
  upper : Bool
  /-- Whether it has a minus, if it has a sign. -/
  sign : Option Bool
  digits : Digits

structure Number where
  minus : Bool
  int : Digits
  noLeadingZero : int.bytes.head? = some 0x30 → int.bytes.length = 1
  frac : Option Digits
  exp : Option Exponent

def signBytes (minus : Bool) : Bytes := if minus then [0x2D] else [0x2B]

def Exponent.render (e : Exponent) : Bytes :=
  (if e.upper then 0x45 else 0x65) :: e.sign.elim [] signBytes ++ e.digits.bytes

def Number.render (n : Number) : Bytes :=
  (if n.minus then [0x2D] else []) ++ n.int.bytes ++ n.frac.elim [] (0x2E :: ·.bytes) ++ n.exp.elim [] Exponent.render

inductive Scalar
  | null
  | bool (b : Bool)
  | number (n : Number)

def Scalar.render : Scalar → Bytes
  | null => lit "null"
  | bool b => if b then lit "true" else lit "false"
  | number n => n.render

mutual

inductive Value
  | scalar (s : Scalar)
  | string (cs : List Character)
  | array (blanks : Blanks) (elements : List Element)
  | object (blanks : Blanks) (members : List Member)

structure Element where
  before : Blanks
  value : Value
  after : Blanks

structure Member where
  before : Blanks
  name : List Character
  afterName : Blanks
  beforeValue : Blanks
  value : Value
  after : Blanks

end

/-- The parts with commas between them. -/
def commas : List Bytes → Bytes
  | [] => []
  | p :: ps => p ++ ps.flatMap (0x2C :: ·)

mutual

/-- The text that a value is spelt as. -/
def Value.render : Value → Bytes
  | .scalar s => s.render
  | .string cs => quoted cs
  | .array blanks elements => 0x5B :: blanks.bytes ++ commas (renderElements elements) ++ [0x5D]
  | .object blanks members => 0x7B :: blanks.bytes ++ commas (renderMembers members) ++ [0x7D]

def Element.render : Element → Bytes
  | ⟨before, value, after⟩ => before.bytes ++ value.render ++ after.bytes

def Member.render : Member → Bytes
  | ⟨before, name, afterName, beforeValue, value, after⟩ =>
    before.bytes ++ quoted name ++ afterName.bytes ++ 0x3A :: beforeValue.bytes ++ value.render ++ after.bytes

def renderElements : List Element → List Bytes
  | [] => []
  | element :: elements => element.render :: renderElements elements

def renderMembers : List Member → List Bytes
  | [] => []
  | m :: members => m.render :: renderMembers members

end

/-- A text that is an object. -/
structure Document where
  before : Blanks
  blanks : Blanks
  members : List Member
  after : Blanks

def Document.render (doc : Document) : Bytes :=
  doc.before.bytes ++ (Value.object doc.blanks doc.members).render ++ doc.after.bytes

namespace Document

/-- The members that have a name. -/
def named (doc : Document) (key : Bytes) : List Member := doc.members.filter (decode ·.name = some key)

/-- The value of the member with a name; the last one counts. -/
def value? (doc : Document) (key : Bytes) : Option Value := (doc.named key).getLast?.map (·.value)

end Document

/-- The bytes of numbers and literals. -/
def isScalarByte (c : UInt8) : Bool :=
  isDigit c || (0x61 ≤ c && c ≤ 0x7A) || c == 0x2B || c == 0x2D || c == 0x2E || c == 0x45

theorem isScalarByte_le {c : UInt8} (h : isScalarByte c = true) : 0x2B ≤ c := by
  simp only [isScalarByte, isDigit, Bool.or_eq_true, Bool.and_eq_true, decide_eq_true_eq, beq_iff_eq] at h
  rcases h with ((((h | h) | rfl) | rfl) | rfl) | rfl
  · exact UInt8.le_trans (by decide) h.1
  · exact UInt8.le_trans (by decide) h.1
  all_goals decide

theorem ne_of_isScalarByte {c d : UInt8} (h : isScalarByte c = true) (hd : isScalarByte d = false) : c ≠ d := by
  rintro rfl
  rw [hd] at h
  cases h

theorem isScalarByte_of_isDigit {c : UInt8} (h : isDigit c = true) : isScalarByte c = true := by
  rw [isScalarByte, h]
  rfl

theorem Exponent.isScalarByte_of_mem {e : Exponent} {c : UInt8} (h : c ∈ e.render) : isScalarByte c = true := by
  obtain ⟨upper, sign, digits⟩ := e
  have hsign (b : Bool) : ∀ c ∈ signBytes b, isScalarByte c = true := by
    cases b <;> exact List.all_eq_true.1 rfl
  rcases List.mem_append.1 h with h | h
  · rcases List.mem_cons.1 h with rfl | h
    · cases upper <;> rfl
    · cases sign with
      | none => cases h
      | some b => exact hsign b c h
  · exact isScalarByte_of_isDigit (digits.digit c h)

theorem Number.isScalarByte_of_mem {n : Number} {c : UInt8} (h : c ∈ n.render) : isScalarByte c = true := by
  obtain ⟨minus, int, _, frac, exp⟩ := n
  simp only [Number.render, List.mem_append] at h
  rcases h with ((h | h) | h) | h
  · cases minus with
    | false => cases h
    | true =>
      obtain rfl := List.mem_singleton.1 h
      rfl
  · exact isScalarByte_of_isDigit (int.digit c h)
  · cases frac with
    | none => cases h
    | some digits =>
      rcases List.mem_cons.1 h with rfl | h
      · rfl
      · exact isScalarByte_of_isDigit (digits.digit c h)
  · cases exp with
    | none => cases h
    | some e => exact e.isScalarByte_of_mem h

theorem Scalar.isScalarByte_of_mem {s : Scalar} {c : UInt8} (h : c ∈ s.render) : isScalarByte c = true := by
  cases s with
  | null => exact List.all_eq_true.1 (by decide : Scalar.null.render.all isScalarByte = true) c h
  | bool b => exact List.all_eq_true.1 ((by decide : ∀ b, (Scalar.bool b).render.all isScalarByte = true) b) c h
  | number n => exact n.isScalarByte_of_mem h

theorem Scalar.render_ne_nil (s : Scalar) : s.render ≠ [] := by
  cases s with
  | null => decide
  | bool b => cases b <;> decide
  | number n =>
    intro h
    simp only [Scalar.render, Number.render, List.append_eq_nil_iff] at h
    exact n.int.nonempty h.1.1.2

/-- A scalar begins with one of its bytes. -/
theorem Scalar.render_cons (s : Scalar) : ∃ c t, s.render = c :: t ∧ isScalarByte c = true := by
  obtain ⟨c, t, h⟩ := List.exists_cons_of_ne_nil s.render_ne_nil
  exact ⟨c, t, h, s.isScalarByte_of_mem (h ▸ List.mem_cons_self)⟩

/-! ## No text has a NUL -/

theorem zero_notMem_blanks (b : Blanks) : 0 ∉ b.bytes := fun h => absurd (b.blank 0 h) (by decide)

theorem zero_notMem_character (ch : Character) : 0 ∉ ch.render := by
  cases ch with
  | plain c h =>
    intro h0
    rw [← List.mem_singleton.1 h0] at h
    exact absurd h.1 (by decide)
  | escape e => cases e <;> decide
  | unicode u =>
    obtain ⟨a, b, c, d, ha, hb, hc, hd⟩ := u
    intro h
    simp only [Character.render, List.mem_cons, List.not_mem_nil, or_false] at h
    rcases h with h | h | h | h | h | h
    · exact absurd h (by decide)
    · exact absurd h (by decide)
    · exact absurd (h ▸ ha) (by decide)
    · exact absurd (h ▸ hb) (by decide)
    · exact absurd (h ▸ hc) (by decide)
    · exact absurd (h ▸ hd) (by decide)

theorem zero_notMem_quoted (cs : List Character) : 0 ∉ quoted cs := by
  intro h
  rcases List.mem_append.1 h with h | h
  · rcases List.mem_cons.1 h with h | h
    · exact absurd h (by decide)
    · obtain ⟨ch, -, h⟩ := List.mem_flatMap.1 h
      exact zero_notMem_character ch h
  · exact absurd h (by decide)

theorem zero_notMem_commas {parts : List Bytes} (h : ∀ t ∈ parts, 0 ∉ t) : 0 ∉ commas parts := by
  intro h0
  cases parts with
  | nil => cases h0
  | cons t parts =>
    rcases List.mem_append.1 h0 with h0 | h0
    · exact h t List.mem_cons_self h0
    · obtain ⟨u, hu, h0⟩ := List.mem_flatMap.1 h0
      rcases List.mem_cons.1 h0 with h0 | h0
      · exact absurd h0 (by decide)
      · exact h u (List.mem_cons_of_mem _ hu) h0

theorem zero_notMem_bracketed {l r : UInt8} (hl : l ≠ 0) (hr : r ≠ 0) (blanks : Blanks) {t : Bytes} (ht : 0 ∉ t) :
    0 ∉ l :: blanks.bytes ++ t ++ [r] := by
  simp only [List.cons_append, List.mem_cons, List.mem_append, List.not_mem_nil, or_false, not_or]
  exact ⟨hl.symm, ⟨zero_notMem_blanks blanks, ht⟩, hr.symm⟩

mutual

theorem zero_notMem_value (v : Value) : 0 ∉ v.render := by
  match v with
  | .scalar s => exact fun h => absurd (s.isScalarByte_of_mem h) (by decide)
  | .string cs => exact zero_notMem_quoted cs
  | .array blanks elements =>
    exact zero_notMem_bracketed (by decide) (by decide) blanks (zero_notMem_commas (zero_notMem_elements elements))
  | .object blanks members =>
    exact zero_notMem_bracketed (by decide) (by decide) blanks (zero_notMem_commas (zero_notMem_members members))

theorem zero_notMem_element (element : Element) : 0 ∉ element.render := by
  match element with
  | ⟨before, value, after⟩ =>
    simp only [Element.render, List.mem_append, not_or]
    exact ⟨⟨zero_notMem_blanks before, zero_notMem_value value⟩, zero_notMem_blanks after⟩

theorem zero_notMem_member (m : Member) : 0 ∉ m.render := by
  match m with
  | ⟨before, name, afterName, beforeValue, value, after⟩ =>
    simp only [Member.render, List.mem_append, List.mem_cons, not_or]
    exact ⟨⟨⟨⟨⟨zero_notMem_blanks before, zero_notMem_quoted name⟩, zero_notMem_blanks afterName⟩, by decide,
      zero_notMem_blanks beforeValue⟩, zero_notMem_value value⟩, zero_notMem_blanks after⟩

theorem zero_notMem_elements (elements : List Element) : ∀ t ∈ renderElements elements, 0 ∉ t := by
  match elements with
  | [] => exact fun t ht => absurd ht List.not_mem_nil
  | element :: elements =>
    intro t ht
    rcases List.mem_cons.1 ht with rfl | ht
    · exact zero_notMem_element element
    · exact zero_notMem_elements elements t ht

theorem zero_notMem_members (members : List Member) : ∀ t ∈ renderMembers members, 0 ∉ t := by
  match members with
  | [] => exact fun t ht => absurd ht List.not_mem_nil
  | m :: members =>
    intro t ht
    rcases List.mem_cons.1 ht with rfl | ht
    · exact zero_notMem_member m
    · exact zero_notMem_members members t ht

end

end BaseLib.Json
