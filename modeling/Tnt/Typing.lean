import Tnt.InsertMode
/-!
# Typed text and pasted text (`input.c`, `input_buffer.c`)

`tnt_input_append_stream_byte` puts the characters of a text into the input, in their order, as far as they fit
(`pasteBytes_isChar`, `exists_isChar_of_changed`). Typing puts in a character where a single read gives the whole
of its rest; `typing_iff` says when the two come to the same.
-/
open BaseLib

namespace Tnt

/-! ## The stream of a paste -/

section Stream
variable {input : CBuf MAX_MESSAGE_LEN} {state : Utf8State}

/-- Nothing, or the front of a sequence that its first byte tells the length of. -/
def Utf8State.Pending (state : Utf8State) : Prop :=
  state = .reset ∨ ∃ b t, state.bytes = b :: t ∧ state.expectedLen = utf8ByteLength b ∧ 2 ≤ utf8ByteLength b ∧
    (∀ x ∈ t, isContinuation x = true) ∧ state.bytes.length < state.expectedLen

theorem pending_reset : Utf8State.reset.Pending := .inl rfl

theorem pasteBytes_append (input : CBuf MAX_MESSAGE_LEN) (state : Utf8State) (s t : Bytes) :
    pasteBytes input state (s ++ t) = pasteBytes (pasteBytes input state s).1 (pasteBytes input state s).2 t :=
  List.foldl_append

theorem pasteBytes_cons (input : CBuf MAX_MESSAGE_LEN) (state : Utf8State) (b : UInt8) (t : Bytes) :
    pasteBytes input state (b :: t) = pasteBytes (pasteBytes input state [b]).1 (pasteBytes input state [b]).2 t := rfl

/-- A byte that is no control is streamed as it is. -/
theorem pasteBytes_single {b : UInt8} (hb : 0x20 ≤ b) :
    pasteBytes input state [b] = (appendPrintableByte input state b).2 := by
  have hne : (b == 0x0D || b == newline || b == 0x09) = false := by
    simp only [Bool.or_eq_false_iff, beq_eq_false_iff_ne]
    refine ⟨⟨?_, ?_⟩, ?_⟩ <;> rintro rfl <;> exact absurd hb (by decide)
  show (inputAppendStreamByte input state b true).2 = _
  unfold inputAppendStreamByte
  simp only [Bool.true_and, hne, Bool.false_eq_true, if_false]
  rw [if_neg (UInt8.not_lt.2 hb)]

/-- An ASCII byte ends what was begun. -/
theorem pasteBytes_ascii (hs : state.Pending) {b : UInt8} (hb : 0x20 ≤ b ∧ b ≠ 0x7F) (hascii : b < 128) :
    pasteBytes input state [b] = ((appendBytes input [b]).2, .reset) := by
  have hlt : ¬ (b < 32 ∨ b ≥ 127) := by
    simp only [UInt8.le_iff_toNat_le, UInt8.lt_iff_toNat_lt, ge_iff_le, ne_eq, ← UInt8.toNat_inj,
      UInt8.reduceToNat] at hb hascii ⊢
    omega
  rw [pasteBytes_single hb.1]
  unfold appendPrintableByte
  rw [if_pos hascii]
  unfold inputAppendAscii
  rw [if_neg hlt]
  generalize appendBytes input [b] = appended
  obtain ⟨status, out⟩ := appended
  dsimp only
  split
  · rfl
  next hlen =>
    rcases hs with rfl | ⟨_, _, hbytes, -⟩
    · rfl
    · rw [hbytes] at hlen
      exact absurd (Nat.zero_lt_succ _) hlen

/-- A byte that is neither ASCII nor a continuation drops what was begun. -/
theorem pasteBytes_start {b : UInt8} (hascii : ¬ b < 128) (hb : state = .reset ∨ isContinuation b = false) :
    pasteBytes input state [b] = (input, if utf8ByteLength b ≤ 1 then .reset else ⟨[b], utf8ByteLength b⟩) := by
  have hge : 0x20 ≤ b := UInt8.le_trans (by decide : (0x20 : UInt8) ≤ 128) (UInt8.not_lt.1 hascii)
  have hstart : (startUtf8Sequence input b).2 =
      (input, if utf8ByteLength b ≤ 1 then .reset else ⟨[b], utf8ByteLength b⟩) := by
    have := (utf8ByteLength_pos b).2
    unfold startUtf8Sequence
    dsimp only
    split
    next h => rw [if_pos (by omega)]
    next h => rw [if_neg (by omega)]
  rw [pasteBytes_single hge]
  unfold appendPrintableByte
  rw [if_neg hascii]
  split
  · exact hstart
  next hlen =>
    have hcont : isContinuation b = false := hb.resolve_left (by rintro rfl; exact hlen rfl)
    rw [if_pos (by rw [hcont]; rfl)]
    exact hstart

/-- A continuation byte goes on with what was begun. -/
theorem pasteBytes_continue {b : UInt8} (hcont : isContinuation b = true) (hne : state.bytes ≠ []) :
    pasteBytes input state [b] =
      if state.bytes.length + 1 = state.expectedLen then
        ((inputAppendUtf8Sequence input (state.bytes ++ [b])).2, .reset)
      else (input, { state with bytes := state.bytes ++ [b] }) := by
  have hrange := (isContinuation_iff b).1 hcont
  have hascii : ¬ b < 128 := by
    rw [UInt8.lt_iff_toNat_lt]
    exact Nat.not_lt.2 hrange.1
  have hge : 0x20 ≤ b := UInt8.le_trans (by decide : (0x20 : UInt8) ≤ 128) (UInt8.not_lt.1 hascii)
  rw [pasteBytes_single hge]
  unfold appendPrintableByte
  rw [if_neg hascii, if_neg (fun h => hne (List.length_eq_zero_iff.1 h)), if_neg (by rw [hcont]; decide)]
  dsimp only
  rw [List.length_append, List.length_singleton]
  split <;> rfl

/-- The rest of a character completes it. -/
theorem pasteBytes_rest {front t : Bytes} {len : Nat} (ht : ∀ x ∈ t, isContinuation x = true) (hne : front ≠ [])
    (hlen : front.length + t.length ≤ len) (hfront : front.length < len) :
    pasteBytes input ⟨front, len⟩ t =
      if front.length + t.length = len then ((inputAppendUtf8Sequence input (front ++ t)).2, .reset)
      else (input, ⟨front ++ t, len⟩) := by
  induction t generalizing front with
  | nil =>
    rw [List.length_nil, Nat.add_zero, if_neg (by omega), List.append_nil]
    rfl
  | cons b t ih =>
    have hb := @pasteBytes_continue input ⟨front, len⟩ b (ht b List.mem_cons_self) hne
    rw [List.length_cons] at hlen ⊢
    rw [pasteBytes_cons, hb]
    dsimp only
    by_cases hlast : front.length + 1 = len
    · have ht0 : t = [] := List.length_eq_zero_iff.1 (by omega)
      subst ht0
      rw [if_pos hlast, if_pos (by simpa using hlast)]
      rfl
    · have hstep := @ih (front ++ [b]) (fun x hx => ht x (List.mem_cons_of_mem _ hx)) (by simp)
        (by rw [List.length_append, List.length_singleton]; omega)
        (by rw [List.length_append, List.length_singleton]; omega)
      rw [if_neg hlast]
      dsimp only
      rw [hstep, List.length_append, List.length_singleton, List.append_assoc, List.singleton_append]
      simp only [Nat.add_assoc, Nat.add_comm 1]

/-- A character is put in when it is complete, whatever was begun before it. -/
theorem pasteBytes_isChar (hs : state.Pending) {c : Bytes} (hc : IsChar c) (hplain : Plain c) :
    pasteBytes input state c = ((appendBytes input c).2, .reset) ∧
      ∀ j, j < c.length → (pasteBytes input state (c.take j)).1 = input := by
  rcases hc.cases with ⟨b, rfl, -, hlt⟩ | ⟨hlen, hhigh⟩
  · refine ⟨pasteBytes_ascii hs (hplain b List.mem_cons_self) (UInt8.lt_iff_toNat_lt.2 hlt), fun j hj => ?_⟩
    rw [List.length_singleton, Nat.lt_one_iff] at hj
    rw [hj]
    rfl
  · obtain ⟨b, t, rfl⟩ := List.exists_cons_of_ne_nil hc.ne_nil
    have hbytes : utf8ByteLength b = (b :: t).length := hc.byteLength
    have hhead : isContinuation b = false := hc.head
    have hascii : ¬ b < 128 := by
      rw [UInt8.lt_iff_toNat_lt]
      exact Nat.not_lt.2 (hhigh b List.mem_cons_self)
    have hstart := @pasteBytes_start input state b hascii (.inr hhead)
    rw [if_neg (by omega)] at hstart
    have hrest {t' : Bytes} (ht' : t' <+: t) : pasteBytes input state (b :: t') =
        if 1 + t'.length = utf8ByteLength b then ((inputAppendUtf8Sequence input (b :: t')).2, .reset)
        else (input, ⟨b :: t', utf8ByteLength b⟩) := by
      have hle := ht'.length_le
      rw [List.length_cons] at hbytes hlen
      rw [pasteBytes_cons, hstart]
      exact pasteBytes_rest (fun x hx => hc.tail x (ht'.subset hx)) (by simp)
        (by rw [List.length_singleton]; omega) (by rw [List.length_singleton]; omega)
    constructor
    · rw [hrest List.prefix_rfl, if_pos (by rw [hbytes, List.length_cons, Nat.add_comm]), appendUtf8Sequence_isChar hc]
    · intro j hj
      cases j with
      | zero => rfl
      | succ j =>
        rw [List.length_cons] at hj hbytes
        rw [List.take_succ_cons, hrest (List.take_prefix j t), if_neg]
        rw [List.length_take]
        omega

/-! ## What changes the input -/

/-- A byte completes a character, which is put in, or it leaves the input and begins or goes on with a sequence
or drops it. -/
theorem pasteBytes_byte (hs : state.Pending) {b : UInt8} (hb : 0x20 ≤ b ∧ b ≠ 0x7F) :
    (∃ c, (c = [b] ∨ c = state.bytes ++ [b]) ∧ IsChar c ∧
      pasteBytes input state [b] = ((appendBytes input c).2, .reset)) ∨
      (∃ next : Utf8State, pasteBytes input state [b] = (input, next) ∧ next.Pending ∧
        (next = .reset ∨ next.bytes = [b] ∨ next.bytes = state.bytes ++ [b])) := by
  by_cases hascii : b < 128
  · refine .inl ⟨[b], .inl rfl, (isChar_single b).2 ⟨?_, UInt8.lt_iff_toNat_lt.1 hascii⟩, pasteBytes_ascii hs hb hascii⟩
    rintro rfl
    exact absurd hb.1 (by decide)
  by_cases hcont : isContinuation b = true ∧ state.bytes ≠ []
  · rw [pasteBytes_continue hcont.1 hcont.2]
    split
    · by_cases hchar : IsChar (state.bytes ++ [b])
      · exact .inl ⟨_, .inr rfl, hchar, by rw [appendUtf8Sequence_isChar hchar]⟩
      · refine .inr ⟨.reset, ?_, pending_reset, .inl rfl⟩
        unfold inputAppendUtf8Sequence
        rw [if_pos (.inr (.inr (by rw [Bool.eq_false_iff.2 hchar]; rfl)))]
    next hmore =>
      refine .inr ⟨_, rfl, ?_, .inr (.inr rfl)⟩
      rcases hs with rfl | ⟨lead, t, hbytes, hlen, htwo, htail, hshort⟩
      · exact absurd rfl hcont.2
      · refine .inr ⟨lead, t ++ [b], ?_, hlen, htwo, ?_, ?_⟩
        · rw [hbytes]
          rfl
        · intro x hx
          rcases List.mem_append.1 hx with hx | hx
          · exact htail x hx
          · exact List.mem_singleton.1 hx ▸ hcont.1
        · rw [List.length_append, List.length_singleton]
          exact Nat.lt_of_le_of_ne hshort hmore
  · have hstart : state = .reset ∨ isContinuation b = false := by
      rcases hs with h | ⟨lead, t, hbytes, -⟩
      · exact .inl h
      · refine .inr (Bool.eq_false_iff.2 fun h => hcont ⟨h, ?_⟩)
        rw [hbytes]
        exact List.cons_ne_nil lead t
    rw [pasteBytes_start hascii hstart]
    split
    · exact .inr ⟨_, rfl, pending_reset, .inl rfl⟩
    next hone =>
      have htwo : 2 ≤ utf8ByteLength b := by omega
      exact .inr ⟨_, rfl, .inr ⟨b, [], rfl, rfl, htwo, fun x hx => absurd hx List.not_mem_nil, htwo⟩, .inr (.inl rfl)⟩

/-- What was begun is the end of what was streamed. -/
structure Streamed (input : CBuf MAX_MESSAGE_LEN) (s : Bytes) : Prop where
  pending : (pasteBytes input .reset s).2.Pending
  front : ∃ u, s = u ++ (pasteBytes input .reset s).2.bytes ∧
    (pasteBytes input .reset u).1 = (pasteBytes input .reset s).1

/-- A change is a character more, for which there was room. -/
theorem room_of_appendBytes {c : Bytes} (h : (appendBytes input c).2 ≠ input) :
    input.bytes.length + c.length < MAX_MESSAGE_LEN := by
  unfold appendBytes at h
  split at h
  · exact absurd rfl h
  split at h
  · exact absurd rfl h
  next hroom => omega

/-- One byte more: where the input changes, the byte completes a character for which there was room. -/
theorem Streamed.byte {s : Bytes} (hs : Streamed input s) {b : UInt8} (hb : 0x20 ≤ b ∧ b ≠ 0x7F) :
    Streamed input (s ++ [b]) ∧
      ((pasteBytes input .reset (s ++ [b])).1 ≠ (pasteBytes input .reset s).1 →
        ∃ u c, s ++ [b] = u ++ c ∧ IsChar c ∧ (pasteBytes input .reset u).1.bytes.length + c.length <
          MAX_MESSAGE_LEN) := by
  obtain ⟨hpending, u, hu, hfront⟩ := hs
  have hstep := pasteBytes_append input .reset s [b]
  obtain ⟨c, hc, hchar, hresult⟩ | ⟨next, hresult, hnext, hbytes⟩ :=
    @pasteBytes_byte (pasteBytes input .reset s).1 _ hpending b hb
  · rw [hresult] at hstep
    refine ⟨⟨by rw [hstep]; exact pending_reset, s ++ [b], by rw [hstep]; exact (List.append_nil _).symm, rfl⟩,
      fun hchange => ?_⟩
    rw [hstep] at hchange
    have hroom := room_of_appendBytes hchange
    rcases hc with rfl | rfl
    · exact ⟨s, [b], rfl, hchar, hroom⟩
    · refine ⟨u, _, ?_, hchar, hfront ▸ hroom⟩
      rw [← List.append_assoc, ← hu]
  · rw [hresult] at hstep
    refine ⟨⟨by rw [hstep]; exact hnext, ?_⟩, fun hchange => absurd (by rw [hstep]) hchange⟩
    rw [hstep]
    rcases hbytes with rfl | hbytes | hbytes
    · exact ⟨s ++ [b], (List.append_nil _).symm, by rw [hstep]⟩
    · exact ⟨s, by rw [hbytes], rfl⟩
    · refine ⟨u, ?_, hfront⟩
      rw [hbytes, ← List.append_assoc, ← hu]

theorem streamed (input : CBuf MAX_MESSAGE_LEN) {s : Bytes} (hs : Plain s) : Streamed input s := by
  induction s using List.reverseRecOn with
  | nil => exact ⟨pending_reset, [], rfl, rfl⟩
  | append_singleton s b ih =>
    obtain ⟨hs, hb⟩ := plain_append.1 hs
    exact ((ih hs).byte (hb b List.mem_cons_self)).1

/-- Where bytes change the input, one of them completes a character. -/
theorem exists_isChar_of_changed {s w : Bytes} (hs : Plain s) (hw : Plain w)
    (h : (pasteBytes input .reset (s ++ w)).1 ≠ (pasteBytes input .reset s).1) :
    ∃ u c v, s ++ w = u ++ (c ++ v) ∧ IsChar c ∧ s.length < u.length + c.length ∧
      (pasteBytes input .reset u).1.bytes.length + c.length < MAX_MESSAGE_LEN := by
  induction w using List.reverseRecOn with
  | nil => exact absurd (by rw [List.append_nil]) h
  | append_singleton w b ih =>
    obtain ⟨hw, hb⟩ := plain_append.1 hw
    by_cases hearlier : (pasteBytes input .reset (s ++ w)).1 = (pasteBytes input .reset s).1
    · rw [← hearlier, ← List.append_assoc] at h
      obtain ⟨u, c, huc, hc, hroom⟩ := ((streamed input (plain_append.2 ⟨hs, hw⟩)).byte (hb b List.mem_cons_self)).2 h
      refine ⟨u, c, [], by rw [← List.append_assoc, huc, List.append_nil], hc, ?_, hroom⟩
      have hlen := congrArg List.length huc
      simp only [List.length_append, List.length_singleton] at hlen
      omega
    · obtain ⟨u, c, v, huc, hc, hlen, hroom⟩ := ih hw hearlier
      exact ⟨u, c, v ++ [b], by rw [← List.append_assoc, huc]; simp only [List.append_assoc], hc, hlen, hroom⟩

/-- The input only grows. -/
theorem length_appendBytes_le (input : CBuf MAX_MESSAGE_LEN) {bytes : Bytes} (h0 : 0 ∉ bytes) :
    input.bytes.length ≤ (appendBytes input bytes).2.bytes.length := by
  rw [appendBytes_bytes h0]
  split
  · rw [List.length_append]
    omega
  · exact Nat.le_refl _

theorem length_streamed_le {s t : Bytes} (hs : Plain s) (ht : Plain t) :
    (pasteBytes input .reset s).1.bytes.length ≤ (pasteBytes input .reset (s ++ t)).1.bytes.length := by
  induction t using List.reverseRecOn with
  | nil => rw [List.append_nil]
  | append_singleton t b ih =>
    obtain ⟨ht, hb⟩ := plain_append.1 ht
    have hb := hb b List.mem_cons_self
    apply (ih ht).trans
    have hpending := (streamed input (plain_append.2 ⟨hs, ht⟩)).pending
    rw [← List.append_assoc, pasteBytes_append input .reset (s ++ t)]
    obtain ⟨c, -, hchar, hresult⟩ | ⟨_, hresult, -⟩ :=
      @pasteBytes_byte (pasteBytes input .reset (s ++ t)).1 _ hpending b hb
    · rw [hresult]
      exact length_appendBytes_le _ hchar.zero_notMem
    · rw [hresult]

/-- Before a character is complete, the input is no longer than in front of it. -/
theorem length_front_le {p u c v : Bytes} (hplain : Plain (u ++ (c ++ v))) (hp : p <+: u ++ (c ++ v))
    (hlt : p.length < u.length + c.length) (hc : IsChar c) :
    (pasteBytes input .reset p).1.bytes.length ≤ (pasteBytes input .reset u).1.bytes.length := by
  obtain ⟨hu, hcv⟩ := plain_append.1 hplain
  rcases Nat.le_total p.length u.length with hle | hle
  · obtain ⟨t, rfl⟩ := List.prefix_of_prefix_length_le hp (List.prefix_append u _) hle
    exact length_streamed_le (plain_append.1 hu).1 (plain_append.1 hu).2
  · have hcut : p = u ++ c.take (p.length - u.length) := by
      calc p = (u ++ (c ++ v)).take p.length := List.prefix_iff_eq_take.1 hp
        _ = u ++ c.take (p.length - u.length) := by
          rw [List.take_append, List.take_of_length_le hle, List.take_append_of_le_length (by omega)]
    have hbefore := (@pasteBytes_isChar (pasteBytes input .reset u).1 _ (streamed input hu).pending c hc
      (plain_append.1 hcv).1).2 (p.length - u.length) (by omega)
    rw [hcut, pasteBytes_append, hbefore]

end Stream

/-! ## Typing -/

/-- A typed byte, and what the read behind it gave. -/
structure Keystroke where
  byte : UInt8
  rest : Bytes
  plain : Plain (byte :: rest)
  fits : rest.length ≤ utf8ByteLength byte - 1

namespace Keystroke

def bytes (k : Keystroke) : Bytes := k.byte :: k.rest

theorem plain_bytes (k : Keystroke) : Plain k.bytes := k.plain

def reads (k : Keystroke) : List InsertEvent := typedReads k.byte k.rest

end Keystroke

/-- The text of keystrokes. -/
def typedText (ks : List Keystroke) : Bytes := ks.flatMap Keystroke.bytes

/-- The editor after keystrokes. -/
def typing (e : Editor MAX_MESSAGE_LEN) (ks : List Keystroke) : Editor MAX_MESSAGE_LEN :=
  ks.foldl (fun e k => e.byte k.byte k.rest) e

theorem exec_typing (e : Editor MAX_MESSAGE_LEN) (ks : List Keystroke) :
    exec insertStep ⟨true, .key, e⟩ (ks.flatMap Keystroke.reads) = some ⟨true, .key, typing e ks⟩ := by
  induction ks generalizing e with
  | nil => rfl
  | cons k ks ih =>
    have hbyte := k.plain k.byte List.mem_cons_self
    rw [List.flatMap_cons, exec_append, Keystroke.reads, exec_typedReads e hbyte.1 hbyte.2 k.fits]
    exact ih (e.byte k.byte k.rest)

theorem high_of_not_ascii {b : UInt8} (hb : 0x20 ≤ b ∧ b ≠ 0x7F) (h : ¬ (b ≥ 32 ∧ b < 127)) : b ≥ 128 := by
  simp only [UInt8.le_iff_toNat_le, UInt8.lt_iff_toNat_lt, ge_iff_le, ne_eq, ← UInt8.toNat_inj,
    UInt8.reduceToNat] at hb h ⊢
  omega

/-- A keystroke that reads a whole character puts it in. -/
theorem byte_isChar (e : Editor MAX_MESSAGE_LEN) {b : UInt8} {rest : Bytes} (hb : 0x20 ≤ b ∧ b ≠ 0x7F)
    (h : IsChar (b :: rest)) : (e.byte b rest).input = (appendBytes e.input (b :: rest)).2 := by
  have hlen : utf8ByteLength b = (b :: rest).length := h.byteLength
  unfold Editor.byte
  split
  next hascii =>
    have hone : utf8ByteLength b = 1 := (isChar_of_ascii hascii.1 hascii.2).byteLength
    obtain rfl : rest = [] := List.length_eq_zero_iff.1 (by rw [hone, List.length_cons] at hlen; omega)
    show (inputAppendAscii e.input b).2 = _
    unfold inputAppendAscii
    rw [if_neg]
    rw [not_or, UInt8.not_lt, UInt8.not_le]
    exact hascii
  next hascii =>
    rw [if_pos (high_of_not_ascii hb hascii)]
    dsimp only
    rw [if_neg (by rw [hlen, List.length_cons]; exact fun h => h rfl), hlen,
      if_neg (by rw [show utf8IsValidSequence (b :: rest) (b :: rest).length = true from h]; decide)]
    exact congrArg Prod.snd (appendUtf8Sequence_isChar h)

/-- Another one puts nothing in. -/
theorem byte_not_isChar (e : Editor MAX_MESSAGE_LEN) {b : UInt8} {rest : Bytes}
    (hfits : rest.length ≤ utf8ByteLength b - 1)
    (h : ¬ IsChar (b :: rest)) : (e.byte b rest).input = e.input := by
  have hpos := (utf8ByteLength_pos b).1
  unfold Editor.byte
  split
  next hascii =>
    have hone : utf8ByteLength b = 1 := (isChar_of_ascii hascii.1 hascii.2).byteLength
    obtain rfl : rest = [] := List.length_eq_zero_iff.1 (by omega)
    exact absurd (isChar_of_ascii hascii.1 hascii.2) h
  split
  · dsimp only
    split
    · rfl
    next hlen =>
      have hseq : utf8ByteLength b = (b :: rest).length := by
        rw [List.length_cons]
        omega
      rw [if_pos]
      rw [hseq, Bool.not_eq_true', Bool.eq_false_iff]
      exact h
  · rfl

theorem plain_typedText (ks : List Keystroke) : Plain (typedText ks) := by
  intro b hb
  obtain ⟨k, -, hb⟩ := List.mem_flatMap.1 hb
  exact k.plain b hb

theorem typedText_append (ks ks' : List Keystroke) : typedText (ks ++ ks') = typedText ks ++ typedText ks' :=
  List.flatMap_append

theorem typedText_cons (k : Keystroke) (ks : List Keystroke) : typedText (k :: ks) = k.bytes ++ typedText ks :=
  List.flatMap_cons

theorem typing_concat (e : Editor MAX_MESSAGE_LEN) (ks : List Keystroke) (k : Keystroke) :
    typing e (ks ++ [k]) = (typing e ks).byte k.byte k.rest := List.foldl_concat ..

/-- Some keystroke reads the byte at a position of the text. -/
theorem exists_keystroke {ks : List Keystroke} {n : Nat} (hn : 0 < n) (h : n ≤ (typedText ks).length) :
    ∃ front k behind, ks = front ++ k :: behind ∧ (typedText front).length < n ∧
      n ≤ (typedText front).length + k.bytes.length := by
  induction ks generalizing n with
  | nil => exact absurd hn (Nat.not_lt.2 h)
  | cons k ks ih =>
    by_cases hfirst : n ≤ k.bytes.length
    · exact ⟨[], k, ks, rfl, hn, by simpa [typedText] using hfirst⟩
    · rw [typedText_cons, List.length_append] at h
      obtain ⟨front, k', behind, rfl, hlt, hle⟩ := @ih (n - k.bytes.length) (by omega) (by omega)
      refine ⟨k :: front, k', behind, rfl, ?_, ?_⟩ <;> rw [typedText_cons, List.length_append] <;> omega

/-- There is one such keystroke. -/
theorem keystroke_unique {front behind front' behind' : List Keystroke} {k k' : Keystroke}
    (h : front ++ k :: behind = front' ++ k' :: behind')
    (hlt : (typedText front).length < (typedText front').length + k'.bytes.length)
    (hle : (typedText front').length + k'.bytes.length ≤ (typedText front).length + k.bytes.length) : k = k' := by
  have hpos : 0 < k'.bytes.length := Nat.zero_lt_succ _
  obtain ⟨t, rfl, ht⟩ | ⟨t, rfl, ht⟩ := List.append_eq_append_iff.1 h
  · cases t with
    | nil => exact (List.cons.inj ht).1
    | cons d t =>
      obtain rfl : k = d := (List.cons.inj ht).1
      rw [typedText_append, typedText_cons, List.length_append, List.length_append] at hle
      omega
  · cases t with
    | nil => exact (List.cons.inj ht).1.symm
    | cons d t =>
      obtain rfl : k' = d := (List.cons.inj ht).1
      rw [typedText_append, typedText_cons, List.length_append, List.length_append] at hlt
      omega

/-- Every character of the text for which there is room when it comes is read as one: its first byte by itself, and
the others by the read behind it. -/
def ReadWhole (input : CBuf MAX_MESSAGE_LEN) (ks : List Keystroke) : Prop :=
  ∀ u c v, typedText ks = u ++ (c ++ v) → IsChar c →
    (pasteBytes input .reset u).1.bytes.length + c.length < MAX_MESSAGE_LEN →
    ∃ front k behind, ks = front ++ k :: behind ∧ typedText front = u ∧ k.bytes = c

section Same
variable {e : Editor MAX_MESSAGE_LEN} {ks : List Keystroke}

/-- Where the characters are read whole, typing comes to the same as a paste. -/
theorem typing_eq_of_readWhole (h : ReadWhole e.input ks) {front : List Keystroke} (hfront : front <+: ks) :
    (typing e front).input = (pasteBytes e.input .reset (typedText front)).1 := by
  induction front using List.reverseRecOn with
  | nil => rfl
  | append_singleton front k ih =>
    obtain ⟨behind, rfl⟩ := hfront
    have htyped := ih ((List.prefix_append front [k]).trans (List.prefix_append _ behind))
    have hk := k.plain k.byte List.mem_cons_self
    have htext : typedText (front ++ [k]) = typedText front ++ k.bytes := by
      rw [typedText_append, typedText_cons]
      exact congrArg (typedText front ++ ·) (List.append_nil _)
    rw [typing_concat, htext]
    by_cases hchar : IsChar k.bytes
    · rw [byte_isChar _ hk hchar, htyped, pasteBytes_append,
        (pasteBytes_isChar (streamed e.input (plain_typedText front)).pending hchar k.plain_bytes).1]
      rfl
    · rw [byte_not_isChar _ k.fits hchar, htyped]
      -- A change would be a character that the keystroke did not read as one.
      by_contra hchange
      obtain ⟨u, c, v, huc, hc, hlen, hroom⟩ :=
        exists_isChar_of_changed (plain_typedText front) k.plain_bytes (Ne.symm hchange)
      have hwhole : typedText (front ++ [k] ++ behind) = u ++ (c ++ (v ++ typedText behind)) := by
        rw [typedText_append, htext, huc]
        simp only [List.append_assoc]
      obtain ⟨front', k', behind', hks, rfl, rfl⟩ := h u c _ hwhole hc hroom
      have hend := congrArg List.length huc
      simp only [List.length_append] at hend
      rw [List.append_assoc, List.singleton_append] at hks
      obtain rfl := keystroke_unique hks hlen (by omega)
      exact hchar hc

/-- The other way round, a character that is not read whole makes a difference when it is complete. -/
theorem readWhole_of_typing_eq
    (h : ∀ front, front <+: ks → (typing e front).input = (pasteBytes e.input .reset (typedText front)).1) :
    ReadWhole e.input ks := by
  intro u c v htext hc hroom
  have hplain := plain_typedText ks
  rw [htext] at hplain
  obtain ⟨hu, hcv⟩ := plain_append.1 hplain
  have hpos := hc.length.1
  obtain ⟨front, k, behind, rfl, hlt, hle⟩ := @exists_keystroke ks (u.length + c.length) (by omega)
    (by rw [htext, List.length_append, List.length_append]; omega)
  have hk := k.plain k.byte List.mem_cons_self
  have hsplit : typedText front ++ (k.bytes ++ typedText behind) = u ++ (c ++ v) := by
    rw [← htext, typedText_append, typedText_cons]
  have hkText : typedText (front ++ [k]) = typedText front ++ k.bytes := by
    rw [typedText_append, typedText_cons]
    exact congrArg (typedText front ++ ·) (List.append_nil _)
  -- In front of the keystroke the character is not in, and behind it it is.
  have hbefore := @length_front_le e.input _ _ _ _ hplain ⟨_, hsplit⟩ hlt hc
  have hafter : (pasteBytes e.input .reset u).1.bytes.length + c.length ≤
      (pasteBytes e.input .reset (typedText front ++ k.bytes)).1.bytes.length := by
    have hin : u ++ c <+: typedText front ++ k.bytes :=
      List.prefix_of_prefix_length_le ⟨v, by rw [List.append_assoc]⟩
        ⟨typedText behind, by rw [List.append_assoc, hsplit]⟩
        (by simpa only [List.length_append] using hle)
    obtain ⟨t, ht⟩ := hin
    have hgrow := @length_streamed_le e.input _ _ (plain_append.2 ⟨hu, (plain_append.1 hcv).1⟩)
      (plain_append.1 (ht ▸ plain_append.2 ⟨plain_typedText front, k.plain_bytes⟩ : Plain (u ++ c ++ t))).2
    rw [ht, pasteBytes_append _ _ u, (pasteBytes_isChar (streamed e.input hu).pending hc (plain_append.1 hcv).1).1,
      appendBytes_bytes hc.zero_notMem, if_pos hroom, List.length_append] at hgrow
    exact hgrow
  have hchar : IsChar k.bytes := by
    by_contra hnot
    have htyped := h (front ++ [k]) ⟨behind, by simp⟩
    rw [typing_concat, byte_not_isChar _ k.fits hnot, h front (List.prefix_append front _), hkText] at htyped
    rw [← htyped] at hafter
    omega
  obtain ⟨hstart, hbytes⟩ := isChar_aligned hchar hc hsplit (by omega) hlt
  exact ⟨front, k, behind, rfl, hstart, hbytes⟩

end Same

/-- Typing leaves what a paste of the same bytes leaves, whenever the session waits for a key, if and only if every
character for which there is room is read whole. -/
theorem typing_iff (e : Editor MAX_MESSAGE_LEN) (ks : List Keystroke) :
    (∀ front, front <+: ks → ∃ s, exec insertStep ⟨true, .key, e⟩ (front.flatMap Keystroke.reads) = some s ∧
      s.awaits = .key ∧ s.editor.input = (pasteBytes e.input .reset (typedText front)).1) ↔ ReadWhole e.input ks := by
  constructor
  · intro h
    apply readWhole_of_typing_eq
    intro front hfront
    obtain ⟨s, hs, -, hinput⟩ := h front hfront
    rw [exec_typing] at hs
    cases hs
    exact hinput
  · intro h front hfront
    exact ⟨_, exec_typing e front, rfl, typing_eq_of_readWhole h hfront⟩

/-- The character U+4E2D, with the bytes behind its first one in one read or in two. -/
def readAtOnce : List Keystroke := [⟨0xE4, [0xB8, 0xAD], by simp, by decide⟩]

def readInTwo : List Keystroke := [⟨0xE4, [0xB8], by simp, by decide⟩, ⟨0xAD, [], by simp, by decide⟩]

/-- The same bytes leave the character or nothing, as the channel gives them. -/
theorem typing_splits :
    typedText readAtOnce = typedText readInTwo ∧
      exec insertStep (.init false) (readAtOnce.flatMap Keystroke.reads) =
        some ⟨true, .key, ⟨CBuf.copy _ [0xE4, 0xB8, 0xAD], [], 0⟩⟩ ∧
      exec insertStep (.init false) (readInTwo.flatMap Keystroke.reads) = some (.init false) ∧
      (pasteBytes (CBuf.copy _ []) .reset (typedText readInTwo)).1.bytes = [0xE4, 0xB8, 0xAD] :=
  ⟨rfl, rfl, rfl, by decide⟩

end Tnt
