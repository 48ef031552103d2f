import Tnt.EscapeKeys
import Tnt.PasteLimit
import Tnt.Typing
/-!
# The end of a bracketed paste (`input.c`)

Behind an escape inside a paste the loop reads five bytes more and compares them with the end marker. Where they are
not the end marker they are part of the paste, so an escape in the last five bytes of a paste hides the one that ends
it: `paste_ends_iff`.
-/
open BaseLib

namespace Tnt

def pasteStart : Bytes := esc :: lit "[200~"

def pasteEnd : Bytes := esc :: lit "[201~"

/-- What the drain loop hands to `tnt_input_append_stream_byte`. -/
def pasteAppended : List PasteRead → Bytes
  | [] => []
  | .byte b :: reads => b :: pasteAppended reads
  | .escape tail :: reads => if tail = lit "[201~" then [] else tail ++ pasteAppended reads

/-- The bytes that a read of the loop takes from the channel. -/
def PasteRead.raw : PasteRead → Bytes
  | byte b => [b]
  | escape tail => esc :: tail

/-- A read inside a paste that goes on behind it. -/
def PasteRead.Whole : PasteRead → Prop
  | byte b => b ≠ esc
  | escape tail => tail.length = 5 ∧ tail ≠ lit "[201~"

def rawReads (reads : List PasteRead) : Bytes := reads.flatMap PasteRead.raw

/-- How far a read of the loop goes. -/
def pasteStep (p : Bytes) : Nat := if byteAt p 0 = esc then 6 else 1

/-- Every escape that the loop reads as such has five bytes of the paste behind it. -/
def EscapesInside (text : Bytes) : Prop := ∀ c ∈ cut pasteStep text, byteAt c 0 = esc → c.length = 6

/-- The loop of `handle_key`, from the Escape key that starts the paste on: behind `[200~`. -/
def escapePaste (S : Feed UInt8) (c : S.State) : List PasteRead × S.State :=
  let c := (S.read 1 c).2
  let c := (S.read 1 c).2
  let c := (readChannelExact S 3 c).2
  pasteReads S ((S.pending c).length + 1) c

/-- What is asked of the loop, in front of `behind`: it takes `text` and the marker, and of `text` it leaves out none
but escapes; a text in UTF-8 goes into `input` as if it were streamed byte for byte. -/
structure PasteTaken (input : CBuf MAX_MESSAGE_LEN) (text behind : Bytes) (reads : List PasteRead) (left : Bytes) :
    Prop where
  left : left = behind
  sublist : (pasteAppended reads).Sublist text
  appended : (pasteAppended reads).filter (· ≠ esc) = text.filter (· ≠ esc)
  streamed : utf8IsValidString text = true →
    (pasteBytes input .reset (pasteAppended reads)).1 = (pasteBytes input .reset text).1

/-! ## What is appended -/

theorem pasteLoop_eq (input : CBuf MAX_MESSAGE_LEN) (state : Utf8State) (reads : List PasteRead) :
    pasteLoop input state reads = (pasteBytes input state (pasteAppended reads)).1 := by
  induction reads generalizing input state with
  | nil => rfl
  | cons read reads ih =>
    cases read with
    | byte b =>
      rw [pasteLoop, pasteAppended, pasteBytes_cons]
      exact ih _ _
    | escape tail =>
      rw [pasteLoop, pasteAppended]
      split
      · rfl
      · rw [pasteBytes_append]
        exact ih _ _

theorem pasteBytes_eq (input : CBuf MAX_MESSAGE_LEN) (state : Utf8State) (bytes : Bytes) :
    pasteBytes input state bytes = (pasteStream input state bytes).2 := by
  induction bytes generalizing input state with
  | nil => rfl
  | cons b bytes ih =>
    rw [pasteBytes_cons, ih]
    rfl

/-- Nothing is pending behind valid text. -/
theorem pasteBytes_valid (input : CBuf MAX_MESSAGE_LEN) {text : Bytes} (h : utf8IsValidString text = true) :
    (pasteBytes input .reset text).2 = .reset := by
  obtain ⟨cs, rfl, hcs⟩ := (valid_iff text).1 h
  rw [pasteBytes_eq]
  clear h
  induction cs generalizing input with
  | nil => rfl
  | cons c cs ih =>
    rw [List.flatten_cons, pasteStream_append, pasteStream_isChar (hcs c List.mem_cons_self)]
    exact ih _ fun d hd => hcs d (List.mem_cons_of_mem _ hd)

/-- An escape between characters changes nothing. -/
theorem pasteBytes_skip (input : CBuf MAX_MESSAGE_LEN) {front : Bytes} (h : utf8IsValidString front = true)
    (behind : Bytes) :
    pasteBytes input .reset (front ++ esc :: behind) = pasteBytes input .reset (front ++ behind) := by
  rw [pasteBytes_append, pasteBytes_append, pasteBytes_valid input h, pasteBytes_cons]
  rfl

theorem pasteAppended_cons {read : PasteRead} (h : read.Whole) (reads : List PasteRead) :
    pasteAppended (read :: reads) = pasteAppended [read] ++ pasteAppended reads := by
  cases read with
  | byte b => rfl
  | escape tail => simp [pasteAppended, h.2]

theorem rawReads_cons (read : PasteRead) (reads : List PasteRead) :
    rawReads (read :: reads) = read.raw ++ rawReads reads := List.flatMap_cons

theorem length_le_rawReads (reads : List PasteRead) : reads.length ≤ (rawReads reads).length := by
  induction reads with
  | nil => exact Nat.le_refl _
  | cons read reads ih =>
    have hpos : 0 < read.raw.length := by cases read <;> exact Nat.succ_pos _
    rw [rawReads_cons, List.length_append, List.length_cons]
    omega

/-- The marker is not appended. -/
theorem pasteAppended_end {reads : List PasteRead} (h : ∀ r ∈ reads, r.Whole) :
    pasteAppended (reads ++ [.escape (lit "[201~")]) = pasteAppended reads := by
  induction reads with
  | nil => rfl
  | cons read reads ih =>
    have hread := h read List.mem_cons_self
    rw [List.cons_append, pasteAppended_cons hread, ih fun r hr => h r (List.mem_cons_of_mem _ hr),
      ← pasteAppended_cons hread]

theorem pasteAppended_sublist (reads : List PasteRead) : (pasteAppended reads).Sublist (rawReads reads) := by
  induction reads with
  | nil => exact List.Sublist.refl _
  | cons read reads ih =>
    rw [rawReads_cons]
    cases read with
    | byte b => exact ih.cons_cons b
    | escape tail =>
      rw [pasteAppended]
      split
      · exact List.nil_sublist _
      · exact ((List.Sublist.refl tail).append ih).cons esc

theorem filter_pasteAppended {reads : List PasteRead} (h : ∀ tail, .escape tail ∈ reads → tail ≠ lit "[201~") :
    (pasteAppended reads).filter (· ≠ esc) = (rawReads reads).filter (· ≠ esc) := by
  induction reads with
  | nil => rfl
  | cons read reads ih =>
    have ih := ih fun tail ht => h tail (List.mem_cons_of_mem _ ht)
    rw [rawReads_cons, List.filter_append, ← ih]
    cases read with
    | byte b => rw [pasteAppended, ← List.singleton_append, List.filter_append]; rfl
    | escape tail =>
      rw [pasteAppended, if_neg (h tail List.mem_cons_self), List.filter_append]
      simp [PasteRead.raw]

/-- The escapes that are left out of a text stand between its characters. -/
theorem pasteBytes_pasteAppended (input : CBuf MAX_MESSAGE_LEN) {front : Bytes} {reads : List PasteRead}
    (hreads : ∀ r ∈ reads, r.Whole) (h : utf8IsValidString (front ++ rawReads reads) = true) :
    pasteBytes input .reset (front ++ pasteAppended reads) = pasteBytes input .reset (front ++ rawReads reads) := by
  induction reads generalizing front with
  | nil => rfl
  | cons read reads ih =>
    have hread := hreads read List.mem_cons_self
    have hmore : ∀ r ∈ reads, r.Whole := fun r hr => hreads r (List.mem_cons_of_mem _ hr)
    rw [rawReads_cons] at h ⊢
    rw [pasteAppended_cons hread]
    cases read with
    | byte b =>
      rw [← List.append_assoc] at h ⊢
      rw [← List.append_assoc]
      exact ih hmore h
    | escape tail =>
      have htail : pasteAppended [.escape tail] = tail := by simp [pasteAppended, hread.2]
      have hraw : PasteRead.raw (.escape tail) ++ rawReads reads = esc :: (tail ++ rawReads reads) := rfl
      rw [hraw] at h ⊢
      rw [valid_split (by decide) (by decide), Bool.and_eq_true] at h
      rw [htail, pasteBytes_skip input h.1, ← List.append_assoc, ← List.append_assoc]
      apply ih hmore
      rw [List.append_assoc, valid_append h.1]
      exact h.2

/-! ## What is read -/

section Reads
variable {S : Feed UInt8} {c c' next : S.State} {rounds : Nat} {b : UInt8} {tail : Bytes}

theorem pasteReads_byte (hread : S.read 1 c = ([b], c')) (hb : b ≠ esc) :
    pasteReads S (rounds + 1) c = (.byte b :: (pasteReads S rounds c').1, (pasteReads S rounds c').2) := by
  rw [pasteReads, hread]
  exact if_neg hb

theorem pasteReads_stray (hread : S.read 1 c = ([esc], c')) (htail : readChannelExact S 5 c' = (tail, next))
    (hmark : tail ≠ lit "[201~") :
    pasteReads S (rounds + 1) c = (.escape tail :: (pasteReads S rounds next).1, (pasteReads S rounds next).2) := by
  rw [pasteReads, hread]
  dsimp only
  rw [if_pos rfl, htail]
  exact if_neg hmark

theorem pasteReads_end (hread : S.read 1 c = ([esc], c')) (htail : readChannelExact S 5 c' = (lit "[201~", next)) :
    pasteReads S (rounds + 1) c = ([.escape (lit "[201~")], next) := by
  rw [pasteReads, hread]
  dsimp only
  rw [if_pos rfl, htail]
  rfl

/-- How the loop ends over `pending`: behind whole reads and a marker, or when nothing is left. -/
def PasteOutcome (pending : Bytes) (reads : List PasteRead) (left : Bytes) : Prop :=
  (∃ front, reads = front ++ [.escape (lit "[201~")] ∧ (∀ r ∈ front, r.Whole) ∧
      pending = rawReads front ++ (pasteEnd ++ left)) ∨
    (left = [] ∧ pending = rawReads reads ∧ ∀ tail, .escape tail ∈ reads → tail ≠ lit "[201~")

theorem PasteOutcome.byte {l left : Bytes} {reads : List PasteRead} (hb : b ≠ esc) (h : PasteOutcome l reads left) :
    PasteOutcome (b :: l) (.byte b :: reads) left := by
  rcases h with ⟨front, rfl, hwhole, rfl⟩ | ⟨rfl, rfl, htails⟩
  · refine .inl ⟨.byte b :: front, rfl, ?_, rfl⟩
    exact List.forall_mem_cons.2 ⟨hb, hwhole⟩
  · refine .inr ⟨rfl, rfl, fun tail ht => ?_⟩
    rcases List.mem_cons.1 ht with ht | ht
    · cases ht
    · exact htails tail ht

theorem PasteOutcome.stray {l left : Bytes} {reads : List PasteRead} (hmark : l.take 5 ≠ lit "[201~")
    (h : PasteOutcome (l.drop 5) reads left) : PasteOutcome (esc :: l) (.escape (l.take 5) :: reads) left := by
  rcases h with ⟨front, rfl, hwhole, hpending⟩ | ⟨rfl, hall, htails⟩
  · -- The marker is behind this read, so there were five bytes for it.
    have hlong : 5 ≤ l.length := by
      have hlen := congrArg List.length hpending
      rw [List.length_drop, List.length_append, List.length_append] at hlen
      have hmarker : pasteEnd.length = 6 := rfl
      omega
    refine .inl ⟨.escape (l.take 5) :: front, rfl, ?_, ?_⟩
    · exact List.forall_mem_cons.2 ⟨⟨by rw [List.length_take, Nat.min_eq_left hlong], hmark⟩, hwhole⟩
    · rw [rawReads_cons, List.append_assoc, ← hpending, PasteRead.raw, List.cons_append, List.take_append_drop]
  · refine .inr ⟨rfl, ?_, fun tail ht => ?_⟩
    · rw [rawReads_cons, ← hall, PasteRead.raw, List.cons_append, List.take_append_drop]
    · rcases List.mem_cons.1 ht with ht | ht
      · rw [PasteRead.escape.inj ht]
        exact hmark
      · exact htails tail ht

theorem pasteReads_outcome (hrounds : (S.pending c).length < rounds) :
    PasteOutcome (S.pending c) (pasteReads S rounds c).1 (S.pending (pasteReads S rounds c).2) := by
  induction rounds generalizing c with
  | zero => omega
  | succ rounds ih =>
    cases hc : S.pending c with
    | nil =>
      obtain ⟨c', hread, hleft⟩ := S.read_empty hc 1
      rw [pasteReads, hread]
      exact .inr ⟨hleft, rfl, fun tail ht => absurd ht List.not_mem_nil⟩
    | cons b l =>
      obtain ⟨c', hread, rfl⟩ := S.read_one hc
      rw [hc, List.length_cons] at hrounds
      by_cases hb : b = esc
      · subst hb
        obtain ⟨next, htail, hrest⟩ := S.readExactly_eq 5 c'
        by_cases hmark : (S.pending c').take 5 = lit "[201~"
        · rw [hmark] at htail
          rw [pasteReads_end hread htail]
          refine .inl ⟨[], rfl, fun r hr => absurd hr List.not_mem_nil, ?_⟩
          rw [← List.take_append_drop 5 (S.pending c'), hmark, hrest]
          rfl
        · rw [pasteReads_stray hread htail hmark]
          apply PasteOutcome.stray hmark
          rw [← hrest]
          exact ih (by rw [hrest, List.length_drop]; omega)
      · rw [pasteReads_byte hread hb]
        exact (ih (by omega)).byte hb

/-- Whole reads and a marker are read as such, whatever is behind them. -/
theorem pasteReads_marker {reads : List PasteRead} (h : ∀ r ∈ reads, r.Whole) (hrounds : reads.length < rounds)
    {behind : Bytes} (hc : S.pending c = rawReads reads ++ (pasteEnd ++ behind)) :
    ∃ c', pasteReads S rounds c = (reads ++ [.escape (lit "[201~")], c') ∧ S.pending c' = behind := by
  induction reads generalizing rounds c with
  | nil =>
    obtain ⟨rounds, rfl⟩ := Nat.exists_eq_add_one_of_ne_zero (Nat.ne_of_gt (Nat.zero_lt_of_lt hrounds))
    obtain ⟨c', hread, hleft⟩ := S.read_one hc
    obtain ⟨next, htail, hend⟩ := S.readExactly_eq 5 c'
    rw [hleft] at htail hend
    exact ⟨next, pasteReads_end hread htail, hend⟩
  | cons read reads ih =>
    obtain ⟨hwhole, hmore⟩ := List.forall_mem_cons.1 h
    obtain ⟨rounds, rfl⟩ := Nat.exists_eq_add_one_of_ne_zero (Nat.ne_of_gt (Nat.zero_lt_of_lt hrounds))
    rw [List.length_cons, Nat.add_lt_add_iff_right] at hrounds
    rw [rawReads_cons, List.append_assoc] at hc
    cases read with
    | byte b =>
      obtain ⟨c', hread, hleft⟩ := S.read_one hc
      obtain ⟨next, hloop, hend⟩ := ih hmore hrounds hleft
      refine ⟨next, ?_, hend⟩
      rw [pasteReads_byte hread hwhole, hloop]
      rfl
    | escape tail =>
      obtain ⟨c', hread, hleft⟩ := S.read_one hc
      obtain ⟨next, htail, hrest⟩ := S.readExactly_eq 5 c'
      have hsplit : S.pending c' = tail ++ (rawReads reads ++ (pasteEnd ++ behind)) := hleft
      rw [hsplit, List.take_left' hwhole.1] at htail
      rw [hsplit, List.drop_left' hwhole.1] at hrest
      obtain ⟨last, hloop, hend⟩ := ih hmore hrounds hrest
      refine ⟨last, ?_, hend⟩
      rw [pasteReads_stray hread htail hwhole.2, hloop]
      rfl

end Reads

/-- A read is one of the blocks that `pasteStep` cuts. -/
theorem pasteStep_raw {read : PasteRead} (h : read.Whole) (l : Bytes) :
    read.raw ≠ [] ∧ blockLen pasteStep (read.raw ++ l) = read.raw.length := by
  cases read with
  | byte b =>
    have hb : byteAt ([b] ++ l) 0 ≠ esc := h
    refine ⟨List.cons_ne_nil _ _, ?_⟩
    rw [PasteRead.raw, blockLen, pasteStep, if_neg hb]
    rfl
  | escape tail =>
    have hb : byteAt (esc :: tail ++ l) 0 = esc := rfl
    refine ⟨List.cons_ne_nil _ _, ?_⟩
    rw [PasteRead.raw, blockLen, pasteStep, if_pos hb, List.length_cons, h.1]
    rfl

/-- The read of a block. -/
def readOf (c : Bytes) : PasteRead := if byteAt c 0 = esc then .escape c.tail else .byte (byteAt c 0)

/-- A block of a text is a whole read where its escape is inside the text. -/
theorem readOf_whole {text c : Bytes} (hmarker : ¬ pasteEnd <:+: text) (h : EscapesInside text)
    (hc : c ∈ cut pasteStep text) : (readOf c).Whole ∧ (readOf c).raw = c := by
  obtain ⟨x, tail, rfl⟩ := List.exists_cons_of_ne_nil (ne_nil_of_mem_cut hc)
  have hbyte : byteAt (x :: tail) 0 = x := rfl
  rw [readOf, hbyte]
  by_cases hesc : x = esc
  · subst hesc
    have hlen := h _ hc rfl
    rw [if_pos rfl]
    refine ⟨⟨by simpa using hlen, fun heq => hmarker ?_⟩, rfl⟩
    have hinfix := List.infix_of_mem_flatten hc
    rw [List.tail_cons] at heq
    rwa [cut_flatten, heq] at hinfix
  · -- Any other byte is a block of its own.
    obtain ⟨p, hp, hblock⟩ := mem_cut hc
    have hfirst : byteAt p 0 = x := by
      rw [← byteAt_take (blockLen_pos p), ← hblock]
      rfl
    have hone : blockLen pasteStep p = 1 := by
      rw [blockLen, pasteStep, hfirst, if_neg hesc]
      rfl
    have hlen := congrArg List.length hblock
    rw [hone, List.length_take, List.length_cons] at hlen
    obtain rfl : tail = [] := List.length_eq_zero_iff.1 (by omega)
    rw [if_neg hesc]
    exact ⟨hesc, rfl⟩

/-- Whole reads are the blocks of their bytes. -/
theorem cut_rawReads {reads : List PasteRead} (h : ∀ r ∈ reads, r.Whole) :
    cut pasteStep (rawReads reads) = reads.map PasteRead.raw := by
  rw [rawReads, List.flatMap_def]
  refine cut_flatten_eq (P := fun c => ∃ r : PasteRead, r.Whole ∧ r.raw = c) ?_ _ fun c hc => ?_
  · rintro _ l ⟨r, hr, rfl⟩
    exact pasteStep_raw hr l
  · obtain ⟨r, hr, rfl⟩ := List.mem_map.1 hc
    exact ⟨r, h r hr, rfl⟩

/-- The escapes of a text are inside it exactly where it is made of whole reads. -/
theorem escapesInside_iff {text : Bytes} (hmarker : ¬ pasteEnd <:+: text) :
    EscapesInside text ↔ ∃ reads : List PasteRead, (∀ r ∈ reads, r.Whole) ∧ rawReads reads = text := by
  constructor
  · intro h
    refine ⟨(cut pasteStep text).map readOf, fun r hr => ?_, ?_⟩
    · obtain ⟨c, hc, rfl⟩ := List.mem_map.1 hr
      exact (readOf_whole hmarker h hc).1
    · have hmap : ((cut pasteStep text).map readOf).map PasteRead.raw = cut pasteStep text := by
        rw [List.map_map]
        exact (List.map_congr_left fun c hc => (readOf_whole hmarker h hc).2).trans (List.map_id _)
      rw [rawReads, List.flatMap_def, hmap, cut_flatten]
  · rintro ⟨reads, hwhole, rfl⟩ c hc hesc
    rw [cut_rawReads hwhole] at hc
    obtain ⟨r, hr, rfl⟩ := List.mem_map.1 hc
    cases r with
    | byte b => exact absurd hesc (hwhole _ hr)
    | escape tail =>
      rw [PasteRead.raw, List.length_cons, (hwhole _ hr).1]

/-! ## The paste -/

/-- The loop takes a paste exactly where its escapes are inside it. -/
theorem pasteTaken_iff {S : Feed UInt8} (input : CBuf MAX_MESSAGE_LEN) {text behind : Bytes}
    (hmarker : ¬ pasteEnd <:+: text) {c : S.State} (hc : S.pending c = text ++ (pasteEnd ++ behind)) {rounds : Nat}
    (hrounds : (S.pending c).length < rounds) :
    PasteTaken input text behind (pasteReads S rounds c).1 (S.pending (pasteReads S rounds c).2) ↔
      EscapesInside text := by
  rw [escapesInside_iff hmarker]
  constructor
  · intro h
    rcases pasteReads_outcome hrounds with ⟨reads, hreads, hwhole, hpending⟩ | ⟨hend, hall, htails⟩
    · rw [hc, h.left] at hpending
      exact ⟨reads, hwhole, (List.append_cancel_right hpending).symm⟩
    · -- The marker has been appended, too.
      have happended := h.appended
      rw [filter_pasteAppended htails, ← hall, hc, List.filter_append] at happended
      have hlen := congrArg List.length happended
      rw [List.length_append, List.filter_append, List.length_append] at hlen
      have hmark : (pasteEnd.filter (· ≠ esc)).length = 5 := by decide
      omega
  · rintro ⟨reads, hwhole, rfl⟩
    have hshort : reads.length < rounds := by
      refine Nat.lt_of_le_of_lt ?_ hrounds
      rw [hc, List.length_append]
      exact Nat.le_trans (length_le_rawReads reads) (Nat.le_add_right _ _)
    obtain ⟨c', hloop, hleft⟩ := pasteReads_marker hwhole hshort hc
    have happended := pasteAppended_end hwhole
    rw [hloop]
    dsimp only
    refine ⟨hleft, ?_, ?_, fun hvalid => ?_⟩
    · rw [happended]
      exact pasteAppended_sublist reads
    · rw [happended]
      exact filter_pasteAppended fun tail ht => (hwhole _ ht).2
    · rw [happended]
      exact congrArg Prod.fst (@pasteBytes_pasteAppended input [] reads hwhole hvalid)

/-- From the Escape key to the end marker: what `handle_key` does to the input is what the loop reads. -/
theorem handleEscape_paste {S : Feed UInt8} {visible : Nat} {s : KeyState} (hctx : s.context = some .insert) {c : S.State}
    {l : Bytes} (hc : S.pending c = lit "[200~" ++ l) :
    (∃ c₀ rounds, S.pending c₀ = l ∧ l.length < rounds ∧ escapePaste S c = pasteReads S rounds c₀) ∧
      handleEscape S visible s c =
        ({ s with editor := { s.editor with
            input := (pasteBytes s.editor.input .reset (pasteAppended (escapePaste S c).1)).1 } },
          (escapePaste S c).2) := by
  have hlit : lit "[200~" ++ l = 0x5B :: 0x32 :: ([0x30, 0x30, 0x7E] ++ l) := by
    have hbytes : lit "[200~" = [0x5B, 0x32, 0x30, 0x30, 0x7E] := by decide
    rw [hbytes]
    rfl
  have hmark : [0x30, 0x30, 0x7E] = lit "00~" := by decide
  rw [hlit] at hc
  obtain ⟨c₁, h₁, hleft₁⟩ := S.read_one hc
  obtain ⟨c₂, h₂, hleft₂⟩ := S.read_one hleft₁
  obtain ⟨c₃, h₃, hleft₃⟩ := S.readExactly_eq 3 c₂
  have hthree : ([0x30, 0x30, 0x7E] : Bytes).length = 3 := rfl
  rw [hleft₂, List.take_left' hthree] at h₃
  rw [hleft₂, List.drop_left' hthree] at hleft₃
  have hpaste : escapePaste S c = pasteReads S ((S.pending c₃).length + 1) c₃ := by
    simp only [escapePaste, h₁, h₂, readChannelExact, h₃]
  refine ⟨⟨c₃, _, hleft₃, ?_, hpaste⟩, ?_⟩
  · rw [hleft₃]
    exact Nat.lt_succ_self _
  · rw [(handleEscape_insert hctx c).2, hpaste]
    simp only [insertEscape, h₁, h₂, if_true]
    rw [if_neg (by decide), if_neg (by decide), insertPaste, readChannelExact, h₃]
    dsimp only
    rw [if_pos hmark, pasteLoop_eq]

/-- A bracketed paste ends where its marker is exactly where no escape that the loop reads as such is among the last
five bytes of the paste. -/
theorem paste_ends_iff (S : Feed UInt8) (visible : Nat) (s : KeyState) (hctx : s.context = some .insert)
    (text behind : Bytes) (hmarker : ¬ pasteEnd <:+: text) (c : S.State)
    (hc : S.pending c = lit "[200~" ++ (text ++ (pasteEnd ++ behind))) :
    handleEscape S visible s c =
        ({ s with editor := { s.editor with
            input := (pasteBytes s.editor.input .reset (pasteAppended (escapePaste S c).1)).1 } },
          (escapePaste S c).2) ∧
      (PasteTaken s.editor.input text behind (escapePaste S c).1 (S.pending (escapePaste S c).2) ↔
        EscapesInside text) := by
  obtain ⟨⟨c₀, rounds, hc₀, hrounds, hloop⟩, hkey⟩ := handleEscape_paste hctx hc
  refine ⟨hkey, ?_⟩
  rw [hloop]
  exact pasteTaken_iff s.editor.input hmarker hc₀ (by rw [hc₀]; exact hrounds)

theorem paste_ends_iff_greeting :
    PasteTaken (freshKeys .insert).editor.input (lit "hi" ++ esc :: lit "there") (lit "q")
      (escapePaste (Feed.packets UInt8) [lit "[20", lit "0~hi" ++ [esc], lit "there" ++ pasteEnd ++ lit "q"]).1
      (escapePaste (Feed.packets UInt8)
        [lit "[20", lit "0~hi" ++ [esc], lit "there" ++ pasteEnd ++ lit "q"]).2.flatten :=
  (paste_ends_iff (Feed.packets UInt8) 9 (freshKeys .insert) (by decide) (lit "hi" ++ esc :: lit "there") (lit "q")
    (by decide) [lit "[20", lit "0~hi" ++ [esc], lit "there" ++ pasteEnd ++ lit "q"] (by decide)).2.2
    (by unfold EscapesInside; decide)

/-- The escape in front of the marker hides it: all but that escape is appended, and nothing is left. -/
theorem escape_hides_the_marker : ¬ PasteTaken (freshKeys .insert).editor.input [esc] (lit "q")
    (escapePaste (Feed.packets UInt8) [lit "[200~" ++ esc :: pasteEnd ++ lit "q"]).1
    (escapePaste (Feed.packets UInt8) [lit "[200~" ++ esc :: pasteEnd ++ lit "q"]).2.flatten := by
  intro h
  exact absurd h.left (by decide)

end Tnt
