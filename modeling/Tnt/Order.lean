import Tnt.Board
import Tnt.Replay
/-!
# The order of the log and of the room

A publication is saved under one lock and shown under another, chat in this order
and notices in the other one, so that two publications at a time can end up in the
log in one order and in the room in the other (`orders_differ`). `log_and_room`
says what the two have in common as long as every save is appended.
-/
open BaseLib

namespace Tnt

/-- What was saved, in the order of the log. -/
def Board.saved (b : Board) : List Message := (Jobs.took .save b.pubs.history).map (·.2.msg)

/-- What was shown, in the order of the room. -/
def Board.shown (b : Board) : List Message := (Jobs.took .broadcast b.pubs.history).map (·.2.msg)

/-- The records of some messages, one behind the other. -/
def recordsText (ms : List Message) : Bytes := ms.flatMap fun m => recordText (safeMsg m)

/-- A save returns 0 and appends its record, and the log is not moved away; the server runs on. -/
def KeepsLog (b : Board) : BoardEvent → Prop
  | .save id env => ∀ j ∈ b.pubs.next id .save, messageSave j.info.msg env b.dir =
      (0, { b.dir with log := some (b.dir.contents ++ recordText (safeMsg j.info.msg)) })
  | .restart _ => False
  | _ => True

/-- No publication starts while another one is in progress. -/
def OneAtATime (b : Board) : BoardEvent → Prop
  | .start _ _ _ => b.pubs.AllDone
  | _ => True

instance (b : Board) : (e : BoardEvent) → Decidable (KeepsLog b e)
  | .save _ _ => inferInstanceAs (Decidable (∀ j ∈ _, _ = _))
  | .restart _ => inferInstanceAs (Decidable False)
  | .start _ _ _ | .broadcast _ | .notify _ | .enqueue _ _ | .dequeue => inferInstanceAs (Decidable True)

instance (b : Board) : (e : BoardEvent) → Decidable (OneAtATime b e)
  | .start _ _ _ => inferInstanceAs (Decidable b.pubs.AllDone)
  | .save _ _ | .broadcast _ | .notify _ | .enqueue _ _ | .dequeue | .restart _ => inferInstanceAs (Decidable True)

/-- Every line of the log holds a record, before and after a restart. -/
def Readable (now now' : Int) (dir : LogDir) : Prop :=
  ∀ line ∈ fileLines dir.contents, exposedRecord now' line = exposedRecord now line ∧ exposedRecord now line ≠ none

/-- The record of the message can be replayed. -/
def Recorded (now : Int) (m : Message) : Prop := FourDigitYear m.timestamp ∧ Replayable now (safeMsg m)

instance (now : Int) (m : Message) : Decidable (Recorded now m) :=
  decidable_of_iff _ (and_congr_right fun _ => replayable_safeMsg.symm)

/-! ## The log -/

theorem rtake_append_rtake {α : Type*} (a b : List α) (n : Nat) : (a.rtake n ++ b).rtake n = (a ++ b).rtake n := by
  simp only [List.rtake, List.length_append, List.length_drop, List.drop_append, List.drop_drop]
  congr 2 <;> omega

theorem recordsText_concat (ms : List Message) (m : Message) :
    recordsText (ms ++ [m]) = recordsText ms ++ recordText (safeMsg m) := by
  simp [recordsText]

variable {now now' : Int}

/-- The lines of saved messages are their records. -/
theorem fileLines_recordsText (ms : List Message) :
    fileLines (recordsText ms) = ms.map fun m => recordText (safeMsg m) := by
  induction ms with
  | nil => rfl
  | cons m ms ih =>
    obtain ⟨body, hbody, hnl, -⟩ := recordText_safeMsg m
    rw [fileLines] at ih ⊢
    rw [List.map_cons, ← ih, recordsText, List.flatMap_cons, hbody, List.append_assoc, List.singleton_append,
      lines_line hnl]
    rfl

theorem acceptedRecords_recorded {m : Message} (h : Recorded now m) :
    acceptedRecords now (recordText (safeMsg m)) = [safeMsg m] := by
  rw [acceptedRecords_saved h.1, parse_recordText (m := safeMsg m) h.1 h.2]
  rfl

theorem acceptedRecords_recordsText {ms : List Message} (hms : ∀ m ∈ ms, Recorded now m) :
    acceptedRecords now (recordsText ms) = ms.map safeMsg := by
  rw [acceptedRecords_flatMap, fileLines_recordsText, List.flatMap_map, List.map_eq_flatMap]
  exact List.flatMap_congr fun m hm => acceptedRecords_recorded (hms m hm)

/-- A log whose lines all hold records ends in a newline. -/
theorem Readable.finished {dir : LogDir} (h : Readable now now' dir) :
    dir.contents = [] ∨ ∃ body, dir.contents = body ++ [newline] := by
  have hlast : lastLine dir.contents = [] := by
    by_contra hne
    have hmem := lastLine_mem hne
    have hnone := acceptedRecords_exposed now hmem
    rw [acceptedRecords_no_newline (newline_notMem_lastLine _)] at hnone
    exact (h _ hmem).2 (Option.toList_eq_nil_iff.1 hnone.symm)
  rcases lastLine_cases dir.contents with hfile | ⟨a, hfile⟩
  · exact .inl (hfile.trans hlast)
  · exact .inr ⟨a, by rw [← hlast]; exact hfile⟩

/-- Behind lines that all hold records, and with records behind them, replay takes the last records. -/
theorem messageLoad_recordsText {dir dir' : LogDir} (hold : Readable now now' dir) {ms : List Message}
    (hms : ∀ m ∈ ms, Recorded now' m) (hdir : dir'.contents = dir.contents ++ recordsText ms) :
    messageLoad dir' MAX_MESSAGES now' =
      (messageLoad dir MAX_MESSAGES now ++ ms.map safeMsg).rtake MAX_MESSAGES := by
  have hlines : fileLines dir'.contents = fileLines dir.contents ++ ms.map fun m => recordText (safeMsg m) := by
    rw [hdir, ← fileLines_recordsText]
    exact lines_append hold.finished _
  have hread {now : Int} {dir : LogDir} (h : ∀ line ∈ fileLines dir.contents, exposedRecord now line ≠ none) :
      messageLoad dir MAX_MESSAGES now = (acceptedRecords now dir.contents).rtake MAX_MESSAGES :=
    (messageLoad_rtake_iff dir (by decide) now).2 (.inr fun line hline => h line (List.mem_of_mem_drop hline))
  have hall : ∀ line ∈ fileLines dir'.contents, exposedRecord now' line ≠ none := by
    intro line hline
    rw [hlines] at hline
    rcases List.mem_append.1 hline with hline | hline
    · rw [(hold line hline).1]
      exact (hold line hline).2
    · obtain ⟨m, hm, rfl⟩ := List.mem_map.1 hline
      have hrecord := acceptedRecords_exposed now' (fileLines_recordsText ms ▸ hline)
      rw [acceptedRecords_recorded (hms m hm)] at hrecord
      simp [Option.toList_eq_singleton_iff.1 hrecord.symm]
  have hsame : (fileLines dir.contents).flatMap (acceptedRecords now') =
      (fileLines dir.contents).flatMap (acceptedRecords now) := by
    apply List.flatMap_congr
    intro line hline
    rw [acceptedRecords_exposed _ hline, acceptedRecords_exposed _ hline, (hold line hline).1]
  have hold' : acceptedRecords now' dir.contents = acceptedRecords now dir.contents := by
    rw [acceptedRecords_flatMap, hsame, ← acceptedRecords_flatMap]
  rw [hread hall, hread fun line hline => (hold line hline).2, rtake_append_rtake, hdir,
    acceptedRecords_append_finished now' hold.finished, hold', acceptedRecords_recordsText hms]

/-! ## Runs -/

variable {charSigned running : Bool} {dir : LogDir} {b b' : Board} {e : BoardEvent}

/-- What a run keeps whose saves are all appended, from the log `dir` on. -/
structure OrderInv (charSigned : Bool) (dir : LogDir) (now : Int) (b : Board) : Prop where
  board : BoardInv charSigned b
  log : b.dir.contents = dir.contents ++ recordsText b.saved
  loaded : b.loaded = messageLoad dir MAX_MESSAGES now
  unfailed : ∀ x ∈ b.pubs.history, ∀ k, x.outcome ≠ .failed k

theorem orderInv_create (charSigned : Bool) (dir : LogDir) (now : Int) :
    OrderInv charSigned dir now (.create dir now) where
  board := boardInv_create charSigned dir now
  log := (List.append_nil _).symm
  loaded := rfl
  unfailed x hx := by cases hx

theorem orderInv_step (hi : OrderInv charSigned dir now b) (hk : KeepsLog b e)
    (h : boardStep charSigned running b e = some b') : OrderInv charSigned dir now b' := by
  have hboard := boardInv_step hi.board h
  obtain ⟨-, hlog, hloaded, hunfailed⟩ := hi
  have hdone {x : Entry Publication PubStep} {l : PubStep} (hx : x.outcome = .done l) :
      ∀ y ∈ b.pubs.history ++ [x], ∀ k, y.outcome ≠ .failed k := by
    intro y hy k
    rcases List.mem_append.1 hy with hy | hy
    · exact hunfailed y hy k
    · rw [List.mem_singleton.1 hy, hx]
      exact fun h => by cases h
  have hsame {x : Entry Publication PubStep} (hx : x.outcome ≠ .done .save) : b.dir.contents =
      dir.contents ++ recordsText ((Jobs.took .save (b.pubs.history ++ [x])).map (·.2.msg)) := by
    rw [Jobs.took_concat_ne _ hx]
    exact hlog
  cases boardStep_effect h with
  | started => exact ⟨hboard, hsame (by simp), hloaded, hdone rfl⟩
  | @saved id env j dir' hj hs =>
    obtain ⟨-, rfl⟩ := Prod.mk.inj (hs.symm.trans (hk j hj))
    refine ⟨hboard, ?_, hloaded, hdone rfl⟩
    have hmore : Board.saved { b with pubs := b.pubs.take id j .save } = b.saved ++ [j.info.msg] := by
      simp only [Board.saved, Jobs.take, Jobs.took_concat, List.map_append, List.map_cons, List.map_nil]
    show b.dir.contents ++ recordText (safeMsg j.info.msg) = _
    rw [hlog, List.append_assoc, ← recordsText_concat, ← hmore]
    rfl
  | unsaved hj hrc hs => exact absurd (Prod.mk.inj (hs.symm.trans (hk _ hj))).1 hrc
  | shown => exact ⟨hboard, hsame (by simp), hloaded, hdone rfl⟩
  | passed hk' => exact ⟨hboard, hsame (by rcases hk' with rfl | rfl <;> simp), hloaded, hdone rfl⟩
  | dequeued => exact ⟨hboard, hlog, hloaded, hunfailed⟩
  | restarted => exact absurd hk id

theorem sequential_step (hi : BoardInv charSigned b) (hs : Jobs.Sequential b.pubs) (hk : KeepsLog b e)
    (ho : OneAtATime b e) (h : boardStep charSigned running b e = some b') : Jobs.Sequential b'.pubs := by
  have hmove {id : Nat} {k : PubStep} {j : Job Publication PubStep} (hj : b.pubs.next id k = some j)
      (o : BaseLib.Outcome PubStep) (todo : List PubStep) :
      Jobs.Sequential (⟨b.pubs.jobs.set id { j with todo := todo }, b.pubs.history ++ [⟨id, j.info, o⟩]⟩ :
        Jobs Publication PubStep) := by
    obtain ⟨hget, rest, hrest⟩ := Jobs.next_some hj
    exact hs.step hi.follows hget (by rw [hrest]; exact List.cons_ne_nil _ _) o todo
  cases boardStep_effect h with
  | started => exact hs.start hi.follows ho _ _ _
  | saved hj => exact hmove hj _ _
  | unsaved hj => exact hmove hj _ _
  | shown hj => exact hmove hj _ _
  | passed _ hj => exact hmove hj _ _
  | dequeued => exact hs
  | restarted => exact absurd hk id

/-- What the log and the room have in common. -/
structure LogAndRoom (dir : LogDir) (now : Int) (b : Board) : Prop where
  log : b.dir.contents = dir.contents ++ recordsText b.saved
  room : b.messages = (messageLoad dir MAX_MESSAGES now ++ b.shown).rtake MAX_MESSAGES
  /-- While no publication is in progress, the same messages. -/
  same : b.pubs.AllDone → b.shown.Perm b.saved
  /-- In the same order, where one publication was saved and shown before the other one started. -/
  before : ∀ pre x y post, b.pubs.history = pre ++ ⟨y.1, y.2, .done .start⟩ :: post →
    x ∈ Jobs.took .save pre → x ∈ Jobs.took .broadcast pre →
    (y ∈ Jobs.took .save b.pubs.history → [x, y].Sublist (Jobs.took .save b.pubs.history)) ∧
      (y ∈ Jobs.took .broadcast b.pubs.history → [x, y].Sublist (Jobs.took .broadcast b.pubs.history))

/-- However the steps of the publications are interleaved, the log and the room get the same messages,
and two that do not overlap in the same order. Where none overlap, all are in the same order, and
a restart shows the last of them as they were. -/
theorem log_and_room (charSigned running : Bool) (dir : LogDir) (now : Int) (es : List BoardEvent) (b : Board)
    (hk : Meets (boardStep charSigned running) KeepsLog (.create dir now) es)
    (h : exec (boardStep charSigned running) (.create dir now) es = some b) :
    LogAndRoom dir now b ∧ (Meets (boardStep charSigned running) OneAtATime (.create dir now) es → b.pubs.AllDone →
      b.shown = b.saved ∧ ∀ now', Readable now now' dir → (∀ m ∈ b.saved, Recorded now' m) →
        messageLoad b.dir MAX_MESSAGES now' =
          (messageLoad dir MAX_MESSAGES now ++ b.shown.map safeMsg).rtake MAX_MESSAGES) := by
  have hi := exec_inv_of_meets (OrderInv charSigned dir now) (fun _ _ _ hi hk h => orderInv_step hi hk h)
    (orderInv_create charSigned dir now) hk h
  have hfollows := hi.board.follows
  have hcount (p : Publication) : p.program.count .save = 1 ∧ p.program.count .broadcast = 1 := by
    obtain ⟨actor, ⟨⟨⟩⟩ | _, msg⟩ := p <;> exact ⟨rfl, rfl⟩
  have hkl (p : Publication) : p.program.count .broadcast = p.program.count .save := by
    rw [(hcount p).1, (hcount p).2]
  refine ⟨⟨hi.log, hi.loaded ▸ hi.board.shown, ?_, ?_⟩, ?_⟩
  · exact fun hd => (hfollows.took_perm hd hi.unfailed hkl).map _
  · intro pre x y post hsplit hsave hbroadcast
    have hstart : PubStep.start ∉ y.2.origin.program.tail := by
      rcases y.2.origin with ⟨⟨⟩⟩ | _ <;> simp [Origin.program]
    exact ⟨fun hy => hfollows.took_before hsplit y.2.program_eq hstart hsave hy,
      fun hy => hfollows.took_before hsplit y.2.program_eq hstart hbroadcast hy⟩
  · intro ho hd
    have hs := (exec_inv_of_meets (fun b => OrderInv charSigned dir now b ∧ Jobs.Sequential b.pubs)
      (fun _ _ _ hi hko h => ⟨orderInv_step hi.1 hko.1 h, sequential_step hi.1.board hi.2 hko.1 hko.2 h⟩)
      ⟨orderInv_create charSigned dir now, Jobs.sequential_init⟩ (hk.and ho) h).2
    have hsame : b.shown = b.saved := congrArg (List.map _) (hfollows.took_eq hs hd hi.unfailed hkl)
    refine ⟨hsame, fun now' hold hms => ?_⟩
    rw [hsame]
    exact messageLoad_recordsText hold hms hi.log

/-- Two messages at a time: ann's is saved first, bob's is shown first. -/
def crossedRun : List BoardEvent :=
  [.start (.session 0) (.chat (.post (CBuf.copy _ (lit "ann")) (lit "one"))) 1752500000,
    .start (.session 1) (.chat (.post (CBuf.copy _ (lit "bob")) (lit "two"))) 1752500000,
    .save 0 (.written true), .save 1 (.written true), .broadcast 1, .broadcast 0,
    .notify 0, .notify 1, .enqueue 0 true, .enqueue 1 true]

/-- The same two messages, one after the other. -/
def turnsRun : List BoardEvent :=
  [.start (.session 0) (.chat (.post (CBuf.copy _ (lit "ann")) (lit "one"))) 1752500000,
    .save 0 (.written true), .broadcast 0, .notify 0, .enqueue 0 true,
    .start (.session 1) (.chat (.post (CBuf.copy _ (lit "bob")) (lit "two"))) 1752500000,
    .save 1 (.written true), .broadcast 1, .notify 1, .enqueue 1 true]

def emptyDir : LogDir := ⟨none, none⟩

theorem log_and_room_turns : ∃ b,
    exec (boardStep true true) (.create emptyDir 1752500000) turnsRun = some b ∧ b.shown = b.saved ∧
      messageLoad b.dir MAX_MESSAGES 1752500000 =
        (messageLoad emptyDir MAX_MESSAGES 1752500000 ++ b.shown.map safeMsg).rtake MAX_MESSAGES := by
  have hrun : ∃ b ∈ exec (boardStep true true) (.create emptyDir 1752500000) turnsRun,
      b.pubs.AllDone ∧ ∀ m ∈ b.saved, Recorded 1752500000 m := by
    decide +kernel
  obtain ⟨b, hb, hd, hms⟩ := hrun
  obtain ⟨hsame, hload⟩ := (log_and_room true true emptyDir 1752500000 turnsRun b (by decide +kernel) hb).2
    (by decide +kernel) hd
  exact ⟨b, hb, hsame, hload 1752500000 (fun line hline => by cases hline) hms⟩

/-- The log has ann's message first and the room has bob's, and after a restart the room has ann's first. -/
theorem orders_differ : Meets (boardStep true true) KeepsLog (.create emptyDir 1752500000) crossedRun ∧
    ∃ b ∈ exec (boardStep true true) (.create emptyDir 1752500000) crossedRun,
      b.pubs.AllDone ∧ b.dir.contents = recordsText b.saved ∧ b.messages = b.shown ∧
        b.shown.map safeMsg ≠ b.saved.map safeMsg ∧
          messageLoad b.dir MAX_MESSAGES 1752500000 ≠ b.messages.map safeMsg := by
  decide +kernel

end Tnt
