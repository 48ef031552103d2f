import Tnt.Server
import Mathlib.Algebra.BigOperators.Group.List.Basic
/-!
# Who is there (`input.c`, `commands.c`, `chat_room.c`)

A session enters the room and leaves it in one critical section, and tells of it in another; so does `:nick` with
its name. Other sessions come and go in between. `presence_told` says that the notices add up all the same: what
they tell of a name, with those that are still to be shown, is how many clients in the room have it.
-/
open BaseLib

namespace Tnt

/-- By how much a notice changes the number of clients with the name. -/
def Notice.change (name : CBuf MAX_USERNAME_LEN) : Notice → Int
  | .join username => if username = name then 1 else 0
  | .leave username => if username = name then -1 else 0
  | .nick oldName newName => (if newName = name then 1 else 0) - if oldName = name then 1 else 0

/-- What a notice tells; chat tells nothing of who is there. -/
def Origin.change (name : CBuf MAX_USERNAME_LEN) : Origin → Int
  | .chat _ => 0
  | .notice what _ => what.change name

/-- What was told by what was shown in the room. -/
def Board.told (b : Board) (name : CBuf MAX_USERNAME_LEN) : Int :=
  ((Jobs.took .broadcast b.pubs.history).map fun p => p.2.origin.change name).sum

/-- What a publication has yet to tell. -/
def untold (name : CBuf MAX_USERNAME_LEN) (j : Job Publication PubStep) : Int :=
  if .broadcast ∈ j.todo then j.info.origin.change name else 0

def Board.untold (b : Board) (name : CBuf MAX_USERNAME_LEN) : Int := (b.pubs.jobs.map (Tnt.untold name)).sum

/-- What all its notices tell, now or soon. -/
def Board.presence (b : Board) (name : CBuf MAX_USERNAME_LEN) : Int := b.told name + b.untold name

/-- How many clients in the room have the name. -/
def Server.named (s : Server) (name : CBuf MAX_USERNAME_LEN) : Int := s.roomNames.count name

/-! ## The notices -/

section Board
variable {charSigned running : Bool} {b b' : Board} {name : CBuf MAX_USERNAME_LEN}

theorem sum_map_set {α : Type*} {l : List α} {i : Nat} {x : α} (h : l[i]? = some x) (f : α → Int) (y : α) :
    ((l.set i y).map f).sum = (l.map f).sum - f x + f y := by
  obtain ⟨hi, rfl⟩ := List.getElem?_eq_some_iff.1 h
  have hl : (l.map f).sum = ((l.take i).map f).sum + (f l[i] + ((l.drop (i + 1)).map f).sum) := by
    conv_lhs => rw [← List.take_append_drop i l, List.drop_eq_getElem_cons hi]
    rw [List.map_append, List.sum_append, List.map_cons, List.sum_cons]
  rw [List.set_eq_take_append_cons_drop, if_pos hi, List.map_append, List.sum_append, List.map_cons, List.sum_cons, hl]
  omega

/-- What is left of a publication is the end of its program. -/
theorem todo_suffix (hi : BoardInv charSigned b) {id : Nat} {j : Job Publication PubStep}
    (hj : b.pubs.jobs[id]? = some j) : j.todo <:+ j.info.origin.program := by
  have hruns := hi.follows.runs id j hj
  generalize Jobs.trace id b.pubs.history = tr, j.todo = todo at hruns
  cases hruns with
  | @going pre _ hprogram => exact ⟨pre, hprogram⟩
  | aborted => exact List.nil_suffix

theorem untold_chat {j : Job Publication PubStep} {src : Source} (h : j.info.origin = .chat src) : untold name j = 0 := by
  unfold untold
  rw [h]
  split <;> rfl

theorem untold_nil {j : Job Publication PubStep} (h : j.todo = []) : untold name j = 0 := by
  unfold untold
  rw [h, if_neg List.not_mem_nil]

/-- The tail of what is left of a notice, by its head. -/
theorem notice_todo {k : PubStep} {rest : List PubStep} (h : k :: rest <:+ [PubStep.start, .broadcast, .save]) :
    k = .start ∧ rest = [.broadcast, .save] ∨ k = .broadcast ∧ rest = [.save] ∨ k = .save ∧ rest = [] := by
  rcases List.suffix_cons_iff.1 h with h | h
  · cases h
    exact .inl ⟨rfl, rfl⟩
  rcases List.suffix_cons_iff.1 h with h | h
  · cases h
    exact .inr (.inl ⟨rfl, rfl⟩)
  rcases List.suffix_cons_iff.1 h with h | h
  · cases h
    exact .inr (.inr ⟨rfl, rfl⟩)
  · cases List.suffix_nil.1 h

/-- Once it has been shown, a publication has nothing more to tell. -/
theorem untold_shown (hi : BoardInv charSigned b) {id : Nat} {j : Job Publication PubStep} {k : PubStep}
    {rest : List PubStep} (hj : b.pubs.jobs[id]? = some j) (htodo : j.todo = k :: rest) (hk : k = .broadcast ∨ k = .save) :
    untold name { j with todo := rest } = 0 := by
  cases horigin : j.info.origin with
  | chat src => exact untold_chat horigin
  | notice what lang =>
    have hsuffix := todo_suffix hi hj
    rw [horigin, htodo] at hsuffix
    rcases notice_todo hsuffix with ⟨rfl, -⟩ | ⟨-, rfl⟩ | ⟨-, rfl⟩
    · rcases hk with hk | hk <;> cases hk
    · exact if_neg (show PubStep.broadcast ∉ [PubStep.save] by decide)
    · exact if_neg List.not_mem_nil

/-- A step other than a broadcast, which leaves open whether there is one to come. -/
theorem presence_same {pubs : Jobs Publication PubStep} {id : Nat} {j : Job Publication PubStep} {todo : List PubStep}
    (hj : b.pubs.jobs[id]? = some j) (hjobs : pubs.jobs = b.pubs.jobs.set id { j with todo })
    (htook : Jobs.took .broadcast pubs.history = Jobs.took .broadcast b.pubs.history)
    (htodo : untold name { j with todo } = untold name j) (hb : b'.pubs = pubs) :
    b'.presence name = b.presence name := by
  unfold Board.presence Board.told Board.untold
  rw [hb, htook, hjobs, sum_map_set hj, htodo]
  omega

/-- No publication begins, and none is forgotten. -/
def BoardEvent.GoesOn : BoardEvent → Prop
  | .start _ _ _ | .restart _ => False
  | _ => True

/-- What the notices tell, or will, stays when no publication starts. -/
theorem boardStep_presence {be : BoardEvent} (hi : BoardInv charSigned b)
    (h : boardStep charSigned running b be = some b') (hbe : be.GoesOn) : b'.presence name = b.presence name := by
  cases boardStep_effect h with
  | started => exact hbe.elim
  | restarted now => exact hbe.elim
  | dequeued => rfl
  | @shown id j hj =>
    obtain ⟨hget, rest, htodo⟩ := Jobs.next_some hj
    have hbefore : untold name j = j.info.origin.change name := if_pos (htodo ▸ List.mem_cons_self)
    have hafter : untold name { j with todo := j.todo.tail } = 0 := by
      rw [htodo]
      exact untold_shown hi hget htodo (.inl rfl)
    unfold Board.presence Board.told Board.untold Jobs.take
    dsimp only
    rw [Jobs.took_concat, List.map_append, List.sum_append, List.map_singleton, List.sum_singleton, sum_map_set hget,
      hafter, hbefore]
    dsimp only
    omega
  | @saved id env j dir hj hsave =>
    obtain ⟨hget, rest, htodo⟩ := Jobs.next_some hj
    refine presence_same hget rfl (Jobs.took_concat_ne _ (by simp)) ?_ rfl
    unfold untold
    simp [htodo]
  | @unsaved id env j rc dir hj hrc hsave =>
    obtain ⟨hget, rest, htodo⟩ := Jobs.next_some hj
    refine presence_same hget rfl (Jobs.took_concat_ne _ (by simp)) ?_ rfl
    have hrest : untold name { j with todo := rest } = untold name j := by
      unfold untold
      simp [htodo]
    rw [untold_nil rfl, ← hrest, untold_shown hi hget htodo (.inr rfl)]
  | @passed be id j k queue hk hj =>
    obtain ⟨hget, rest, htodo⟩ := Jobs.next_some hj
    have hne : k ≠ .broadcast := by rcases hk with rfl | rfl <;> decide
    refine presence_same hget rfl (Jobs.took_concat_ne _ (by simp [hne])) ?_ rfl
    unfold untold
    simp [htodo, hne.symm]

/-- A publication that starts adds what it will tell. -/
theorem start_presence {actor : Actor} {origin : Origin} {now : Int}
    (h : boardStep charSigned running b (.start actor origin now) = some b') :
    b'.presence name = b.presence name + origin.change name := by
  simp only [boardStep, Option.ite_none_left_eq_some, Option.map_eq_some_iff] at h
  obtain ⟨-, msg, -, rfl⟩ := h
  have hnew : untold name ⟨⟨actor, origin, msg⟩, origin.program.tail⟩ = origin.change name := by
    cases origin with
    | chat src => exact untold_chat rfl
    | notice what lang => rfl
  unfold Board.presence Board.told Board.untold Jobs.start
  dsimp only
  rw [Jobs.took_concat_ne _ (by simp), List.map_append, List.sum_append, List.map_singleton, List.sum_singleton, hnew]
  omega

end Board

/-! ## The room -/

/-- Who is in the room is in it once, and is in INSERT, NORMAL or COMMAND mode. -/
structure MembersInv (s : Server) : Prop where
  nodup : s.room.Nodup
  chat : ∀ i, i ∈ s.room ↔ s.sessions[i]?.map Session.stage = some .chat

variable {cfg : ServerConfig} {s s' : Server} {i : Nat} {c c' : Session} {name : CBuf MAX_USERNAME_LEN}

/-- The session at `i` has the name. -/
def hasName (sessions : List Session) (name : CBuf MAX_USERNAME_LEN) (i : Nat) : Bool :=
  sessions[i]?.map Session.username == some name

theorem named_eq (s : Server) (name : CBuf MAX_USERNAME_LEN) :
    s.named name = s.room.countP (hasName s.sessions name) := by
  unfold Server.named Server.roomNames Server.clients hasName
  induction s.room with
  | nil => rfl
  | cons i room ih =>
    rw [List.filterMap_cons, List.countP_cons]
    cases hc : s.sessions[i]? with
    | none => simpa [hc] using ih
    | some c =>
      simp only [Option.map_some, List.map_cons, List.count_cons]
      by_cases hname : c.username = name <;> simp [hname, ih]

/-- The names stay where the sessions of the room keep theirs. -/
theorem named_congr (hroom : s'.room = s.room)
    (h : ∀ j ∈ s.room, s'.sessions[j]?.map Session.username = s.sessions[j]?.map Session.username) :
    s'.named name = s.named name := by
  rw [named_eq, named_eq, hroom]
  refine congrArg _ (List.countP_congr fun j hj => ?_)
  rw [hasName, h j hj, hasName]

/-- The client at `i`, and the others. -/
theorem countP_erase_add {room : List Nat} (h : i ∈ room) (p : Nat → Bool) :
    (room.countP p : Int) = (room.erase i).countP p + if p i then 1 else 0 := by
  rw [(List.perm_cons_erase h).countP_eq, List.countP_cons]
  split <;> simp

theorem MembersInv.congr (hi : MembersInv s) (hroom : s'.room = s.room)
    (h : ∀ j : Nat, s'.sessions[j]?.map Session.stage = s.sessions[j]?.map Session.stage) : MembersInv s' := by
  refine ⟨hroom ▸ hi.nodup, fun j => ?_⟩
  rw [hroom, h j]
  exact hi.chat j

theorem map_set_self {α : Type*} (f : Session → α) (h : s.sessions[i]? = some c) :
    (s.sessions.set i c')[i]?.map f = some (f c') := by
  rw [List.getElem?_set_self (List.getElem?_eq_some_iff.1 h).1, Option.map_some]

theorem map_set_ne {α : Type*} (f : Session → α) {j : Nat} (hj : j ≠ i) :
    (s.sessions.set i c')[j]?.map f = s.sessions[j]?.map f := by
  rw [List.getElem?_set_ne (Ne.symm hj)]

theorem map_set {α : Type*} (f : Session → α) (h : s.sessions[i]? = some c) (hf : f c' = f c) (j : Nat) :
    (s.sessions.set i c')[j]?.map f = s.sessions[j]?.map f := by
  by_cases hj : j = i
  · rw [hj, map_set_self f h, h, Option.map_some, hf]
  · exact map_set_ne f hj

theorem map_notifyMentions {α : Type*} (f : Session → α)
    (hf : ∀ c n, f { c with unreadMentions := n } = f c) (msg : Message) (sender : Actor) (room : List Nat)
    (sessions : List Session) (j : Nat) :
    (notifyMentions msg sender room sessions)[j]?.map f = sessions[j]?.map f := by
  unfold notifyMentions
  rw [List.getElem?_mapIdx, Option.map_map]
  refine congrFun (congrArg _ (funext fun c => ?_)) _
  dsimp only [Function.comp]
  split
  · exact hf c _
  · rfl

/-- What a step does to the room, and what the notice it starts, if any, will tell. -/
structure PresenceStep (s s' : Server) : Prop where
  room : MembersInv s'
  told : ∀ name, s'.named name - s.named name = s'.board.presence name - s.board.presence name

theorem presenceStep_onBoard {t : Server} {be : BoardEvent} (hi : BoardInv cfg.charSigned s.board)
    (h : t.onBoard cfg be = some s') (ht : t.board = s.board) (hroom : MembersInv t)
    (hbe : be.GoesOn) (hnamed : ∀ name, t.named name = s.named name) : PresenceStep s s' := by
  obtain ⟨b, hb, rfl⟩ := onBoard_some h
  refine ⟨⟨hroom.nodup, hroom.chat⟩, fun name => ?_⟩
  have hsame : b.presence name = s.board.presence name := boardStep_presence hi (ht ▸ hb) hbe
  have hname : Server.named { t with board := b } name = s.named name := hnamed name
  dsimp only
  omega

theorem presenceStep_start {t : Server} {actor : Actor} {origin : Origin} {now : Int}
    (h : t.onBoard cfg (.start actor origin now) = some s') (ht : t.board = s.board) (hroom : MembersInv t)
    (hnamed : ∀ name, t.named name = s.named name + origin.change name) : PresenceStep s s' := by
  obtain ⟨b, hb, rfl⟩ := onBoard_some h
  refine ⟨⟨hroom.nodup, hroom.chat⟩, fun name => ?_⟩
  have hnew : b.presence name = s.board.presence name + origin.change name := start_presence (ht ▸ hb)
  have hname : Server.named { t with board := b } name = s.named name + origin.change name := hnamed name
  dsimp only
  omega

/-- A session that keeps its name and its stage. -/
theorem setSession_room (hi : MembersInv s) (h : s.sessions[i]? = some c) (hstage : c'.stage = c.stage) :
    MembersInv (s.setSession i c') :=
  hi.congr rfl (map_set _ h hstage)

theorem setSession_named (h : s.sessions[i]? = some c) (hname : c'.username = c.username) (name : CBuf MAX_USERNAME_LEN) :
    (s.setSession i c').named name = s.named name :=
  @named_congr s (s.setSession i c') name rfl fun j _ => map_set _ h hname j

theorem presenceStep_set (hi : MembersInv s) (h : s.sessions[i]? = some c) (hname : c'.username = c.username)
    (hstage : c'.stage = c.stage) : PresenceStep s (s.setSession i c') := by
  refine ⟨setSession_room hi h hstage, fun name => ?_⟩
  rw [setSession_named h hname name]
  exact (Int.sub_self _).trans (Int.sub_self _).symm

/-- The names in a room without `i` are those they were. -/
theorem countP_others {room : List Nat} (hroom : i ∉ room) (name : CBuf MAX_USERNAME_LEN) :
    room.countP (hasName (s.sessions.set i c') name) = room.countP (hasName s.sessions name) := by
  refine List.countP_congr fun j hj => ?_
  rw [hasName, map_set_ne _ (ne_of_mem_of_not_mem hj hroom), hasName]

theorem hasName_set (h : s.sessions[i]? = some c) (name : CBuf MAX_USERNAME_LEN) :
    hasName (s.sessions.set i c') name i = decide (c'.username = name) := by
  rw [hasName, map_set_self _ h, Option.some_beq_some, beq_eq_decide]

theorem hasName_of_some (h : s.sessions[i]? = some c) (name : CBuf MAX_USERNAME_LEN) :
    hasName s.sessions name i = decide (c.username = name) := by
  rw [hasName, h, Option.map_some, Option.some_beq_some, beq_eq_decide]

theorem MembersInv.mem (hi : MembersInv s) (h : s.sessions[i]? = some c) (hc : c.stage = .chat) : i ∈ s.room :=
  (hi.chat i).2 (by rw [h, Option.map_some, hc])

theorem MembersInv.not_mem (hi : MembersInv s) (h : s.sessions[i]? = some c) (hc : c.stage ≠ .chat) : i ∉ s.room := by
  intro hmem
  have hstage := (hi.chat i).1 hmem
  rw [h, Option.map_some] at hstage
  exact hc (Option.some.inj hstage)

/-- A client that takes another name. -/
theorem renamed_named (hi : MembersInv s) (h : s.sessions[i]? = some c) (hc : c.stage = .chat)
    (name : CBuf MAX_USERNAME_LEN) :
    (s.setSession i c').named name = s.named name + (Notice.nick c.username c'.username).change name := by
  have hmem := hi.mem h hc
  rw [named_eq, named_eq]
  show ((s.room.countP (hasName (s.sessions.set i c') name) : Nat) : Int) = _
  rw [countP_erase_add hmem, countP_erase_add hmem (hasName s.sessions name),
    countP_others hi.nodup.not_mem_erase, hasName_set h, hasName_of_some h]
  simp only [decide_eq_true_eq, Notice.change]
  omega

/-- A client that leaves. -/
theorem left_room (hi : MembersInv s) (h : s.sessions[i]? = some c) (hc' : c'.stage ≠ .chat) :
    MembersInv { s.setSession i c' with room := s.room.erase i } := by
  refine ⟨hi.nodup.erase i, fun j => ?_⟩
  show j ∈ s.room.erase i ↔ (s.sessions.set i c')[j]?.map Session.stage = some .chat
  rw [hi.nodup.mem_erase_iff]
  by_cases hj : j = i
  · rw [hj, map_set_self _ h]
    exact iff_of_false (fun hij => hij.1 rfl) fun hstage => hc' (Option.some.inj hstage)
  · rw [map_set_ne _ hj]
    exact (and_iff_right hj).trans (hi.chat j)

theorem left_named (hi : MembersInv s) (h : s.sessions[i]? = some c) (hc : c.stage = .chat)
    (name : CBuf MAX_USERNAME_LEN) :
    Server.named { s.setSession i c' with room := s.room.erase i } name =
      s.named name + (Notice.leave c.username).change name := by
  rw [named_eq, named_eq]
  show (((s.room.erase i).countP (hasName (s.sessions.set i c') name) : Nat) : Int) = _
  rw [countP_others hi.nodup.not_mem_erase, countP_erase_add (hi.mem h hc) (hasName s.sessions name), hasName_of_some h]
  simp only [decide_eq_true_eq, Notice.change]
  split <;> omega

/-- A session that enters. -/
theorem joined_room (hi : MembersInv s) (h : s.sessions[i]? = some c) (hc : c.stage ≠ .chat) (hc' : c'.stage = .chat) :
    MembersInv { s.setSession i c' with room := s.room ++ [i] } := by
  have hout := hi.not_mem h hc
  refine ⟨List.nodup_append.2 ⟨hi.nodup, List.nodup_singleton i, ?_⟩, fun j => ?_⟩
  · intro j hj k hk
    rw [List.mem_singleton.1 hk]
    exact ne_of_mem_of_not_mem hj hout
  show j ∈ s.room ++ [i] ↔ (s.sessions.set i c')[j]?.map Session.stage = some .chat
  rw [List.mem_append, List.mem_singleton]
  by_cases hj : j = i
  · rw [hj, map_set_self _ h, hc']
    exact iff_of_true (.inr rfl) rfl
  · rw [map_set_ne _ hj]
    exact (or_iff_left hj).trans (hi.chat j)

theorem joined_named (hi : MembersInv s) (h : s.sessions[i]? = some c) (hc : c.stage ≠ .chat)
    (name : CBuf MAX_USERNAME_LEN) :
    Server.named { s.setSession i c' with room := s.room ++ [i] } name =
      s.named name + (Notice.join c'.username).change name := by
  rw [named_eq, named_eq]
  show (((s.room ++ [i]).countP (hasName (s.sessions.set i c') name) : Nat) : Int) = _
  rw [List.countP_append, List.countP_singleton, countP_others (hi.not_mem h hc), hasName_set h]
  simp only [decide_eq_true_eq, Notice.change]
  push_cast
  rfl

/-- A session that never enters. -/
theorem presenceStep_away (hi : MembersInv s) (h : s.sessions[i]? = some c) (hc : c.stage ≠ .chat)
    (hc' : c'.stage ≠ .chat) : PresenceStep s (s.setSession i c') := by
  have hout := hi.not_mem h hc
  refine ⟨⟨hi.nodup, fun j => ?_⟩, fun name => ?_⟩
  · show j ∈ s.room ↔ (s.sessions.set i c')[j]?.map Session.stage = some .chat
    by_cases hj : j = i
    · rw [hj, map_set_self _ h]
      exact iff_of_false hout fun hstage => hc' (Option.some.inj hstage)
    · rw [map_set_ne _ hj]
      exact hi.chat j
  · rw [named_eq, named_eq]
    show ((s.room.countP (hasName (s.sessions.set i c') name) : Nat) : Int) - _ = _
    rw [countP_others hout]
    exact (Int.sub_self _).trans (Int.sub_self _).symm

/-- A session that is new. -/
theorem connected_room (hi : MembersInv s) (hc : c.stage ≠ .chat) :
    MembersInv { s with sessions := s.sessions ++ [c] } := by
  refine ⟨hi.nodup, fun j => (hi.chat j).trans ?_⟩
  show s.sessions[j]?.map Session.stage = _ ↔ (s.sessions ++ [c])[j]?.map Session.stage = _
  rcases Nat.lt_trichotomy j s.sessions.length with hj | rfl | hj
  · rw [List.getElem?_append_left hj]
  · rw [List.getElem?_eq_none le_rfl, List.getElem?_concat_length]
    exact iff_of_false nofun fun hstage => hc (Option.some.inj hstage)
  · rw [List.getElem?_eq_none hj.le, List.getElem?_eq_none (by simp; omega)]

theorem connected_named (hi : MembersInv s) (name : CBuf MAX_USERNAME_LEN) :
    Server.named { s with sessions := s.sessions ++ [c] } name = s.named name := by
  refine @named_congr s _ name rfl fun j hj => ?_
  have hsome := (hi.chat j).1 hj
  have hlt : j < s.sessions.length := by
    by_contra hge
    rw [List.getElem?_eq_none (by omega)] at hsome
    cases hsome
  rw [List.getElem?_append_left hlt]

theorem commandsDispatch_presence (hi : MembersInv s) (hw : s.waiting i .chat = some c) {cmd : Bytes} {now : Int}
    (h : commandsDispatch cfg s i c cmd now = some s') : PresenceStep s s' := by
  obtain ⟨hget, hstage⟩ := waiting_some hw
  simp only [commandsDispatch] at h
  split at h
  · split at h
    · cases h
      exact presenceStep_set hi hget rfl rfl
    rename_i name hname
    split at h
    · cases h
      exact presenceStep_set hi hget rfl rfl
    · exact presenceStep_start h rfl (setSession_room hi hget rfl) (renamed_named hi hget hstage)
  · cases h
    exact presenceStep_set hi hget rfl rfl
  · cases h
    exact presenceStep_set hi hget rfl rfl

/-- A step that is no restart: what it does to the room, its notice tells. -/
theorem serverStep_presence {e : ServerEvent} (hb : BoardInv cfg.charSigned s.board) (hi : MembersInv s)
    (he : ∀ now, e ≠ .restart now) (h : serverStep cfg s e = some s') : PresenceStep s s' := by
  cases e with
  | connect =>
    cases h
    refine ⟨connected_room hi SessionStage.noConfusion, fun name => ?_⟩
    rw [connected_named hi]
    exact (Int.sub_self _).trans (Int.sub_self _).symm
  | promptKey i b rest =>
    obtain ⟨c, hw, rfl⟩ := Option.map_eq_some_iff.1 h
    exact presenceStep_set hi (waiting_some hw).1 rfl rfl
  | join i now =>
    obtain ⟨c, hw, h⟩ := Option.bind_eq_some_iff.1 h
    obtain ⟨hget, hstage⟩ := waiting_some hw
    have hout : c.stage ≠ .chat := by rw [hstage]; decide
    dsimp only at h
    split at h
    · cases h
      exact presenceStep_away hi hget hout SessionStage.noConfusion
    · exact presenceStep_start h rfl (joined_room hi hget hout rfl) (joined_named hi hget hout)
  | insertKey i key =>
    obtain ⟨c, hw, rfl⟩ := Option.map_eq_some_iff.1 h
    exact presenceStep_set hi (waiting_some hw).1 rfl rfl
  | enter i now =>
    obtain ⟨c, hw, h⟩ := Option.bind_eq_some_iff.1 h
    obtain ⟨hget, -⟩ := waiting_some hw
    split at h
    · cases h
      exact ⟨hi, fun name => (Int.sub_self _).trans (Int.sub_self _).symm⟩
    · refine presenceStep_start h rfl (setSession_room hi hget rfl) fun name => ?_
      rw [setSession_named hget]
      · exact (Int.add_zero _).symm
      · rfl
  | commandKey i key =>
    obtain ⟨c, hw, rfl⟩ := Option.map_eq_some_iff.1 h
    exact presenceStep_set hi (waiting_some hw).1 rfl rfl
  | commandEnter i now =>
    obtain ⟨c, hw, h⟩ := Option.bind_eq_some_iff.1 h
    dsimp only at h
    split at h
    · cases h
      exact presenceStep_set hi (waiting_some hw).1 rfl rfl
    · exact commandsDispatch_presence hi hw h
  | helpLang i =>
    obtain ⟨c, hw, rfl⟩ := Option.map_eq_some_iff.1 h
    exact presenceStep_set hi (waiting_some hw).1 rfl rfl
  | readMentions i =>
    obtain ⟨c, hw, rfl⟩ := Option.map_eq_some_iff.1 h
    exact presenceStep_set hi (waiting_some hw).1 rfl rfl
  | leave i now =>
    obtain ⟨c, hw, h⟩ := Option.bind_eq_some_iff.1 h
    obtain ⟨hget, hstage⟩ := waiting_some hw
    exact presenceStep_start h rfl (left_room hi hget SessionStage.noConfusion) (left_named hi hget hstage)
  | execPost sshLogin args now =>
    refine presenceStep_start h rfl (connected_room hi SessionStage.noConfusion) fun name => ?_
    exact (connected_named hi name).trans (Int.add_zero _).symm
  | dequeue =>
    rw [serverStep, Option.ite_none_left_eq_some] at h
    exact presenceStep_onBoard hb h.2 rfl ⟨hi.nodup, hi.chat⟩ trivial fun name => rfl
  | respond name line now =>
    rw [serverStep, Option.ite_none_right_eq_some] at h
    exact presenceStep_start h.2 rfl hi fun name => (Int.add_zero _).symm
  | save id env => exact presenceStep_onBoard hb h rfl hi trivial fun name => rfl
  | broadcast id => exact presenceStep_onBoard hb h rfl hi trivial fun name => rfl
  | notify id alloc =>
    obtain ⟨j, -, h⟩ := Option.bind_eq_some_iff.1 h
    dsimp only at h
    split at h
    · refine presenceStep_onBoard hb h rfl (hi.congr rfl ?_) trivial fun name => named_congr rfl fun k _ => ?_
      · exact map_notifyMentions _ (fun _ _ => rfl) _ _ _ _
      · exact map_notifyMentions _ (fun _ _ => rfl) _ _ _ _ k
    · exact presenceStep_onBoard hb h rfl hi trivial fun name => rfl
  | enqueue id alloc => exact presenceStep_onBoard hb h rfl hi trivial fun name => rfl
  | restart now => exact absurd rfl (he now)

/-! ## Every reachable state -/

/-- The notices add up to who is in the room. -/
structure PresenceInv (cfg : ServerConfig) (s : Server) : Prop where
  server : ServerInv cfg s
  room : MembersInv s
  told : ∀ name, s.named name = s.board.presence name

theorem presenceInv_create (cfg : ServerConfig) (dir : LogDir) (now : Int) : PresenceInv cfg (.create dir now) :=
  ⟨serverInv_create cfg dir now, ⟨List.nodup_nil, fun _ => iff_of_false List.not_mem_nil nofun⟩, fun _ => rfl⟩

theorem presenceInv_step {e : ServerEvent} (hi : PresenceInv cfg s) (h : serverStep cfg s e = some s') :
    PresenceInv cfg s' := by
  by_cases he : ∃ now, e = .restart now
  · obtain ⟨now, rfl⟩ := he
    cases h
    exact presenceInv_create cfg _ now
  · obtain ⟨hroom, htold⟩ := serverStep_presence hi.server.board hi.room (not_exists.1 he) h
    refine ⟨serverInv_step hi.server h, hroom, fun name => ?_⟩
    have hbefore := hi.told name
    have hdiff := htold name
    omega

/-- In every run, how many clients in the room have a name is what the notices that were shown tell of it, and
those still to be shown; when none is, it is what was shown. -/
theorem presence_told {es : List ServerEvent} {dir : LogDir} {now : Int}
    (h : exec (serverStep cfg) (.create dir now) es = some s) (name : CBuf MAX_USERNAME_LEN) :
    s.named name = s.board.told name + s.board.untold name ∧
      (s.board.pubs.AllDone → s.named name = s.board.told name) := by
  have hi := exec_inv (PresenceInv cfg) (fun _ _ _ => presenceInv_step) (presenceInv_create cfg dir now) h
  refine ⟨hi.told name, fun hdone => (hi.told name).trans ?_⟩
  have hzero : s.board.untold name = 0 := by
    refine List.sum_eq_zero fun n hn => ?_
    obtain ⟨j, hj, rfl⟩ := List.mem_map.1 hn
    exact untold_nil (hdone j hj)
  unfold Board.presence
  omega

/-- Ann and bob come in, and ann becomes eve while bob leaves; its notice comes first. -/
def namesRun : List ServerEvent :=
  .connect :: .connect :: (lit "ann").map (.promptKey 0 · []) ++ (lit "bob").map (.promptKey 1 · []) ++
    [.join 0 1752500000, .join 1 1752500000, .broadcast 1, .broadcast 0, .save 0 (.written true),
      .save 1 (.written true)] ++
    .commandKey 0 .colon :: (lit "nick eve").map (fun b => .commandKey 0 (.byte b [])) ++
    [.commandEnter 0 1752500001, .leave 1 1752500001, .broadcast 3, .broadcast 2, .save 2 (.written true),
      .save 3 (.written true)]

theorem presence_told_eve :
    ∃ s, exec (serverStep plainConfig) (.create ⟨none, none⟩ 1752500000) namesRun = some s ∧
      s.named (CBuf.copy _ (lit "eve")) = 1 ∧
      s.named (CBuf.copy _ (lit "eve")) = s.board.told (CBuf.copy _ (lit "eve")) := by
  have hsome : (exec (serverStep plainConfig) (.create ⟨none, none⟩ 1752500000) namesRun).any (fun s =>
      decide (s.named (CBuf.copy _ (lit "eve")) = 1 ∧ s.board.pubs.AllDone)) = true := by
    decide +kernel
  obtain ⟨s, hs, hp⟩ := (Option.any_eq_true _ _).1 hsome
  obtain ⟨heve, hdone⟩ := of_decide_eq_true hp
  exact ⟨s, hs, heve, (presence_told hs _).2 hdone⟩

end Tnt
