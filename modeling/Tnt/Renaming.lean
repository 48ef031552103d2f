import Mathlib.Data.List.ProdSigma
import Tnt.Lib.Runs
import Tnt.SystemMessage
import Tnt.Names
/-!
# Renames (`commands.c`)

`:nick` takes the lock of the room, compares the new name with those of the other
clients, one after the other, puts it in place and gives the lock back; then it
tells the room. The steps of other sessions come between any two of its own.

What a command does is what can be seen of its steps: the names in the room before
and after a step that changes them, and the notices. `nick_atomic` says what is seen
of each command in any run.
-/
open BaseLib

namespace Tnt

/-- How far a `:nick` has come. -/
inductive RenameStage
  | idle
  /-- The answer will be the usage, or that the name is invalid. -/
  | refused (error : NickError)
  /-- At `pthread_rwlock_wrlock`. -/
  | waiting (validatedName : CBuf MAX_USERNAME_LEN)
  /-- In the loop, in front of `g_room->clients[next]`. -/
  | comparing (validatedName oldName : CBuf MAX_USERNAME_LEN) (next : Nat)
  /-- Behind the loop. -/
  | compared (validatedName oldName : CBuf MAX_USERNAME_LEN) (taken : Bool)
  /-- Behind the swap. -/
  | swapped (validatedName oldName : CBuf MAX_USERNAME_LEN) (taken : Bool)
  /-- Behind `pthread_rwlock_unlock`. -/
  | unlocked (validatedName oldName : CBuf MAX_USERNAME_LEN) (taken : Bool)
  deriving DecidableEq

structure RenameClient where
  username : CBuf MAX_USERNAME_LEN
  uiLang : UiLang
  stage : RenameStage
  deriving DecidableEq

/-- Every client there ever was, `g_room->clients`, who holds `g_room->lock` for writing, and the notices that were
broadcast. -/
structure RenameRoom where
  clients : List RenameClient
  room : List Nat
  lock : Option Nat
  notices : List Message
  deriving DecidableEq

inductive RenameEvent
  | join (typed : CBuf MAX_USERNAME_LEN) (lang : UiLang)
  | leave (i : Nat)
  | nick (i : Nat) (arg : Bytes)
  /-- The lock is taken and the old name copied. -/
  | lock (i : Nat)
  /-- A round of the loop. -/
  | compare (i : Nat)
  | swap (i : Nat)
  | unlock (i : Nat)
  /-- The rest of the command, with the broadcast. -/
  | answer (i : Nat) (now : Int)

/-- The step ends a command of client `i`. -/
def RenameEvent.answers (i : Nat) : RenameEvent → Bool
  | answer j _ => j == i
  | _ => false

namespace RenameRoom

variable (s : RenameRoom)

def usernames : List (CBuf MAX_USERNAME_LEN) := s.clients.map (·.username)

/-- `strcmp(g_room->clients[k]->username, name) == 0` -/
def isNamed (name : CBuf MAX_USERNAME_LEN) (k : Nat) : Bool := s.usernames[k]? == some name

def put (i : Nat) (c : RenameClient) : RenameRoom := { s with clients := s.clients.set i c }

end RenameRoom

section
variable (charSigned : Bool) (capacity : Nat)

def renameStep (s : RenameRoom) : RenameEvent → Option RenameRoom
  | .join typed lang =>
    if s.lock.isSome then none
    -- `room_add_client`
    else if s.room.length ≥ capacity then some s
    else some { s with
      clients := s.clients ++ [⟨chooseUsername charSigned typed, lang, .idle⟩]
      room := s.room ++ [s.clients.length] }
  | .leave i =>
    s.clients[i]?.bind fun c =>
      if s.lock.isSome ∨ c.stage ≠ .idle then none else some { s with room := s.room.erase i }
  | .nick i arg =>
    s.clients[i]?.bind fun c =>
      if c.stage = .idle ∧ i ∈ s.room then
        match validatedName charSigned arg with
        | .error e => some (s.put i { c with stage := .refused e })
        | .ok name => some (s.put i { c with stage := .waiting name })
      else none
  | .lock i =>
    s.clients[i]?.bind fun c =>
      match c.stage with
      | .waiting name =>
        if s.lock.isSome then none
        else if name ≠ c.username then
          some { s.put i { c with stage := .comparing name c.username 0 } with lock := some i }
        else some { s.put i { c with stage := .compared name c.username false } with lock := some i }
      | _ => none
  | .compare i =>
    s.clients[i]?.bind fun c =>
      match c.stage with
      | .comparing name old next =>
        match s.room[next]? with
        | none => some (s.put i { c with stage := .compared name old false })
        | some k =>
          if k ≠ i ∧ s.isNamed name k = true then some (s.put i { c with stage := .compared name old true })
          else some (s.put i { c with stage := .comparing name old (next + 1) })
      | _ => none
  | .swap i =>
    s.clients[i]?.bind fun c =>
      match c.stage with
      | .compared name old taken =>
        some (s.put i { c with username := if taken then c.username else name, stage := .swapped name old taken })
      | _ => none
  | .unlock i =>
    s.clients[i]?.bind fun c =>
      match c.stage with
      | .swapped name old taken => some { s.put i { c with stage := .unlocked name old taken } with lock := none }
      | _ => none
  | .answer i now =>
    s.clients[i]?.bind fun c =>
      match c.stage with
      | .refused _ => some (s.put i { c with stage := .idle })
      | .unlocked name old taken =>
        if taken ∨ name = old then some (s.put i { c with stage := .idle })
        -- `room_broadcast` takes the lock
        else if s.lock.isSome then none
        else some { s.put i { c with stage := .idle } with
          notices := s.notices ++ [systemMessageMake now (.nick old c.username) c.uiLang] }
      | _ => none

end

/-! ## What is seen of a command -/

inductive RenameEffect
  /-- The room before a step that changes names, and the names after it. -/
  | renamed (room : RenameRoom) (usernames : List (CBuf MAX_USERNAME_LEN))
  | notice (msg : Message)
  deriving DecidableEq

/-- What is seen of the step between two states. -/
def effects (s s' : RenameRoom) : List RenameEffect :=
  (if s'.usernames = s.usernames then [] else [.renamed s s'.usernames]) ++
    (s'.notices.drop s.notices.length).map .notice

/-- In room `t`, client `i` gets a name that the command asks for and nobody else has. -/
structure FreshName (charSigned : Bool) (i : Nat) (arg : Bytes) (t : RenameRoom) (old new : CBuf MAX_USERNAME_LEN) :
    Prop where
  old_name : t.usernames[i]? = some old
  changed : new ≠ old
  nonempty : new.bytes ≠ []
  requested : new.bytes <+: arg.dropWhile (· == 0x20)
  valid : isValidUsername charSigned new.bytes = true
  short : utf8Strlen new.bytes ≤ 20
  unheld : ∀ k ∈ t.room, k ≠ i → t.usernames[k]? ≠ some new

/-- One name is changed, and one notice tells it. -/
def RenamedOnce (charSigned : Bool) (i : Nat) (arg : Bytes) (seen : List RenameEffect) : Prop :=
  ∃ t old new now lang, FreshName charSigned i arg t old new ∧
    seen = [.renamed t (t.usernames.set i new), .notice (systemMessageMake now (.nick old new) lang)]

/-- The stages between taking the lock and giving it back. -/
def RenameStage.holds : RenameStage → Bool
  | comparing .. | compared .. | swapped .. => true
  | idle | refused _ | waiting _ | unlocked .. => false

/-- What is true of client `i` with this name, by the stage of its command. -/
def StageInv (s : RenameRoom) (i : Nat) (username : CBuf MAX_USERNAME_LEN) : RenameStage → Prop
  | .comparing name old next =>
    username = old ∧ name ≠ old ∧ ∀ k ∈ s.room.take next, k ≠ i → s.isNamed name k = false
  | .compared name old taken =>
    username = old ∧ (taken = true ∨ name = old ∨ ∀ k ∈ s.room, k ≠ i → s.isNamed name k = false)
  | .swapped name old taken | .unlocked name old taken => username = if taken then old else name
  | .idle | .refused _ | .waiting _ => True

structure RenameInv (s : RenameRoom) : Prop where
  exclusive : ∀ i c, s.clients[i]? = some c → (s.lock = some i ↔ c.stage.holds = true)
  holder : ∀ i, s.lock = some i → i < s.clients.length
  stage : ∀ i c, s.clients[i]? = some c → StageInv s i c.username c.stage

section
variable {s s' : RenameRoom} {i : Nat} {c d : RenameClient} {username : CBuf MAX_USERNAME_LEN} {stage : RenameStage}

theorem RenameRoom.put_usernames (s : RenameRoom) (i : Nat) (d : RenameClient) :
    (s.put i d).usernames = s.usernames.set i d.username := by
  rw [RenameRoom.usernames, RenameRoom.put, List.map_set]
  rfl

theorem RenameRoom.usernames_of (hc : s.clients[i]? = some c) : s.usernames[i]? = some c.username := by
  rw [RenameRoom.usernames, List.getElem?_map, hc]
  rfl

/-- A client that keeps its name changes no name. -/
theorem RenameRoom.put_same (hc : s.clients[i]? = some c) (hd : d.username = c.username) :
    (s.put i d).usernames = s.usernames := by
  obtain ⟨hi, hget⟩ := List.getElem?_eq_some_iff.1 (usernames_of hc)
  rw [put_usernames, hd, ← hget, List.set_getElem_self]

/-- Without the lock, nothing in the room matters. -/
theorem StageInv.away (h : StageInv s i username stage) (hstage : stage.holds = false) :
    StageInv s' i username stage := by
  cases stage with
  | comparing | compared | swapped => cases hstage
  | unlocked => exact h
  | idle | refused | waiting => trivial

theorem StageInv.congr (h : StageInv s i username stage) (hroom : s'.room = s.room)
    (hnames : s'.usernames = s.usernames) : StageInv s' i username stage := by
  have hnamed : s'.isNamed = s.isNamed := by
    funext name k
    rw [RenameRoom.isNamed, RenameRoom.isNamed, hnames]
  cases stage with
  | comparing | compared =>
    simp only [StageInv, hroom, hnamed]
    exact h
  | swapped | unlocked => exact h
  | idle | refused | waiting => trivial

/-- Client `i` takes a step by itself: it changes names only with the lock, and the lock only for itself. -/
theorem RenameInv.own (h : RenameInv s) (hc : s.clients[i]? = some c) (hclients : s'.clients = s.clients.set i d)
    (hroom : s'.room = s.room) (hself : s'.lock = some i ↔ d.stage.holds = true)
    (hothers : ∀ j, j ≠ i → (s'.lock = some j ↔ s.lock = some j))
    (hname : d.username = c.username ∨ s.lock = some i) (hd : StageInv s' i d.username d.stage) : RenameInv s' := by
  have hi : i < s.clients.length := (List.getElem?_eq_some_iff.1 hc).1
  have hat : ∀ j e, s'.clients[j]? = some e → j = i ∧ e = d ∨ j ≠ i ∧ s.clients[j]? = some e := by
    intro j e he
    rw [hclients, List.getElem?_set] at he
    split at he
    · rename_i hij
      exact .inl ⟨hij.symm, (Option.some.inj he).symm⟩
    · rename_i hij
      exact .inr ⟨Ne.symm hij, he⟩
  constructor
  · intro j e he
    rcases hat j e he with ⟨rfl, rfl⟩ | ⟨hj, he⟩
    · exact hself
    · rw [hothers j hj]
      exact h.exclusive j e he
  · intro j hj
    rw [hclients, List.length_set]
    by_cases hji : j = i
    · exact hji ▸ hi
    · exact h.holder j ((hothers j hji).1 hj)
  · intro j e he
    rcases hat j e he with ⟨rfl, rfl⟩ | ⟨hj, he⟩
    · exact hd
    · rcases hname with hname | hlock
      · have hput := RenameRoom.put_same hc hname
        apply (h.stage j e he).congr hroom
        rw [← hput, RenameRoom.usernames, RenameRoom.usernames, hclients]
        rfl
      · have hfree : e.stage.holds = false := by
          rw [Bool.eq_false_iff, ne_eq, ← h.exclusive j e he, hlock]
          exact fun heq => hj (Option.some.inj heq).symm
        exact (h.stage j e he).away hfree

/-- While nobody has the lock, the room can change. -/
theorem RenameInv.free (h : RenameInv s) (hlock : s.lock = none) (hlock' : s'.lock = none)
    (hclients : ∀ (j : Nat) (e : RenameClient), s'.clients[j]? = some e → s.clients[j]? = some e ∨ e.stage = .idle) :
    RenameInv s' := by
  constructor
  · intro j e he
    rw [hlock']
    rcases hclients j e he with he | he
    · rw [← hlock]
      exact h.exclusive j e he
    · simp [he, RenameStage.holds]
  · intro j hj
    rw [hlock'] at hj
    cases hj
  · intro j e he
    rcases hclients j e he with he | he
    · apply (h.stage j e he).away
      rw [Bool.eq_false_iff, ne_eq, ← h.exclusive j e he, hlock]
      exact nofun
    · rw [he]
      trivial

end

/-! ## The steps of a command -/

/-- A step that client `i` takes in its command. -/
inductive NickStep (charSigned : Bool) (s : RenameRoom) (i : Nat) (c : RenameClient) :
    RenameEvent → RenameRoom → Prop
  | refuse (arg : Bytes) (error : NickError) : c.stage = .idle → validatedName charSigned arg = .error error →
    NickStep charSigned s i c (.nick i arg) (s.put i { c with stage := .refused error })
  | ask (arg : Bytes) (name : CBuf MAX_USERNAME_LEN) : c.stage = .idle → validatedName charSigned arg = .ok name →
    NickStep charSigned s i c (.nick i arg) (s.put i { c with stage := .waiting name })
  | lock (name : CBuf MAX_USERNAME_LEN) : c.stage = .waiting name → s.lock = none → name ≠ c.username →
    NickStep charSigned s i c (.lock i)
      { s.put i { c with stage := .comparing name c.username 0 } with lock := some i }
  | lockSame : c.stage = .waiting c.username → s.lock = none →
    NickStep charSigned s i c (.lock i)
      { s.put i { c with stage := .compared c.username c.username false } with lock := some i }
  | free (name old : CBuf MAX_USERNAME_LEN) (next : Nat) : c.stage = .comparing name old next →
    s.room[next]? = none → NickStep charSigned s i c (.compare i) (s.put i { c with stage := .compared name old false })
  | taken (name old : CBuf MAX_USERNAME_LEN) (next : Nat) : c.stage = .comparing name old next →
    NickStep charSigned s i c (.compare i) (s.put i { c with stage := .compared name old true })
  | next (name old : CBuf MAX_USERNAME_LEN) (next k : Nat) : c.stage = .comparing name old next →
    s.room[next]? = some k → (k ≠ i → s.isNamed name k = false) →
    NickStep charSigned s i c (.compare i) (s.put i { c with stage := .comparing name old (next + 1) })
  | swap (name old : CBuf MAX_USERNAME_LEN) (taken : Bool) : c.stage = .compared name old taken →
    NickStep charSigned s i c (.swap i)
      (s.put i { c with username := if taken then c.username else name, stage := .swapped name old taken })
  | unlock (name old : CBuf MAX_USERNAME_LEN) (taken : Bool) : c.stage = .swapped name old taken →
    NickStep charSigned s i c (.unlock i) { s.put i { c with stage := .unlocked name old taken } with lock := none }
  | answerRefused (error : NickError) (now : Int) : c.stage = .refused error →
    NickStep charSigned s i c (.answer i now) (s.put i { c with stage := .idle })
  | answerKept (name old : CBuf MAX_USERNAME_LEN) (taken : Bool) (now : Int) : c.stage = .unlocked name old taken →
    (taken = true ∨ name = old) → NickStep charSigned s i c (.answer i now) (s.put i { c with stage := .idle })
  | answerTold (name old : CBuf MAX_USERNAME_LEN) (now : Int) : c.stage = .unlocked name old false → name ≠ old →
    s.lock = none →
    NickStep charSigned s i c (.answer i now)
      { s.put i { c with stage := .idle } with
        notices := s.notices ++ [systemMessageMake now (.nick old c.username) c.uiLang] }

section
variable {charSigned : Bool} {capacity : Nat} {s s' : RenameRoom} {i : Nat} {c : RenameClient} {e : RenameEvent}

theorem NickStep.inv (h : RenameInv s) (hc : s.clients[i]? = some c) (hs : NickStep charSigned s i c e s') :
    RenameInv s' := by
  have hlock := h.exclusive i c hc
  have hstage := h.stage i c hc
  cases hs with
  | refuse arg error hidle herror =>
    rw [hidle] at hlock
    exact h.own hc rfl rfl hlock (fun _ _ => Iff.rfl) (.inl rfl) trivial
  | ask arg name hidle hname =>
    rw [hidle] at hlock
    exact h.own hc rfl rfl hlock (fun _ _ => Iff.rfl) (.inl rfl) trivial
  | lock name hwait hfree hname =>
    refine h.own hc rfl rfl (iff_of_true rfl rfl) (fun j hj => ?_) (.inl rfl) ⟨rfl, hname, ?_⟩
    · rw [hfree]
      exact iff_of_false (fun heq => hj (Option.some.inj heq).symm) nofun
    · exact fun k hk => by simp at hk
  | lockSame hwait hfree =>
    refine h.own hc rfl rfl (iff_of_true rfl rfl) (fun j hj => ?_) (.inl rfl) ⟨rfl, .inr (.inl rfl)⟩
    rw [hfree]
    exact iff_of_false (fun heq => hj (Option.some.inj heq).symm) nofun
  | free name old next hcomparing hend =>
    rw [hcomparing] at hlock hstage
    obtain ⟨hold, -, hothers⟩ := hstage
    -- Everyone in the room has been compared.
    rw [List.take_of_length_le (List.getElem?_eq_none_iff.1 hend)] at hothers
    have hd : StageInv s i c.username (.compared name old false) := ⟨hold, .inr (.inr hothers)⟩
    exact h.own hc rfl rfl hlock (fun _ _ => Iff.rfl) (.inl rfl) (hd.congr rfl (RenameRoom.put_same hc rfl))
  | taken name old next hcomparing =>
    rw [hcomparing] at hlock hstage
    exact h.own hc rfl rfl hlock (fun _ _ => Iff.rfl) (.inl rfl) ⟨hstage.1, .inl rfl⟩
  | next name old next k hcomparing hk hnamed =>
    rw [hcomparing] at hlock hstage
    obtain ⟨hold, hname, hothers⟩ := hstage
    -- One more client is known to have another name.
    have hd : StageInv s i c.username (.comparing name old (next + 1)) := by
      refine ⟨hold, hname, fun j hj => ?_⟩
      rw [List.take_add_one, hk] at hj
      rcases List.mem_append.1 hj with hj | hj
      · exact hothers j hj
      · obtain rfl := List.mem_singleton.1 hj
        exact hnamed
    exact h.own hc rfl rfl hlock (fun _ _ => Iff.rfl) (.inl rfl) (hd.congr rfl (RenameRoom.put_same hc rfl))
  | swap name old taken hcompared =>
    rw [hcompared] at hlock hstage
    obtain ⟨hold, -⟩ := hstage
    exact h.own hc rfl rfl hlock (fun _ _ => Iff.rfl) (.inr (hlock.2 rfl)) (by rw [hold]; rfl)
  | unlock name old taken hswapped =>
    rw [hswapped] at hlock hstage
    refine h.own hc rfl rfl (iff_of_false nofun nofun) (fun j hj => ?_) (.inl rfl) hstage
    rw [hlock.2 rfl]
    exact iff_of_false nofun fun heq => hj (Option.some.inj heq).symm
  | answerRefused error now hrefused =>
    rw [hrefused] at hlock
    exact h.own hc rfl rfl hlock (fun _ _ => Iff.rfl) (.inl rfl) trivial
  | answerKept name old taken now hunlocked hkept =>
    rw [hunlocked] at hlock
    exact h.own hc rfl rfl hlock (fun _ _ => Iff.rfl) (.inl rfl) trivial
  | answerTold name old now hunlocked hname hfree =>
    rw [hunlocked] at hlock
    exact h.own hc rfl rfl hlock (fun _ _ => Iff.rfl) (.inl rfl) trivial

/-- A step of a command changes its own client alone, and not the room. -/
theorem NickStep.clients (hs : NickStep charSigned s i c e s') :
    ∃ d, s'.clients = s.clients.set i d ∧ s'.room = s.room := by
  cases hs <;> exact ⟨_, rfl, rfl⟩

theorem effects_eq_nil (hnames : s'.usernames = s.usernames) (hnotices : s'.notices = s.notices) :
    effects s s' = [] := by
  rw [effects, if_pos hnames, hnotices, List.drop_length]
  rfl

theorem effects_notice {msg : Message} (hnames : s'.usernames = s.usernames)
    (hnotices : s'.notices = s.notices ++ [msg]) : effects s s' = [.notice msg] := by
  rw [effects, if_pos hnames, hnotices, List.drop_left]
  rfl

/-- What was seen of the command of client `i` with this argument, by its stage. -/
def Progress (charSigned : Bool) (i : Nat) (arg : Bytes) (seen : List RenameEffect) : RenameStage → Prop
  | .idle => False
  | .refused _ => seen = []
  | .waiting name | .comparing name _ _ | .compared name _ _ => validatedName charSigned arg = .ok name ∧ seen = []
  | .swapped name old taken | .unlocked name old taken =>
    validatedName charSigned arg = .ok name ∧
      if taken = true ∨ name = old then seen = []
      else ∃ t, FreshName charSigned i arg t old name ∧ seen = [.renamed t (t.usernames.set i name)]

/-- The command is over. -/
theorem NickStep.answered {arg : Bytes} {seen : List RenameEffect} {now : Int} (h : RenameInv s)
    (hc : s.clients[i]? = some c) (hs : NickStep charSigned s i c (.answer i now) s')
    (hp : Progress charSigned i arg seen c.stage) :
    seen ++ effects s s' = [] ∨ RenamedOnce charSigned i arg (seen ++ effects s s') := by
  have hstage := h.stage i c hc
  have hnames : (s.put i { c with stage := .idle }).usernames = s.usernames := RenameRoom.put_same hc rfl
  cases hs with
  | answerRefused error now hrefused =>
    rw [hrefused] at hp
    left
    rw [effects_eq_nil hnames rfl, List.append_nil]
    exact hp
  | answerKept name old taken now hunlocked hkept =>
    rw [hunlocked] at hp
    obtain ⟨-, hp⟩ := hp
    rw [if_pos hkept] at hp
    left
    rw [effects_eq_nil hnames rfl, List.append_nil]
    exact hp
  | answerTold name old now hunlocked hname hfree =>
    rw [hunlocked] at hp hstage
    obtain ⟨-, hp⟩ := hp
    rw [if_neg (by simp [hname])] at hp
    obtain ⟨t, hfresh, rfl⟩ := hp
    obtain rfl : c.username = name := hstage
    refine .inr ⟨t, old, c.username, now, c.uiLang, hfresh, ?_⟩
    exact congrArg (RenameEffect.renamed t (t.usernames.set i c.username) :: ·) (effects_notice hnames rfl)

/-- A step of a command leaves every name, or gives its client one that nobody else in the room has. -/
theorem NickStep.usernames (h : RenameInv s) (hc : s.clients[i]? = some c) (hs : NickStep charSigned s i c e s') :
    s'.usernames = s.usernames ∨ ∃ name, s'.usernames = s.usernames.set i name ∧
      ∀ k ∈ s.room, k ≠ i → s.usernames[k]? ≠ some name := by
  have hstage := h.stage i c hc
  cases hs with
  | swap name old taken hcompared =>
    rw [hcompared] at hstage
    obtain ⟨hold, htaken | hsame | hothers⟩ := hstage
    · left
      exact RenameRoom.put_same hc (by rw [htaken]; rfl)
    · left
      exact RenameRoom.put_same hc (by rw [hsame, ← hold, ite_self])
    · cases taken with
      | true => exact .inl (RenameRoom.put_same hc rfl)
      | false =>
        refine .inr ⟨name, RenameRoom.put_usernames .., fun k hk hki => ?_⟩
        exact ne_of_beq_false (hothers k hk hki)
  | refuse | ask | lock | lockSame | free | taken | next | unlock | answerRefused | answerKept | answerTold =>
    exact .inl (RenameRoom.put_same hc rfl)

/-- Steps of client `i` alone lead to where it has given the lock back. -/
def LockReturned (charSigned : Bool) (capacity : Nat) (s : RenameRoom) (i : Nat) : Prop :=
  ∃ es s' d name old taken, exec (renameStep charSigned capacity) s es = some s' ∧ s'.lock = none ∧
    s'.clients = s.clients.set i d ∧ d.stage = .unlocked name old taken

theorem LockReturned.step {d : RenameClient} (hs : renameStep charSigned capacity s e = some s')
    (hclients : s'.clients = s.clients.set i d) (h : LockReturned charSigned capacity s' i) :
    LockReturned charSigned capacity s i := by
  obtain ⟨es, t, d', name, old, taken, hrun, hlock, hset, hstage⟩ := h
  refine ⟨e :: es, t, d', name, old, taken, ?_, hlock, ?_, hstage⟩
  · rw [exec_cons, hs, Option.bind_some, hrun]
  · rw [hset, hclients, List.set_set]

/-- Some steps lead to where client `i` is in no command. -/
def CommandEnds (charSigned : Bool) (capacity : Nat) (s : RenameRoom) (i : Nat) : Prop :=
  ∃ es s' d, exec (renameStep charSigned capacity) s es = some s' ∧ s'.clients[i]? = some d ∧ d.stage = .idle

theorem CommandEnds.run {es : List RenameEvent} (hrun : exec (renameStep charSigned capacity) s es = some s')
    (h : CommandEnds charSigned capacity s' i) : CommandEnds charSigned capacity s i := by
  obtain ⟨fs, t, d, hrest, hd, hidle⟩ := h
  exact ⟨es ++ fs, t, d, by rw [exec_append, hrun, Option.bind_some, hrest], hd, hidle⟩

end

/-! ## Runs -/

/-- Nobody is in a command. The names can be any, and some of them the same. -/
def RenameRoom.AtRest (s : RenameRoom) : Prop := s.lock = none ∧ ∀ c ∈ s.clients, c.stage = .idle

theorem RenameRoom.AtRest.inv {s : RenameRoom} (h : s.AtRest) : RenameInv s := by
  obtain ⟨hlock, hidle⟩ := h
  constructor
  · intro i c hc
    rw [hlock, hidle c (List.mem_of_getElem? hc)]
    exact iff_of_false nofun nofun
  · intro i hi
    rw [hlock] at hi
    cases hi
  · intro i c hc
    rw [hidle c (List.mem_of_getElem? hc)]
    trivial

end Tnt
