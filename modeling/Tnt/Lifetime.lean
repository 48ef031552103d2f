import Tnt.Lib.Runs
import Mathlib.Data.List.Nodup
/-!
# The lifetime of a client (`client.c`, `bootstrap.c`, `input.c`, `commands.c`)

A `client_t` is counted: its session holds one reference and its channel callbacks another, and whoever finds it
in the room may borrow one, to be given back without the lock of the room. The last one to release it frees it.

`lifeStep` takes one step of one thread: a critical section, or what lies between two of them. A client is
named by the order of its allocation, and stays in the model when it is freed.
-/
open BaseLib

namespace Tnt

/-- Where the session of a client is. -/
inductive LifeSpot
  /-- `bootstrap_run` has set `ref_count` to 1. -/
  | allocated
  /-- In `client_install_channel_callbacks`, behind `client_addref`. -/
  | installing
  /-- It returned -1. -/
  | failed
  /-- In `input_run_session`. -/
  | active (inRoom : Bool)
  /-- At the cleanup, behind `room_remove_client` where it was in the room. -/
  | leaving
  /-- In `client_release_session`, behind the removal of the callbacks. -/
  | unhooked
  /-- Before the last call of `client_release`. -/
  | releasing
  /-- Behind it. -/
  | done
  deriving DecidableEq

/-- In `input_run_session`, before its cleanup. -/
def LifeSpot.isActive : LifeSpot → Bool
  | .active _ => true
  | _ => false

structure ClientObj where
  refCount : Int
  /-- `channel_callback_ref` -/
  callbackRef : Bool
  /-- libssh has its callbacks. -/
  hooked : Bool
  /-- How often its memory was freed. -/
  frees : Nat
  spot : LifeSpot
  deriving DecidableEq

/-- `client_t` as `bootstrap_run` sets it up. -/
def ClientObj.init : ClientObj := ⟨1, false, false, 0, .allocated⟩

/-- A reference that was taken to a client of the room: by the session of a client, or by the thread of the
module runtime. -/
abbrev Borrow : Type := Option Nat × Nat

structure Lifetimes where
  clients : List ClientObj
  /-- `g_room->clients` -/
  room : List Nat
  /-- The targets of `notify_mentions` and `send_private_message`. -/
  borrows : List Borrow
  /-- The clients that some thread is about to free: its `client_release` has left the lock with count 0. -/
  freeing : List Nat
  deriving DecidableEq

namespace Lifetimes

def init : Lifetimes := ⟨[], [], [], []⟩

def put (w : Lifetimes) (c : Nat) (o : ClientObj) : Lifetimes := { w with clients := w.clients.set c o }

/-- `client_addref` -/
def addref (w : Lifetimes) (c : Nat) (o : ClientObj) : Lifetimes := w.put c { o with refCount := o.refCount + 1 }

/-- `client_release`, as far as it holds the lock. -/
def release (w : Lifetimes) (c : Nat) (o : ClientObj) : Lifetimes :=
  let o := { o with refCount := o.refCount - 1 }
  { w.put c o with freeing := if o.refCount = 0 then c :: w.freeing else w.freeing }

/-- A thread that publishes or sends: a session in `input_run_session`, or the module runtime. -/
def isActive (w : Lifetimes) : Option Nat → Bool
  | none => true
  | some i => (w.clients[i]?).any (·.spot.isActive)

end Lifetimes

/-- What the thread of a session does with its own client. -/
inductive SessionOp
  /-- `client_addref` in `client_install_channel_callbacks`. -/
  | addCallbackRef
  /-- It cannot allocate or set the callbacks. -/
  | installFails
  | installs
  /-- `client_release` in `bootstrap_run`. -/
  | releaseFailed
  /-- `room_add_client` -/
  | join
  /-- Anything it does with the client besides. -/
  | use
  /-- The cleanup, with `room_remove_client` where it joined. -/
  | leave
  /-- The callbacks are removed and freed. -/
  | unhook
  /-- `client_release`, if there is a `channel_callback_ref`. -/
  | dropCallbackRef
  /-- The last call of `client_release_session`. -/
  | releaseMain
  deriving DecidableEq

/-- `bootstrap_run` from the allocation of the client on, `input_run_session` and `client_release_session`. -/
def sessionOp (w : Lifetimes) (i : Nat) (o : ClientObj) : SessionOp → Option Lifetimes
  | .addCallbackRef =>
    if o.spot = .allocated then some (w.addref i { o with callbackRef := true, spot := .installing }) else none
  | .installFails =>
    if o.spot = .installing then some (w.release i { o with callbackRef := false, spot := .failed }) else none
  | .installs =>
    if o.spot = .installing then some (w.put i { o with hooked := true, spot := .active false }) else none
  | .releaseFailed => if o.spot = .failed then some (w.release i { o with spot := .done }) else none
  | .join =>
    if o.spot = .active false then some { w.put i { o with spot := .active true } with room := w.room ++ [i] }
    else none
  | .use => if o.spot = .done then none else some w
  | .leave =>
    match o.spot with
    | .active true => some { w.put i { o with spot := .leaving } with room := w.room.erase i }
    | .active false => some (w.put i { o with spot := .leaving })
    | _ => none
  | .unhook => if o.spot = .leaving then some (w.put i { o with hooked := false, spot := .unhooked }) else none
  | .dropCallbackRef =>
    if o.spot = .unhooked then
      if o.callbackRef then some (w.release i { o with callbackRef := false, spot := .releasing })
      else some (w.put i { o with spot := .releasing })
    else none
  | .releaseMain => if o.spot = .releasing then some (w.release i { o with spot := .done }) else none

inductive LifeEvent
  /-- `bootstrap_run` allocates a client. -/
  | bootstrap
  | session (i : Nat) (op : SessionOp)
  /-- libssh calls one of the channel callbacks of a client. -/
  | callback (i : Nat)
  /-- A thread goes through the clients of the room, under its lock. -/
  | look
  /-- It takes a reference to one of them. `notify_mentions` takes all of its targets under one lock, which is
  this some times in a row. -/
  | borrow (owner : Option Nat) (target : Nat)
  /-- It uses the client, behind the lock, and its own. -/
  | use (b : Borrow)
  /-- `client_release` of a target. -/
  | giveBack (b : Borrow)
  /-- The rest of a `client_release` that found nothing left. -/
  | free (c : Nat)
  deriving DecidableEq

def lifeStep (w : Lifetimes) : LifeEvent → Option Lifetimes
  | .bootstrap => some { w with clients := w.clients ++ [.init] }
  | .session i op => do
    let o ← w.clients[i]?
    -- The thread gives back what it borrowed before it goes on.
    if ∃ b ∈ w.borrows, b.1 = some i then none else sessionOp w i o op
  | .callback i => do
    let o ← w.clients[i]?
    if o.hooked then some w else none
  | .look => some w
  | .borrow owner target => do
    let o ← w.clients[target]?
    if w.isActive owner ∧ target ∈ w.room then
      some { w.addref target o with borrows := (owner, target) :: w.borrows }
    else none
  | .use b => if b ∈ w.borrows then some w else none
  | .giveBack b => do
    let o ← w.clients[b.2]?
    if b ∈ w.borrows then some { w.release b.2 o with borrows := w.borrows.erase b } else none
  | .free c => do
    let o ← w.clients[c]?
    if c ∈ w.freeing then
      some { w.put c { o with frees := o.frees + 1 } with freeing := w.freeing.erase c }
    else none

/-- The clients whose memory a step reads or writes. -/
def Lifetimes.touches (w : Lifetimes) : LifeEvent → List Nat
  | .bootstrap => []
  | .session i _ => [i]
  | .callback i => [i]
  | .look => w.room
  | .borrow owner _ => owner.toList ++ w.room
  | .use b => b.1.toList ++ [b.2]
  | .giveBack b => [b.2]
  | .free c => [c]

/-! ## Who holds a reference -/

namespace LifeSpot

/-- The session's own reference is not released. -/
def holdsMain : LifeSpot → Bool
  | .done => false
  | _ => true

/-- The reference of the callbacks is not. -/
def holdsCallback : LifeSpot → Bool
  | .installing | .active _ | .leaving | .unhooked => true
  | _ => false

/-- libssh may call them. -/
def isHooked : LifeSpot → Bool
  | .active _ | .leaving => true
  | _ => false

end LifeSpot

/-- How many references to a client are borrowed. -/
def Lifetimes.borrowed (w : Lifetimes) (c : Nat) : Nat := w.borrows.countP (·.2 = c)

/-- The session, the slot of the callbacks, and those who borrowed it. -/
def Lifetimes.holders (w : Lifetimes) (c : Nat) (o : ClientObj) : Nat :=
  o.spot.holdsMain.toNat + o.callbackRef.toNat + w.borrowed c

/-! ## The invariant -/

/-- What holds of a client that `borrowed` references were taken to and `freeing` threads are about to free. -/
structure ClientObj.Sound (o : ClientObj) (borrowed freeing : Nat) (inRoom : Prop) : Prop where
  count : o.refCount = (o.spot.holdsMain.toNat + o.callbackRef.toNat + borrowed : Nat)
  /-- It is freed once, when nobody holds a reference. -/
  freed : o.frees + freeing = if o.refCount = 0 then 1 else 0
  callback : o.callbackRef = o.spot.holdsCallback
  hooked : o.hooked = o.spot.isHooked
  member : inRoom ↔ o.spot = .active true

structure LifeInv (w : Lifetimes) : Prop where
  sound : ∀ (c : Nat) (o : ClientObj), w.clients[c]? = some o → o.Sound (w.borrowed c) (w.freeing.count c) (c ∈ w.room)
  room_nodup : w.room.Nodup
  room_lt : ∀ c ∈ w.room, c < w.clients.length
  borrows : ∀ b ∈ w.borrows, w.isActive b.1 = true ∧ b.2 < w.clients.length
  freeing_lt : ∀ c ∈ w.freeing, c < w.clients.length

variable {w w' : Lifetimes} {o o' : ClientObj} {c i borrowed freeing : Nat} {inRoom : Prop}

theorem lifeInv_init : LifeInv .init where
  sound c o h := by cases h
  room_nodup := List.nodup_nil
  room_lt c h := by cases h
  borrows b h := by cases h
  freeing_lt c h := by cases h

/-- While somebody holds a reference, the client is not freed. -/
theorem ClientObj.Sound.alive (h : o.Sound borrowed freeing inRoom)
    (hheld : o.spot.holdsMain = true ∨ 0 < borrowed) : 0 < o.refCount ∧ o.frees = 0 ∧ freeing = 0 := by
  have hpos : 0 < o.refCount := by
    rw [h.count]
    rcases hheld with hmain | hborrowed
    · rw [hmain, Bool.toNat_true]
      omega
    · omega
  have hfreed := h.freed
  rw [if_neg (by omega)] at hfreed
  exact ⟨hpos, by omega, by omega⟩

/-- Nothing changes but where the session is. -/
theorem ClientObj.Sound.move (h : o.Sound borrowed freeing inRoom) {inRoom' : Prop} {spot : LifeSpot} {hooked : Bool}
    (hmain : spot.holdsMain = o.spot.holdsMain) (hcallback : spot.holdsCallback = o.spot.holdsCallback)
    (hhooked : hooked = spot.isHooked) (hroom : inRoom' ↔ spot = .active true) :
    ClientObj.Sound { o with spot := spot, hooked := hooked } borrowed freeing inRoom' where
  count := by
    rw [h.count]
    simp only [hmain]
  freed := h.freed
  callback := h.callback.trans hcallback.symm
  hooked := hhooked
  member := hroom

/-- A reference is taken while the session holds its own. -/
theorem ClientObj.Sound.addref (h : o.Sound borrowed freeing inRoom) (halive : o.spot.holdsMain = true)
    (borrowed' : Nat) {spot : LifeSpot} {callbackRef : Bool}
    (hheld : spot.holdsMain.toNat + callbackRef.toNat + borrowed' =
      o.spot.holdsMain.toNat + o.callbackRef.toNat + borrowed + 1)
    (hcallback : callbackRef = spot.holdsCallback) (hhooked : spot.isHooked = o.spot.isHooked)
    (hroom : inRoom ↔ spot = .active true) :
    ClientObj.Sound { o with refCount := o.refCount + 1, spot := spot, callbackRef := callbackRef } borrowed' freeing
      inRoom where
  count := by
    have hcount := h.count
    simp only
    omega
  freed := by
    obtain ⟨hpos, hfrees, hfreeing⟩ := h.alive (.inl halive)
    rw [hfrees, hfreeing, if_neg]
    simp only
    omega
  callback := hcallback
  hooked := h.hooked.trans hhooked.symm
  member := hroom

/-- A reference is released, by the session or somebody else. -/
theorem ClientObj.Sound.release (h : o.Sound borrowed freeing inRoom) (borrowed' : Nat) {spot : LifeSpot}
    {callbackRef : Bool}
    (hheld : spot.holdsMain.toNat + callbackRef.toNat + borrowed' + 1 =
      o.spot.holdsMain.toNat + o.callbackRef.toNat + borrowed)
    (hcallback : callbackRef = spot.holdsCallback) (hhooked : spot.isHooked = o.spot.isHooked)
    (hroom : inRoom ↔ spot = .active true) :
    ClientObj.Sound { o with refCount := o.refCount - 1, spot := spot, callbackRef := callbackRef } borrowed'
      (if o.refCount - 1 = 0 then freeing + 1 else freeing) inRoom where
  count := by
    have hcount := h.count
    simp only
    omega
  freed := by
    have hcount := h.count
    have hfreed := h.freed
    rw [if_neg (by omega)] at hfreed
    simp only
    split <;> omega
  callback := hcallback
  hooked := h.hooked.trans hhooked.symm
  member := hroom

/-! ## A step keeps it -/

theorem freeing_release (w : Lifetimes) (c : Nat) (o : ClientObj) :
    (w.release c o).freeing.count c = if o.refCount - 1 = 0 then w.freeing.count c + 1 else w.freeing.count c := by
  unfold Lifetimes.release
  dsimp only
  split
  · exact List.count_cons_self
  · rfl

theorem freeing_release_of_ne {d : Nat} (hne : d ≠ c) (w : Lifetimes) (o : ClientObj) :
    (w.release c o).freeing.count d = w.freeing.count d := by
  unfold Lifetimes.release
  dsimp only
  split
  · exact List.count_cons_of_ne hne.symm
  · rfl

/-- One client is written, and what the others count is as it was. -/
theorem LifeInv.set (hi : LifeInv w) (ho : w.clients[i]? = some o) (hclients : w'.clients = w.clients.set i o')
    (hsound : o'.Sound (w'.borrowed i) (w'.freeing.count i) (i ∈ w'.room))
    (hborrowed : ∀ d ≠ i, w'.borrowed d = w.borrowed d) (hfreeing : ∀ d ≠ i, w'.freeing.count d = w.freeing.count d)
    (hroom : ∀ d ≠ i, d ∈ w'.room ↔ d ∈ w.room) (hnodup : w'.room.Nodup)
    (hborrows : ∀ b ∈ w'.borrows, w'.isActive b.1 = true ∧ b.2 < w.clients.length) : LifeInv w' := by
  have hlt : i < w.clients.length := (List.getElem?_eq_some_iff.1 ho).1
  have hlength : w'.clients.length = w.clients.length := by rw [hclients, List.length_set]
  refine ⟨fun d p hp => ?_, hnodup, fun d hd => ?_, fun b hb => ?_, fun d hd => ?_⟩
  · rw [hclients] at hp
    rcases eq_or_ne d i with rfl | hne
    · rw [List.getElem?_set_self hlt] at hp
      exact Option.some.inj hp ▸ hsound
    · rw [List.getElem?_set_ne hne.symm] at hp
      rw [hborrowed d hne, hfreeing d hne, hroom d hne]
      exact hi.sound d p hp
  · rw [hlength]
    rcases eq_or_ne d i with rfl | hne
    · exact hlt
    · exact hi.room_lt d ((hroom d hne).1 hd)
  · rw [hlength]
    exact hborrows b hb
  · rw [hlength]
    rcases eq_or_ne d i with rfl | hne
    · exact hlt
    · rw [← List.count_pos_iff, hfreeing d hne, List.count_pos_iff] at hd
      exact hi.freeing_lt d hd

theorem isActive_set {owner : Option Nat} (ho : w.clients[i]? = some o) (hclients : w'.clients = w.clients.set i o')
    (h : w.isActive owner = true) (hkeep : owner = some i → o.spot.isActive = true → o'.spot.isActive = true) :
    w'.isActive owner = true := by
  have hlt : i < w.clients.length := (List.getElem?_eq_some_iff.1 ho).1
  cases owner with
  | none => rfl
  | some d =>
    simp only [Lifetimes.isActive, hclients] at h ⊢
    rcases eq_or_ne d i with rfl | hne
    · rw [ho] at h
      rw [List.getElem?_set_self hlt]
      exact hkeep rfl h
    · rw [List.getElem?_set_ne hne.symm]
      exact h

/-- The session of a client goes on while it has nothing borrowed. -/
theorem LifeInv.session (hi : LifeInv w) (ho : w.clients[i]? = some o)
    (hidle : ¬ ∃ b ∈ w.borrows, b.1 = some i) (hclients : w'.clients = w.clients.set i o')
    (hborrows : w'.borrows = w.borrows) (hsound : o'.Sound (w.borrowed i) (w'.freeing.count i) (i ∈ w'.room))
    (hfreeing : ∀ d ≠ i, w'.freeing.count d = w.freeing.count d)
    (hroom : ∀ d ≠ i, d ∈ w'.room ↔ d ∈ w.room) (hnodup : w'.room.Nodup) : LifeInv w' := by
  have hborrowed : w'.borrowed = w.borrowed := by
    funext d
    rw [Lifetimes.borrowed, Lifetimes.borrowed, hborrows]
  refine hi.set ho hclients (hborrowed ▸ hsound) (fun d _ => by rw [hborrowed]) hfreeing hroom hnodup fun b hb => ?_
  rw [hborrows] at hb
  refine ⟨isActive_set ho hclients (hi.borrows b hb).1 fun howner => ?_, (hi.borrows b hb).2⟩
  exact absurd ⟨b, hb, howner⟩ hidle

/-- It releases a reference. -/
theorem LifeInv.session_release (hi : LifeInv w) (ho : w.clients[i]? = some o)
    (hidle : ¬ ∃ b ∈ w.borrows, b.1 = some i) {spot : LifeSpot} {callbackRef : Bool}
    (hheld : spot.holdsMain.toNat + callbackRef.toNat + 1 = o.spot.holdsMain.toNat + o.callbackRef.toNat)
    (hcallback : callbackRef = spot.holdsCallback) (hhooked : spot.isHooked = o.spot.isHooked)
    (hspot : spot ≠ .active true) (hout : o.spot ≠ .active true) :
    LifeInv (w.release i { o with spot := spot, callbackRef := callbackRef }) := by
  have hold := hi.sound i o ho
  have hroom : i ∈ w.room ↔ spot = .active true := by
    rw [hold.member]
    exact iff_of_false hout hspot
  have hsound := hold.release (w.borrowed i) (by omega) hcallback hhooked hroom
  refine hi.session ho hidle rfl rfl ?_ (fun d hne => freeing_release_of_ne hne w _) (fun _ _ => .rfl) hi.room_nodup
  rw [freeing_release]
  exact hsound

/-- It goes on and keeps its references. -/
theorem LifeInv.session_move (hi : LifeInv w) (ho : w.clients[i]? = some o)
    (hidle : ¬ ∃ b ∈ w.borrows, b.1 = some i) {spot : LifeSpot} {hooked : Bool} {room : List Nat}
    (hmain : spot.holdsMain = o.spot.holdsMain) (hcallback : spot.holdsCallback = o.spot.holdsCallback)
    (hhooked : hooked = spot.isHooked) (hself : i ∈ room ↔ spot = .active true)
    (hroom : ∀ d ≠ i, d ∈ room ↔ d ∈ w.room) (hnodup : room.Nodup) :
    LifeInv { w.put i { o with spot := spot, hooked := hooked } with room := room } :=
  hi.session ho hidle rfl rfl ((hi.sound i o ho).move hmain hcallback hhooked hself) (fun _ _ => rfl) hroom hnodup

theorem sessionOp_inv (hi : LifeInv w) (ho : w.clients[i]? = some o) (hidle : ¬ ∃ b ∈ w.borrows, b.1 = some i)
    {op : SessionOp} (h : sessionOp w i o op = some w') : LifeInv w' := by
  have hold := hi.sound i o ho
  have hcallback := hold.callback
  have hmember := hold.member
  cases op with
  | addCallbackRef =>
    simp only [sessionOp, Option.ite_none_right_eq_some, Option.some.injEq] at h
    obtain ⟨hspot, rfl⟩ := h
    rw [hspot] at hcallback hmember
    refine hi.session ho hidle rfl rfl (hold.addref (by rw [hspot]; rfl) _ ?_ rfl (by rw [hspot]; rfl) ?_)
      (fun _ _ => rfl)
      (fun _ _ => .rfl) hi.room_nodup
    · rw [hcallback, hspot]
      simp only [LifeSpot.holdsMain, LifeSpot.holdsCallback, Bool.toNat_true, Bool.toNat_false]
      omega
    · exact hmember.trans (by simp)
  | installFails =>
    simp only [sessionOp, Option.ite_none_right_eq_some, Option.some.injEq] at h
    obtain ⟨hspot, rfl⟩ := h
    rw [hspot] at hcallback
    exact hi.session_release ho hidle (by rw [hcallback, hspot]; rfl) rfl (by rw [hspot]; rfl) (by simp)
      (by simp [hspot])
  | installs =>
    simp only [sessionOp, Option.ite_none_right_eq_some, Option.some.injEq] at h
    obtain ⟨hspot, rfl⟩ := h
    rw [hspot] at hmember
    exact hi.session_move ho hidle (by rw [hspot]; rfl) (by rw [hspot]; rfl) rfl (hmember.trans (by simp))
      (fun _ _ => .rfl) hi.room_nodup
  | releaseFailed =>
    simp only [sessionOp, Option.ite_none_right_eq_some, Option.some.injEq] at h
    obtain ⟨hspot, rfl⟩ := h
    rw [hspot] at hcallback
    exact hi.session_release ho hidle (by rw [hcallback, hspot]; rfl) hcallback (by rw [hspot]; rfl) (by simp)
      (by simp [hspot])
  | join =>
    simp only [sessionOp, Option.ite_none_right_eq_some, Option.some.injEq] at h
    obtain ⟨hspot, rfl⟩ := h
    rw [hspot] at hmember
    -- A client that is about to join is not in the room yet, so it is in there once.
    have hout : i ∉ w.room := fun hin => by cases hmember.1 hin
    exact hi.session_move ho hidle (by rw [hspot]; rfl) (by rw [hspot]; rfl) (hold.hooked.trans (by rw [hspot]; rfl))
      (by simp)
      (fun d hne => by simp [hne]) (List.nodup_append.2 ⟨hi.room_nodup, List.nodup_singleton i, by
        rintro a ha b hb rfl
        exact hout (List.mem_singleton.1 hb ▸ ha)⟩)
  | use =>
    simp only [sessionOp, Option.ite_none_left_eq_some, Option.some.injEq] at h
    exact h.2 ▸ hi
  | leave =>
    simp only [sessionOp] at h
    split at h <;> cases h
    · rename_i hspot
      exact hi.session_move ho hidle (by rw [hspot]; rfl) (by rw [hspot]; rfl) (hold.hooked.trans (by rw [hspot]; rfl))
        (iff_of_false hi.room_nodup.not_mem_erase (by simp)) (fun d hne => List.mem_erase_of_ne hne)
        (hi.room_nodup.erase i)
    · rename_i hspot
      rw [hspot] at hmember
      exact hi.session_move ho hidle (by rw [hspot]; rfl) (by rw [hspot]; rfl) (hold.hooked.trans (by rw [hspot]; rfl))
        (hmember.trans (by simp)) (fun _ _ => .rfl) hi.room_nodup
  | unhook =>
    simp only [sessionOp, Option.ite_none_right_eq_some, Option.some.injEq] at h
    obtain ⟨hspot, rfl⟩ := h
    rw [hspot] at hmember
    exact hi.session_move ho hidle (by rw [hspot]; rfl) (by rw [hspot]; rfl) rfl (hmember.trans (by simp))
      (fun _ _ => .rfl) hi.room_nodup
  | dropCallbackRef =>
    simp only [sessionOp, Option.ite_none_right_eq_some] at h
    obtain ⟨hspot, h⟩ := h
    rw [hspot] at hcallback
    -- The reference that is dropped is the callback's own.
    rw [hcallback] at h
    cases h
    exact hi.session_release ho hidle (by rw [hcallback, hspot]; rfl) rfl (by rw [hspot]; rfl) (by simp)
      (by simp [hspot])
  | releaseMain =>
    simp only [sessionOp, Option.ite_none_right_eq_some, Option.some.injEq] at h
    obtain ⟨hspot, rfl⟩ := h
    rw [hspot] at hcallback
    exact hi.session_release ho hidle (by rw [hcallback, hspot]; rfl) hcallback (by rw [hspot]; rfl) (by simp)
      (by simp [hspot])

theorem lifeInv_bootstrap (hi : LifeInv w) : LifeInv { w with clients := w.clients ++ [.init] } := by
  have hborrowed : w.borrowed w.clients.length = 0 := by
    apply List.countP_eq_zero.2
    intro b hb
    rw [decide_eq_true_eq]
    exact Nat.ne_of_lt (hi.borrows b hb).2
  have hcount : w.freeing.count w.clients.length = 0 :=
    List.count_eq_zero.2 fun h => Nat.lt_irrefl _ (hi.freeing_lt _ h)
  have hroom : w.clients.length ∉ w.room := fun h => Nat.lt_irrefl _ (hi.room_lt _ h)
  have hlength : (w.clients ++ [ClientObj.init]).length = w.clients.length + 1 := List.length_append
  refine ⟨fun c o ho => ?_, hi.room_nodup, fun c hc => ?_, fun b hb => ?_, fun c hc => ?_⟩
  · rcases Nat.lt_or_ge c w.clients.length with hlt | hge
    · rw [List.getElem?_append_left hlt] at ho
      exact hi.sound c o ho
    · have hlt : c < (w.clients ++ [ClientObj.init]).length := (List.getElem?_eq_some_iff.1 ho).1
      obtain rfl : c = w.clients.length := by omega
      rw [List.getElem?_concat_length] at ho
      cases ho
      refine ⟨?_, ?_, rfl, rfl, iff_of_false hroom nofun⟩
      · show (1 : Int) = ((1 + 0 + w.borrowed w.clients.length : Nat) : Int)
        rw [hborrowed]
        rfl
      · show 0 + w.freeing.count w.clients.length = 0
        rw [hcount]
  · rw [hlength]
    exact Nat.lt_succ_of_lt (hi.room_lt c hc)
  · rw [hlength]
    obtain ⟨howner, hlt⟩ := hi.borrows b hb
    refine ⟨?_, Nat.lt_succ_of_lt hlt⟩
    obtain ⟨owner, target⟩ := b
    cases owner with
    | none => rfl
    | some d =>
      simp only [Lifetimes.isActive, Option.any_eq_true] at howner ⊢
      obtain ⟨o, ho, hactive⟩ := howner
      exact ⟨o, by rw [List.getElem?_append_left (List.getElem?_eq_some_iff.1 ho).1, ho], hactive⟩
  · rw [hlength]
    exact Nat.lt_succ_of_lt (hi.freeing_lt c hc)

theorem lifeInv_borrow (hi : LifeInv w) (ho : w.clients[i]? = some o) {owner : Option Nat}
    (howner : w.isActive owner = true) (hin : i ∈ w.room) :
    LifeInv { w.addref i o with borrows := (owner, i) :: w.borrows } := by
  have hold := hi.sound i o ho
  have hspot : o.spot = .active true := hold.member.1 hin
  have hborrowed : w.borrowed i + 1 = ((owner, i) :: w.borrows).countP (·.2 = i) :=
    (List.countP_cons_of_pos (by simp)).symm
  have hsound := hold.addref (by rw [hspot]; rfl) (w.borrowed i + 1) (Nat.add_assoc _ _ 1).symm hold.callback
    rfl hold.member
  rw [hborrowed] at hsound
  refine hi.set ho rfl hsound (fun d hne => List.countP_cons_of_neg (by simpa using hne.symm)) (fun _ _ => rfl)
    (fun _ _ => .rfl) hi.room_nodup fun b hb => ?_
  rcases List.mem_cons.1 hb with rfl | hb
  · exact ⟨isActive_set ho rfl howner fun _ h => h, hi.room_lt i hin⟩
  · exact ⟨isActive_set ho rfl (hi.borrows b hb).1 fun _ h => h, (hi.borrows b hb).2⟩

theorem lifeInv_giveBack (hi : LifeInv w) {b : Borrow} (ho : w.clients[b.2]? = some o) (hb : b ∈ w.borrows) :
    LifeInv { w.release b.2 o with borrows := w.borrows.erase b } := by
  have hold := hi.sound b.2 o ho
  have hsplit (d : Nat) : w.borrowed d = (w.borrows.erase b).countP (·.2 = d) + if b.2 = d then 1 else 0 := by
    rw [Lifetimes.borrowed, (List.perm_cons_erase hb).countP_eq, List.countP_cons]
    simp only [decide_eq_true_eq]
  have hself := hsplit b.2
  rw [if_pos rfl] at hself
  have hsound := hold.release ((w.borrows.erase b).countP (·.2 = b.2)) (by omega) hold.callback rfl hold.member
  refine hi.set ho rfl ?_ (fun d hne => ?_) (fun d hne => freeing_release_of_ne hne w o) (fun _ _ => .rfl) hi.room_nodup
    fun x hx => ?_
  · show ClientObj.Sound _ _ ((w.release b.2 o).freeing.count b.2) _
    rw [freeing_release]
    exact hsound
  · rw [hsplit d, if_neg hne.symm]
    rfl
  · have hmem := List.mem_of_mem_erase hx
    exact ⟨isActive_set ho rfl (hi.borrows x hmem).1 fun _ h => h, (hi.borrows x hmem).2⟩

theorem lifeInv_free (hi : LifeInv w) (ho : w.clients[i]? = some o) (hfreeing : i ∈ w.freeing) :
    LifeInv { w.put i { o with frees := o.frees + 1 } with freeing := w.freeing.erase i } := by
  have hold := hi.sound i o ho
  have hpos : 0 < w.freeing.count i := List.count_pos_iff.2 hfreeing
  refine hi.set ho rfl ⟨hold.count, ?_, hold.callback, hold.hooked, hold.member⟩ (fun _ _ => rfl)
    (fun d hne => List.count_erase_of_ne hne) (fun _ _ => .rfl) hi.room_nodup fun b hb => ?_
  · have hfreed := hold.freed
    show o.frees + 1 + (w.freeing.erase i).count i = if o.refCount = 0 then 1 else 0
    rw [List.count_erase_self]
    omega
  · exact ⟨isActive_set ho rfl (hi.borrows b hb).1 fun _ h => h, (hi.borrows b hb).2⟩

theorem lifeInv_step (hi : LifeInv w) {e : LifeEvent} (h : lifeStep w e = some w') : LifeInv w' := by
  cases e with
  | bootstrap =>
    cases h
    exact lifeInv_bootstrap hi
  | session i op =>
    simp only [lifeStep, Option.bind_eq_bind, Option.bind_eq_some_iff, Option.ite_none_left_eq_some] at h
    obtain ⟨o, ho, hidle, hop⟩ := h
    exact sessionOp_inv hi ho hidle hop
  | callback i =>
    simp only [lifeStep, Option.bind_eq_bind, Option.bind_eq_some_iff, Option.ite_none_right_eq_some,
      Option.some.injEq] at h
    obtain ⟨-, -, -, rfl⟩ := h
    exact hi
  | look =>
    cases h
    exact hi
  | borrow owner target =>
    simp only [lifeStep, Option.bind_eq_bind, Option.bind_eq_some_iff, Option.ite_none_right_eq_some,
      Option.some.injEq] at h
    obtain ⟨o, ho, ⟨howner, hin⟩, rfl⟩ := h
    exact lifeInv_borrow hi ho howner hin
  | use b =>
    simp only [lifeStep, Option.ite_none_right_eq_some, Option.some.injEq] at h
    exact h.2 ▸ hi
  | giveBack b =>
    simp only [lifeStep, Option.bind_eq_bind, Option.bind_eq_some_iff, Option.ite_none_right_eq_some,
      Option.some.injEq] at h
    obtain ⟨o, ho, hb, rfl⟩ := h
    exact lifeInv_giveBack hi ho hb
  | free c =>
    simp only [lifeStep, Option.bind_eq_bind, Option.bind_eq_some_iff, Option.ite_none_right_eq_some,
      Option.some.injEq] at h
    obtain ⟨o, ho, hfreeing, rfl⟩ := h
    exact lifeInv_free hi ho hfreeing

/-- A client that somebody holds is there. -/
theorem LifeInv.alive (hi : LifeInv w) (ho : w.clients[c]? = some o)
    (hheld : o.spot.holdsMain = true ∨ ∃ b ∈ w.borrows, b.2 = c) : o.frees = 0 := by
  refine ((hi.sound c o ho).alive (hheld.imp_right ?_)).2.1
  rintro ⟨b, hb, rfl⟩
  exact List.countP_pos_iff.2 ⟨b, hb, decide_eq_true rfl⟩

theorem LifeInv.alive_of_mem_room (hi : LifeInv w) (hc : c ∈ w.room) : ∃ o, w.clients[c]? = some o ∧ o.frees = 0 := by
  obtain ⟨o, ho⟩ : ∃ o, w.clients[c]? = some o := ⟨_, List.getElem?_eq_getElem (hi.room_lt c hc)⟩
  have hspot : o.spot = .active true := (hi.sound c o ho).member.1 hc
  exact ⟨o, ho, hi.alive ho (.inl (by rw [hspot]; rfl))⟩

theorem LifeInv.alive_of_isActive (hi : LifeInv w) {owner : Option Nat} (howner : w.isActive owner = true)
    (hc : c ∈ owner.toList) : ∃ o, w.clients[c]? = some o ∧ o.frees = 0 := by
  obtain rfl := Option.mem_toList.1 hc
  simp only [Lifetimes.isActive, Option.any_eq_true] at howner
  obtain ⟨o, ho, hactive⟩ := howner
  refine ⟨o, ho, hi.alive ho (.inl ?_)⟩
  unfold LifeSpot.isActive at hactive
  split at hactive
  · rename_i hspot
    rw [hspot]
    rfl
  · cases hactive

theorem sessionOp_holds {op : SessionOp} (h : sessionOp w i o op = some w') : o.spot.holdsMain = true := by
  cases hspot : o.spot with
  | done => cases op <;> simp [sessionOp, hspot] at h
  | _ => rfl

/-- No step touches a client that was freed. -/
theorem touches_alive (hi : LifeInv w) {e : LifeEvent} (h : lifeStep w e = some w') (hc : c ∈ w.touches e) :
    ∃ o, w.clients[c]? = some o ∧ o.frees = 0 := by
  cases e with
  | bootstrap => cases hc
  | session i op =>
    simp only [lifeStep, Option.bind_eq_bind, Option.bind_eq_some_iff, Option.ite_none_left_eq_some] at h
    obtain ⟨o, ho, -, hop⟩ := h
    obtain rfl := List.mem_singleton.1 hc
    exact ⟨o, ho, hi.alive ho (.inl (sessionOp_holds hop))⟩
  | callback i =>
    simp only [lifeStep, Option.bind_eq_bind, Option.bind_eq_some_iff, Option.ite_none_right_eq_some] at h
    obtain ⟨o, ho, hhooked, -⟩ := h
    obtain rfl := List.mem_singleton.1 hc
    rw [(hi.sound _ o ho).hooked] at hhooked
    refine ⟨o, ho, hi.alive ho (.inl ?_)⟩
    cases hspot : o.spot with
    | done => rw [hspot] at hhooked; cases hhooked
    | _ => rfl
  | look => exact hi.alive_of_mem_room hc
  | borrow owner target =>
    simp only [lifeStep, Option.bind_eq_bind, Option.bind_eq_some_iff, Option.ite_none_right_eq_some] at h
    obtain ⟨-, -, ⟨howner, -⟩, -⟩ := h
    rcases List.mem_append.1 hc with hc | hc
    · exact hi.alive_of_isActive howner hc
    · exact hi.alive_of_mem_room hc
  | use b =>
    simp only [lifeStep, Option.ite_none_right_eq_some] at h
    obtain ⟨howner, hlt⟩ := hi.borrows b h.1
    rcases List.mem_append.1 hc with hc | hc
    · exact hi.alive_of_isActive howner hc
    · obtain rfl := List.mem_singleton.1 hc
      exact ⟨_, List.getElem?_eq_getElem hlt, hi.alive (List.getElem?_eq_getElem hlt) (.inr ⟨b, h.1, rfl⟩)⟩
  | giveBack b =>
    simp only [lifeStep, Option.bind_eq_bind, Option.bind_eq_some_iff, Option.ite_none_right_eq_some] at h
    obtain ⟨o, ho, hb, -⟩ := h
    obtain rfl := List.mem_singleton.1 hc
    exact ⟨o, ho, hi.alive ho (.inr ⟨b, hb, rfl⟩)⟩
  | free c =>
    simp only [lifeStep, Option.bind_eq_bind, Option.bind_eq_some_iff, Option.ite_none_right_eq_some] at h
    obtain ⟨o, ho, hfreeing, -⟩ := h
    obtain rfl := List.mem_singleton.1 hc
    have hfreed := (hi.sound _ o ho).freed
    have hpos := List.count_pos_iff.2 hfreeing
    exact ⟨o, ho, by split at hfreed <;> omega⟩

/-- A client is counted by its holders, and is freed once, when there are none. Its session has then made its
last step with it, it is not in the room, libssh does not know it, and nobody has borrowed it or is borrowing
for it. No step touches a client that was freed. -/
theorem client_lifetime (w : Lifetimes) (hw : Reachable lifeStep .init w) :
    (∀ (c : Nat) (o : ClientObj), w.clients[c]? = some o →
      o.refCount = w.holders c o ∧ o.frees + w.freeing.count c = (if w.holders c o = 0 then 1 else 0) ∧
      (w.holders c o = 0 → o.spot = .done ∧ o.hooked = false ∧ c ∉ w.room ∧ ∀ b ∈ w.borrows, b.1 ≠ some c ∧ b.2 ≠ c)) ∧
    ∀ e w', lifeStep w e = some w' → ∀ c ∈ w.touches e, ∃ o, w.clients[c]? = some o ∧ o.frees = 0 := by
  have hi : LifeInv w := hw.inv LifeInv (fun _ _ _ hi h => lifeInv_step hi h) lifeInv_init
  refine ⟨fun c o ho => ?_, fun e w' h c hc => touches_alive hi h hc⟩
  have hsound := hi.sound c o ho
  have hcount : o.refCount = w.holders c o := hsound.count
  refine ⟨hcount, ?_, fun hnone => ?_⟩
  · rw [hsound.freed, hcount]
    simp only [Int.natCast_eq_zero]
  · simp only [Lifetimes.holders, Nat.add_eq_zero_iff, Bool.toNat_eq_zero] at hnone
    have hspot : o.spot = .done := by
      cases hspot : o.spot with
      | done => rfl
      | _ => rw [hspot] at hnone; cases hnone.1.1
    refine ⟨hspot, ?_, fun hroom => ?_, fun b hb => ⟨fun howner => ?_, fun htarget => ?_⟩⟩
    · rw [hsound.hooked, hspot]
      rfl
    · rw [hsound.member, hspot] at hroom
      cases hroom
    · have hactive := (hi.borrows b hb).1
      rw [howner, Lifetimes.isActive, ho, Option.any_some, hspot] at hactive
      cases hactive
    · have := List.countP_eq_zero.1 hnone.2 b hb
      exact this (decide_eq_true htarget)

/-- A session is mentioned, and is over before the one that mentions it gives its client back. -/
def mentioned : List LifeEvent :=
  [.bootstrap, .session 0 .addCallbackRef, .session 0 .installs, .session 0 .join,
    .bootstrap, .session 1 .addCallbackRef, .session 1 .installs, .session 1 .join, .borrow (some 0) 1,
    .session 1 .leave, .session 1 .unhook, .session 1 .dropCallbackRef, .session 1 .releaseMain,
    .use (some 0, 1), .giveBack (some 0, 1), .free 1]

theorem client_lifetime_mentioned : ∃ w, exec lifeStep .init mentioned = some w ∧
    w.clients.map (·.frees) = [0, 1] ∧ ∀ o, w.clients[1]? = some o → w.holders 1 o = 0 → o.spot = .done := by
  obtain ⟨w, hw⟩ := Option.isSome_iff_exists.1 (show (exec lifeStep .init mentioned).isSome = true by decide +kernel)
  have hfrees : (exec lifeStep .init mentioned).map (·.clients.map (·.frees)) = some [0, 1] := by decide +kernel
  rw [hw] at hfrees
  exact ⟨w, hw, Option.some.inj hfrees, fun o ho hnone => (((client_lifetime w ⟨mentioned, hw⟩).1 1 o ho).2.2 hnone).1⟩

end Tnt
