import Tnt.Lib.Chains
import Tnt.Board
/-!
# The event queue of the module runtime (`module_runtime.c`)

Any thread may offer an event; the worker takes them out; the server stops the worker
and frees what is left. The queue is linked cells with a head, a tail and a count.
`queueStep` takes one critical section of `g_queue_lock`, or one step of the loops of
the worker and of the shutdown outside of it.
-/
open BaseLib

namespace Tnt

/-- Where the thread of `module_worker_main` is. -/
inductive WorkerAt
  | absent
  /-- At `while (g_running)`. -/
  | check
  /-- In `dequeue_message`. -/
  | dequeue
  /-- With the node at this address. -/
  | deliver (node : Nat)
  | exited
  deriving DecidableEq

/-- Where `tnt_module_runtime_shutdown` is. -/
inductive ShutdownAt
  | idle
  /-- In `pthread_join`. -/
  | join
  /-- In the loop that frees the nodes. -/
  | drain
  deriving DecidableEq

/-- The globals of the queue, and its threads. -/
structure EventQueue where
  running : Bool
  head : Option Nat
  tail : Option Nat
  len : Nat
  nodes : Heap Message
  worker : WorkerAt
  shutdown : ShutdownAt

namespace EventQueue

/-- Before `tnt_module_runtime_init`. -/
def initial : EventQueue := ⟨false, none, none, 0, fun _ => none, .absent, .idle⟩

/-- `enqueue_message`, where `calloc` gives `node`; with whether the event was queued. -/
def enqueue (q : EventQueue) (node : Nat) (msg : Message) : EventQueue × Bool :=
  if !q.running ∨ q.len ≥ TNT_MODULE_QUEUE_LIMIT then (q, false)
  else
    let nodes := Function.update q.nodes node (some ⟨msg, none⟩)
    let q :=
      match q.tail with
      | some tail => { q with nodes := Heap.setNext nodes tail (some node) }
      | none => { q with nodes, head := some node }
    ({ q with tail := some node, len := q.len + 1 }, true)

/-- `dequeue_message` behind its loop, with the node it returns. -/
def dequeue (q : EventQueue) : EventQueue × Option Nat :=
  match q.head with
  | none => (q, none)
  | some node =>
    let next := (q.nodes node).bind Cell.next
    ({ q with head := next, tail := if next.isNone then none else q.tail, len := q.len - 1 }, some node)

/-- `free` -/
def free (q : EventQueue) (node : Nat) : EventQueue := { q with nodes := Function.update q.nodes node none }

/-- The events on the queue, where there are any: the message of the first. -/
def first (q : EventQueue) : Option Message := (q.head.bind q.nodes).map Cell.val

end EventQueue

inductive QueueEvent
  /-- `tnt_module_runtime_init`, with modules. -/
  | init
  /-- `enqueue_message` by any thread; `calloc` gives `node`, if it is called. -/
  | enqueue (node : Nat) (msg : Message)
  /-- The worker goes on. -/
  | work
  /-- The first section of `tnt_module_runtime_shutdown`. -/
  | stop
  /-- `tnt_module_runtime_shutdown` goes on. -/
  | finish

def queueStep (q : EventQueue) : QueueEvent → Option EventQueue
  | .init => if q.worker = .absent ∧ q.shutdown = .idle then some { q with running := true, worker := .check } else none
  | .enqueue node msg =>
    if (q.enqueue node msg).2 ∧ (q.nodes node).isSome then none else some (q.enqueue node msg).1
  | .work =>
    match q.worker with
    | .check => some { q with worker := if q.running then .dequeue else .exited }
    | .dequeue =>
      -- pthread_cond_wait
      if q.running ∧ q.head.isNone then none
      else
        let (q, node) := q.dequeue
        some { q with worker := node.elim .check .deliver }
    | .deliver node => some { q.free node with worker := .check }
    | _ => none
  | .stop => if q.shutdown = .idle then some { q with running := false, shutdown := .join } else none
  | .finish =>
    match q.shutdown with
    | .join =>
      if q.worker = .absent ∨ q.worker = .exited then some { q with worker := .absent, shutdown := .drain } else none
    | .drain =>
      match q.head with
      | some node => some ({ q with head := (q.nodes node).bind Cell.next }.free node)
      | none => some { q with tail := none, len := 0, shutdown := .idle }
    | .idle => none

/-! ## What is seen of a run -/

/-- The events that are offered. -/
def offered (_ : EventQueue) : QueueEvent → List Message
  | .enqueue _ msg => [msg]
  | _ => []

/-- Those that are queued. -/
def queued (q : EventQueue) : QueueEvent → List Message
  | .enqueue node msg => if (q.enqueue node msg).2 then [msg] else []
  | _ => []

/-- Those that the worker takes. -/
def dequeued (q : EventQueue) : QueueEvent → List Message
  | .work => if q.worker = .dequeue then q.first.toList else []
  | _ => []

/-- Those that are freed at the end. -/
def drained (q : EventQueue) : QueueEvent → List Message
  | .finish => if q.shutdown = .drain then q.first.toList else []
  | _ => []

def taken (q : EventQueue) (e : QueueEvent) : List Message := dequeued q e ++ drained q e

/-- Those that nobody will see: refused, or freed. -/
def dropped (q : EventQueue) : QueueEvent → List Message
  | .enqueue node msg => if (q.enqueue node msg).2 then [] else [msg]
  | e => drained q e

/-! ## The invariant -/

/-- The cells from the head on. Outside of the loop that frees them, the tail and the count belong to them. -/
structure EventQueue.Holds (q : EventQueue) (cells : List (Nat × Message)) : Prop where
  chain : Chain q.nodes q.head cells
  nodup : (cells.map Prod.fst).Nodup
  linked : q.shutdown ≠ .drain → Linked q.nodes q.head q.tail cells ∧ q.len = cells.length
  len_le : q.len ≤ TNT_MODULE_QUEUE_LIMIT
  /-- Nobody is there while the nodes are freed. -/
  stopped : q.shutdown ≠ .idle → q.running = false
  drain : q.shutdown = .drain → q.worker = .absent
  absent : q.worker = .absent → q.running = false
  /-- The node that the worker has is its own. -/
  own : ∀ node, q.worker = .deliver node → q.nodes node ≠ none ∧ node ∉ cells.map Prod.fst

namespace EventQueue

variable {q q' : EventQueue} {cells : List (Nat × Message)} {node : Nat} {msg : Message}

theorem holds_initial : initial.Holds [] where
  chain := rfl
  nodup := List.nodup_nil
  linked _ := ⟨.nil _, rfl⟩
  len_le := Nat.zero_le _
  stopped _ := rfl
  drain h := by cases h
  absent _ := rfl
  own _ h := by cases h

theorem Holds.first (h : q.Holds cells) : q.first = (cells.map Prod.snd).head? := by
  have hchain := h.chain
  unfold EventQueue.first
  cases cells with
  | nil =>
    rw [chain_nil.1 hchain]
    rfl
  | cons cell cells =>
    obtain ⟨hp, next, hcell, -⟩ := hchain
    rw [hp, Option.bind_some, hcell]
    rfl

/-- While the worker runs nothing is freed, so that the whole queue is linked. -/
theorem Holds.idle (h : q.Holds cells) (hrun : q.running = true) : q.shutdown = .idle := by
  by_contra hne
  rw [h.stopped hne] at hrun
  cases hrun

theorem enqueue_snd : (q.enqueue node msg).2 = true ↔ q.running = true ∧ q.len < TNT_MODULE_QUEUE_LIMIT := by
  unfold enqueue
  split
  · rename_i hrefused
    constructor
    · intro hno
      cases hno
    · rintro ⟨hrun, hlen⟩
      rw [hrun] at hrefused
      exact absurd hlen (by simpa using hrefused)
  · rename_i hroom
    simpa using hroom

theorem enqueue_refused (h : (q.enqueue node msg).2 = false) : (q.enqueue node msg).1 = q := by
  unfold enqueue at h ⊢
  split at h
  · rw [if_pos ‹_›]
  · cases h

/-- An event that is queued comes to stand behind the others. -/
theorem Holds.enqueue (h : q.Holds cells) (hqueued : (q.enqueue node msg).2 = true) (hfree : q.nodes node = none) :
    (q.enqueue node msg).1.Holds (cells ++ [(node, msg)]) := by
  obtain ⟨hrun, hlen⟩ := enqueue_snd.1 hqueued
  have hidle := h.idle hrun
  obtain ⟨hlinked, hcount⟩ := h.linked (by rw [hidle]; decide)
  have hguard : ¬(!q.running ∨ q.len ≥ TNT_MODULE_QUEUE_LIMIT) := by
    rw [hrun]
    simpa using hlen
  have hown : ∀ n, q.worker = .deliver n →
      Function.update q.nodes node (some ⟨msg, none⟩) n ≠ none ∧ n ∉ (cells ++ [(node, msg)]).map Prod.fst := by
    intro n hn
    obtain ⟨hthere, hnotin⟩ := h.own n hn
    have hne : n ≠ node := fun heq => hthere (heq ▸ hfree)
    rw [Function.update_of_ne hne]
    exact ⟨hthere, by simpa [hne] using hnotin⟩
  unfold EventQueue.enqueue
  rw [if_neg hguard]
  cases htail : q.tail with
  | none =>
    obtain rfl : cells = [] := hlinked.tail_none.1 htail
    have happend := Linked.singleton q.nodes node msg
    exact ⟨happend.chain, happend.nodup, fun _ => ⟨happend, by simp [hcount]⟩, hlen, h.stopped, h.drain, h.absent, hown⟩
  | some tail =>
    have happend := (htail ▸ hlinked).append hfree msg
    refine ⟨happend.chain, happend.nodup, fun _ => ⟨happend, by simp [hcount]⟩, hlen, h.stopped, h.drain, h.absent, ?_⟩
    intro n hn
    obtain ⟨hthere, hnotin⟩ := hown n hn
    exact ⟨fun hnone => hthere (setNext_eq_none.1 hnone), hnotin⟩

/-- What is queued afterwards: `enqueueMessage`, on the list of the events. -/
theorem Holds.enqueueMessage (h : q.Holds cells) (hfree : (q.enqueue node msg).2 = true → q.nodes node = none) :
    ∃ cells', (q.enqueue node msg).1.Holds cells' ∧
      cells'.map Prod.snd = cells.map Prod.snd ++ queued q (.enqueue node msg) ∧
      cells'.map Prod.snd = Tnt.enqueueMessage q.running true (cells.map Prod.snd) msg := by
  unfold Tnt.enqueueMessage queued
  cases hqueued : (q.enqueue node msg).2 with
  | true =>
    obtain ⟨hrun, hlen⟩ := enqueue_snd.1 hqueued
    have hcount := (h.linked (by rw [h.idle hrun]; decide)).2
    refine ⟨_, h.enqueue hqueued (hfree hqueued), by simp [hqueued], ?_⟩
    rw [if_neg (by simp [hrun]; omega)]
    simp
  | false =>
    refine ⟨cells, by rwa [enqueue_refused hqueued], by simp [hqueued], ?_⟩
    cases hrun : q.running with
    | false => simp
    | true =>
      have hcount := (h.linked (by rw [h.idle hrun]; decide)).2
      have hfull : ¬q.len < TNT_MODULE_QUEUE_LIMIT := fun hlen => by
        rw [enqueue_snd.2 ⟨hrun, hlen⟩] at hqueued
        cases hqueued
      rw [if_pos (.inr (by simp; omega))]

/-- The worker gets the first event, or the queue is empty. -/
theorem Holds.dequeue (h : q.Holds cells) (hworker : q.worker = .dequeue) :
    ∃ cells', { q.dequeue.1 with worker := q.dequeue.2.elim .check .deliver }.Holds cells' ∧
      cells.map Prod.snd = q.first.toList ++ cells'.map Prod.snd := by
  have hidle : q.shutdown ≠ .drain := fun hdrain => by
    rw [h.drain hdrain] at hworker
    cases hworker
  obtain ⟨hlinked, hcount⟩ := h.linked hidle
  rw [h.first]
  unfold EventQueue.dequeue
  cases cells with
  | nil =>
    rw [hlinked.head_none.2 rfl]
    refine ⟨[], ⟨h.chain, h.nodup, h.linked, h.len_le, h.stopped, fun hd => absurd hd hidle, ?_, ?_⟩, rfl⟩
    · intro hn
      cases hn
    · intro n hn
      cases hn
  | cons cell cells =>
    obtain ⟨node, msg⟩ := cell
    obtain ⟨next, hcell, hrest, hnotin⟩ := hlinked.pop
    rw [(chain_cons.1 h.chain).1]
    simp only [hcell, Option.bind_some, Option.elim_some]
    refine ⟨cells, ⟨hrest.chain, hrest.nodup, fun _ => ⟨hrest, ?_⟩, ?_, h.stopped, fun hd => absurd hd hidle,
      ?_, ?_⟩, rfl⟩
    · simp only [hcount, List.length_cons, Nat.add_sub_cancel]
    · exact Nat.le_trans (Nat.sub_le _ _) h.len_le
    · intro hn
      cases hn
    · intro n hn
      cases hn
      exact ⟨by simp [hcell], hnotin⟩

/-- The worker frees the node that it has. -/
theorem Holds.deliver (h : q.Holds cells) (hworker : q.worker = .deliver node) :
    { q.free node with worker := .check }.Holds cells := by
  have hnotin := (h.own node hworker).2
  refine ⟨h.chain.update hnotin none, h.nodup, fun hd => ?_, h.len_le, h.stopped, fun hd => ?_, ?_, ?_⟩
  · obtain ⟨hlinked, hcount⟩ := h.linked hd
    exact ⟨⟨hlinked.chain.update hnotin none, hlinked.tail_eq, hlinked.nodup⟩, hcount⟩
  · rw [h.drain hd] at hworker
    cases hworker
  · intro hn
    cases hn
  · intro n hn
    cases hn

/-- The shutdown frees the first node. -/
theorem Holds.drainNode (h : q.Holds cells) (hdrain : q.shutdown = .drain) (hhead : q.head = some node) :
    ∃ cells', ({ q with head := (q.nodes node).bind Cell.next }.free node).Holds cells' ∧
      cells.map Prod.snd = q.first.toList ++ cells'.map Prod.snd := by
  have hchain := h.chain
  rw [h.first]
  cases cells with
  | nil =>
    rw [chain_nil.1 hchain] at hhead
    cases hhead
  | cons cell cells =>
    obtain ⟨a, msg⟩ := cell
    obtain ⟨ha, next, hcell, hrest⟩ := hchain
    obtain rfl : node = a := Option.some.inj (hhead.symm.trans ha)
    obtain ⟨hnotin, hnodup⟩ := List.nodup_cons.1 h.nodup
    refine ⟨cells, ⟨?_, hnodup, fun hd => absurd hdrain hd, h.len_le, h.stopped, h.drain, h.absent, ?_⟩, rfl⟩
    · rw [hcell]
      exact hrest.update hnotin none
    · intro n hn
      rw [free, h.drain hdrain] at hn
      cases hn

end EventQueue

/-! ## Steps and runs -/

variable {q q' : EventQueue} {cells : List (Nat × Message)}

/-- What is on the queue is what was, less what was taken from its front, with what was queued behind it. -/
theorem holds_step {e : QueueEvent} (h : q.Holds cells) (hstep : queueStep q e = some q') :
    ∃ cells', q'.Holds cells' ∧ cells.map Prod.snd ++ queued q e = taken q e ++ cells'.map Prod.snd := by
  cases e with
  | init =>
    simp only [queueStep, Option.ite_none_right_eq_some, Option.some.injEq] at hstep
    obtain ⟨⟨-, hidle⟩, rfl⟩ := hstep
    refine ⟨cells, ⟨h.chain, h.nodup, h.linked, h.len_le, fun hne => absurd hidle hne, ?_, ?_, ?_⟩,
      by simp [queued, taken, dequeued, drained]⟩
    · intro hd
      rw [hidle] at hd
      cases hd
    · intro hn
      cases hn
    · intro n hn
      cases hn
  | enqueue node msg =>
    simp only [queueStep, Option.ite_none_left_eq_some, Option.some.injEq] at hstep
    obtain ⟨hfree, rfl⟩ := hstep
    -- The node of a new message is one that the queue does not have.
    obtain ⟨cells', hholds, hcells, -⟩ := h.enqueueMessage fun hqueued => by
      rw [hqueued] at hfree
      simpa using hfree
    exact ⟨cells', hholds, by simp [hcells, taken, dequeued, drained]⟩
  | work =>
    simp only [queueStep] at hstep
    split at hstep
    · rename_i hcheck
      cases hstep
      refine ⟨cells, ⟨h.chain, h.nodup, h.linked, h.len_le, h.stopped, fun hd => ?_, ?_, ?_⟩,
        by simp [queued, taken, dequeued, drained, hcheck]⟩
      · rw [h.drain hd] at hcheck
        cases hcheck
      · intro hn
        split at hn <;> cases hn
      · intro n hn
        split at hn <;> cases hn
    · rename_i hdequeue
      simp only [Option.ite_none_left_eq_some, Option.some.injEq] at hstep
      obtain ⟨-, rfl⟩ := hstep
      obtain ⟨cells', hholds, hcells⟩ := h.dequeue hdequeue
      refine ⟨cells', hholds, ?_⟩
      rw [hcells]
      simp [queued, taken, dequeued, drained, hdequeue]
    · rename_i node hdeliver
      cases hstep
      exact ⟨cells, h.deliver hdeliver, by simp [queued, taken, dequeued, drained, hdeliver]⟩
    · cases hstep
  | stop =>
    simp only [queueStep, Option.ite_none_right_eq_some, Option.some.injEq] at hstep
    obtain ⟨hidle, rfl⟩ := hstep
    refine ⟨cells, ⟨h.chain, h.nodup, fun _ => h.linked (by rw [hidle]; decide), h.len_le, fun _ => rfl, ?_,
      fun _ => rfl,
      h.own⟩, by simp [queued, taken, dequeued, drained]⟩
    intro hd
    cases hd
  | finish =>
    simp only [queueStep] at hstep
    split at hstep
    · rename_i hjoin
      simp only [Option.ite_none_right_eq_some, Option.some.injEq] at hstep
      obtain ⟨-, rfl⟩ := hstep
      have hstopped := h.stopped (by rw [hjoin]; decide)
      refine ⟨cells, ⟨h.chain, h.nodup, fun hd => absurd rfl hd, h.len_le, fun _ => hstopped, fun _ => rfl,
        fun _ => hstopped, ?_⟩,
        by simp [queued, taken, dequeued, drained, hjoin]⟩
      intro n hn
      cases hn
    · rename_i hdrain
      have hstopped := h.stopped (by rw [hdrain]; decide)
      split at hstep
      · rename_i node hhead
        cases hstep
        obtain ⟨cells', hholds, hcells⟩ := h.drainNode hdrain hhead
        refine ⟨cells', hholds, ?_⟩
        rw [hcells]
        simp [queued, taken, dequeued, drained, hdrain]
      · -- Nothing is left to free.
        rename_i hhead
        cases hstep
        obtain rfl : cells = [] := (hhead ▸ h.chain).eq_nil
        refine ⟨[], ⟨h.chain, h.nodup, fun _ => ⟨⟨h.chain, rfl, h.nodup⟩, rfl⟩, Nat.zero_le _, fun _ => hstopped, ?_,
          h.absent, h.own⟩, ?_⟩
        · intro hd
          cases hd
        · simp [queued, taken, dequeued, drained, hdrain, EventQueue.first, hhead]
    · cases hstep

theorem queued_sublist_offered (q : EventQueue) (e : QueueEvent) : (queued q e).Sublist (offered q e) := by
  cases e with
  | enqueue node msg =>
    simp only [queued, offered]
    split
    · exact List.Sublist.refl _
    · exact List.nil_sublist _
  | _ => exact List.nil_sublist _

theorem dropped_cause {e : QueueEvent} (h : q.Holds cells) (hdropped : dropped q e ≠ []) :
    q.running = false ∨ q.len = TNT_MODULE_QUEUE_LIMIT := by
  cases e with
  | enqueue node msg =>
    have hrefused : ¬(q.enqueue node msg).2 := fun hqueued => hdropped (if_pos hqueued)
    rw [EventQueue.enqueue_snd] at hrefused
    cases hrun : q.running with
    | false => exact .inl rfl
    | true => exact .inr (Nat.le_antisymm h.len_le (Nat.le_of_not_lt fun hlen => hrefused ⟨hrun, hlen⟩))
  | finish =>
    refine .inl (h.stopped fun hidle => hdropped ?_)
    simp [dropped, drained, hidle]
  | _ => exact absurd rfl hdropped

/-- A run `es` came to the queue `q`, with these cells on it. -/
structure QueueLaw (es : List QueueEvent) (q : EventQueue) (cells : List (Nat × Message)) : Prop where
  /-- The chain from the head ends at the tail, and the count is its length. The loop that frees the nodes, where
  nobody else has to do with the queue, sets them at its end. -/
  linked : q.shutdown ≠ .drain → Linked q.nodes q.head q.tail cells ∧ q.len = cells.length ∧
    (q.head = none ↔ cells = []) ∧ (q.tail = none ↔ cells = [])
  limit : q.len ≤ TNT_MODULE_QUEUE_LIMIT
  /-- All that was queued was taken or is on the queue, in one order. -/
  lossless : heard queueStep queued .initial es = heard queueStep taken .initial es ++ cells.map Prod.snd
  dequeued_queued : (heard queueStep dequeued .initial es).Sublist (heard queueStep queued .initial es)
  queued_offered : (heard queueStep queued .initial es).Sublist (heard queueStep offered .initial es)
  dropped : Meets queueStep
    (fun q e => dropped q e ≠ [] → q.running = false ∨ q.len = TNT_MODULE_QUEUE_LIMIT) .initial es

/-- The queue loses nothing and keeps the order, whoever offers, takes or stops it and in whatever order. -/
theorem eventQueue_sound {es : List QueueEvent} (h : exec queueStep .initial es = some q) :
    ∃ cells, QueueLaw es q cells := by
  obtain ⟨msgs, ⟨cells, hholds, rfl⟩, hlossless⟩ :=
    exec_lossless (fun q msgs => ∃ cells, q.Holds cells ∧ msgs = cells.map Prod.snd)
      (fun q e q' msgs ⟨cells, hholds, hmsgs⟩ hstep => by
        obtain ⟨cells', hholds', hcells⟩ := holds_step hholds hstep
        exact ⟨_, ⟨cells', hholds', rfl⟩, hmsgs ▸ hcells⟩)
      ⟨[], EventQueue.holds_initial, rfl⟩ h
  rw [List.map_nil, List.nil_append] at hlossless
  have htaken : (heard queueStep dequeued .initial es).Sublist (heard queueStep taken .initial es) :=
    heard_sublist (fun q e => List.sublist_append_left _ _) _ es
  refine ⟨cells, fun hd => ?_, hholds.len_le, hlossless, ?_, heard_sublist queued_sublist_offered _ es, ?_⟩
  · obtain ⟨hlinked, hcount⟩ := hholds.linked hd
    exact ⟨hlinked, hcount, hlinked.head_none, hlinked.tail_none⟩
  · rw [hlossless]
    exact htaken.trans (List.sublist_append_left _ _)
  · refine meets_of_inv (fun q => ∃ cells, q.Holds cells) (fun q e q' ⟨cells, hholds⟩ _ hstep => ?_)
      (fun q e ⟨cells, hholds⟩ _ => dropped_cause hholds) ⟨[], EventQueue.holds_initial⟩
        (meets_iff.2 fun _ _ _ _ _ _ => trivial)
    obtain ⟨cells', hholds', -⟩ := holds_step hholds hstep
    exact ⟨cells', hholds'⟩

theorem eventQueue_sound_shutdown :
    ∃ q cells, QueueLaw [.init, .enqueue 1 zeroMessage, .work, .enqueue 2 zeroMessage, .work, .stop,
      .enqueue 3 zeroMessage,
      .work, .work, .finish, .finish, .finish] q cells ∧ q.shutdown = .idle ∧ q.len = 0 := by
  obtain ⟨cells, h⟩ := eventQueue_sound (rfl : exec queueStep .initial [.init, .enqueue 1 zeroMessage, .work,
    .enqueue 2 zeroMessage, .work, .stop, .enqueue 3 zeroMessage, .work, .work, .finish, .finish, .finish] = some _)
  exact ⟨_, cells, h, rfl, rfl⟩

end Tnt
