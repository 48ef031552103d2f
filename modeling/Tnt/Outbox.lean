import Tnt.Common
import Tnt.Lib.CText
import Tnt.Lib.Fifo
import Tnt.Lib.Runs
/-!
# The output of a client (`client.c`)

`client_send` writes what an `exec` command prints straight to the channel. What the
screen of an interactive client is sent goes through its outbox, which is flushed as
far as the window, the budget and the channel let it. Every function here runs under
`io_lock`.

`output_fifo` says that the outbox is a queue that loses nothing: it is the `Fifo`
of what was accepted and what was written.
-/
open BaseLib

namespace Tnt

def CLIENT_OUTBOX_CAPACITY : Nat := 128 * 1024
def CLIENT_OUTBOX_FLUSH_BUDGET : Nat := 32768

/-- What a round of the loop of `client_write_direct_locked` meets with. -/
structure ChannelRound where
  /-- `ssh_channel_window_size` -/
  window : UInt32
  /-- How much goes out of what `ssh_channel_write` is given, at most. -/
  takes : Nat
  /-- It returns an error nevertheless. -/
  fails : Bool
  deriving DecidableEq

/-- `client_t`, as far as output depends on it. -/
structure ClientOutput where
  connected : Bool
  /-- `channel != NULL` -/
  channel : Bool
  execCommand : Bytes
  execCommandTooLong : Bool
  /-- The bytes of `outbox` up to `outbox_len`, once it is allocated. -/
  outbox : Option Bytes
  outboxPos : Nat
  pendingBells : Nat
  /-- Every byte that went out on the channel. -/
  wire : Bytes
  /-- Every byte that was put into the outbox. -/
  accepted : Bytes
  /-- `client_send_fail` was called. -/
  failed : Bool
  deriving DecidableEq

namespace ClientOutput

/-- A new client, with the command it was started with. -/
def create (channel : Bool) (execCommand : Bytes) (execCommandTooLong : Bool) : ClientOutput :=
  ⟨true, channel, execCommand, execCommandTooLong, none, 0, 0, [], [], false⟩

/-- `outbox[outbox_pos..outbox_len)` -/
def pending (c : ClientOutput) : Bytes := (c.outbox.getD []).drop c.outboxPos

end ClientOutput

/-- `client_send_fail` -/
def clientSendFail (c : ClientOutput) : ClientOutput := { c with connected := false, failed := true }

/-- `client_is_exec` -/
def clientIsExec (c : ClientOutput) : Bool := c.execCommand != [] || c.execCommandTooLong

/-- The chunk that a round gives to `ssh_channel_write`. -/
def chunkSize (remaining window budget : Nat) : Nat :=
  let chunk := if remaining > 32768 then 32768 else remaining
  let chunk := if chunk > window then window else chunk
  if budget > 0 ∧ chunk > budget then budget else chunk

/-- The loop of `client_write_direct_locked` over the data that are left: what goes out, and how much
the loop counts, or `none` where it calls `client_send_fail`. A `budget` of 0 is none. Where no round
is left, the window is closed. -/
def writeLoop (failOnClosedWindow : Bool) : List ChannelRound → Bytes → Nat → Bytes × Option Nat
  | [], data, _ => ([], if data = [] ∨ !failOnClosedWindow then some 0 else none)
  | round :: rounds, data, budget =>
    if data = [] then ([], some 0)
    else if round.window = 0 then ([], if !failOnClosedWindow then some 0 else none)
    else
      let sent := min round.takes (chunkSize data.length round.window.toNat budget)
      if round.fails ∨ sent = 0 then (data.take sent, none)
      else if budget > 0 ∧ budget - sent = 0 then (data.take sent, some sent)
      else
        let (out, rest) := writeLoop failOnClosedWindow rounds (data.drop sent) (budget - sent)
        (data.take sent ++ out, rest.map (sent + ·))

/-- `client_write_direct_locked` -/
def clientWriteDirectLocked (c : ClientOutput) (rounds : List ChannelRound) (data : Bytes) (budget : Nat)
    (failOnClosedWindow : Bool) : Int × ClientOutput :=
  match writeLoop failOnClosedWindow rounds data budget with
  | (out, none) => (-1, clientSendFail { c with wire := c.wire ++ out })
  | (out, some total) => (intOf total, { c with wire := c.wire ++ out })

/-- `client_flush_output_locked` -/
def clientFlushOutputLocked (c : ClientOutput) (rounds : List ChannelRound) (budget : Nat) : Int × ClientOutput :=
  match c.outbox with
  | none => (0, c)
  | some outbox =>
    if c.outboxPos ≥ outbox.length then (0, { c with outbox := some [], outboxPos := 0 })
    else
      let (sent, c) := clientWriteDirectLocked c rounds (outbox.drop c.outboxPos) budget false
      if sent < 0 then (-1, c)
      else if c.outboxPos + sent.toNat ≥ outbox.length then (0, { c with outbox := some [], outboxPos := 0 })
      else (0, { c with outboxPos := c.outboxPos + sent.toNat })

/-- `client_compact_outbox` -/
def clientCompactOutbox (c : ClientOutput) : ClientOutput :=
  match c.outbox with
  | none => c
  | some outbox =>
    if c.outboxPos = 0 then c
    else { c with outbox := some (if c.outboxPos < outbox.length then outbox.drop c.outboxPos else []), outboxPos := 0 }

/-- `client_enqueue_output_locked`, where `alloc` is whether the outbox can be allocated. -/
def clientEnqueueOutputLocked (c : ClientOutput) (data : Bytes) (alloc : Bool) : Int × ClientOutput :=
  if data = [] then (0, c)
  else if data.length > CLIENT_OUTBOX_CAPACITY then (-1, clientSendFail c)
  else if c.outbox = none ∧ !alloc then (-1, clientSendFail c)
  else
    let c := if c.outbox = none then { c with outbox := some [], outboxPos := 0 } else c
    let c := clientCompactOutbox c
    let outbox := c.outbox.getD []
    if outbox.length + data.length > CLIENT_OUTBOX_CAPACITY then (-1, clientSendFail c)
    else (0, { c with outbox := some (outbox ++ data), accepted := c.accepted ++ data })

/-- `client_send` -/
def clientSend (c : ClientOutput) (data : Bytes) (alloc : Bool) (rounds : List ChannelRound) : Int × ClientOutput :=
  if data = [] then (0, c)
  else if !c.connected ∨ !c.channel then (-1, c)
  else if clientIsExec c then
    let (rc, c) := clientWriteDirectLocked c rounds data 0 true
    if rc ≥ 0 ∧ rc.toNat = data.length then (0, c)
    else if rc ≥ 0 then (-1, clientSendFail c)
    else (rc, c)
  else
    let (rc, c) := clientEnqueueOutputLocked c data alloc
    if rc = 0 then clientFlushOutputLocked c rounds CLIENT_OUTBOX_FLUSH_BUDGET else (rc, c)

/-- `client_flush_output` -/
def clientFlushOutput (c : ClientOutput) (rounds : List ChannelRound) : Int × ClientOutput :=
  if !c.connected ∨ !c.channel then (-1, c) else clientFlushOutputLocked c rounds CLIENT_OUTBOX_FLUSH_BUDGET

/-- `client_queue_bell` -/
def clientQueueBell (c : ClientOutput) : ClientOutput := { c with pendingBells := 1 }

/-- `client_flush_pending_bells` -/
def clientFlushPendingBells (c : ClientOutput) (alloc : Bool) (rounds : List ChannelRound) : Int × ClientOutput :=
  let bells := c.pendingBells
  let c := { c with pendingBells := 0 }
  if bells ≤ 0 then (0, c) else clientSend c [0x07] alloc rounds

inductive ClientEvent
  | send (data : Bytes) (alloc : Bool) (rounds : List ChannelRound)
  | flush (rounds : List ChannelRound)
  | queueBell
  | flushBells (alloc : Bool) (rounds : List ChannelRound)
  /-- `client_channel_eof` -/
  | eof
  /-- `client_channel_close` -/
  | close

/-- A call on the client, with what it returns. -/
def clientCall (c : ClientOutput) : ClientEvent → Int × ClientOutput
  | .send data alloc rounds => clientSend c data alloc rounds
  | .flush rounds => clientFlushOutput c rounds
  | .queueBell => (0, clientQueueBell c)
  | .flushBells alloc rounds => clientFlushPendingBells c alloc rounds
  | .eof => (0, if c.execCommand = [] then { c with connected := false } else c)
  | .close => (0, { c with connected := false })

def clientStep (c : ClientOutput) (e : ClientEvent) : Option ClientOutput := some (clientCall c e).2

/-! ## Writing -/

theorem chunkSize_le (remaining window budget : Nat) :
    chunkSize remaining window budget ≤ remaining ∧ (0 < budget → chunkSize remaining window budget ≤ budget) := by
  unfold chunkSize
  dsimp only
  split_ifs <;> omega

/-- What goes out is a prefix of the data, of the length that is counted. -/
theorem writeLoop_spec {failOnClosedWindow : Bool} {rounds : List ChannelRound} {data out : Bytes} {budget : Nat}
    {count : Option Nat} (h : writeLoop failOnClosedWindow rounds data budget = (out, count)) :
    out <+: data ∧ ∀ total, count = some total → out = data.take total ∧ total ≤ data.length ∧
      (0 < budget → total ≤ budget) := by
  have hnone {data : Bytes} {budget total : Nat} (h : some 0 = some total) :
      ([] : Bytes) = data.take total ∧ total ≤ data.length ∧ (0 < budget → total ≤ budget) := by
    cases h
    exact ⟨rfl, Nat.zero_le _, fun _ => Nat.zero_le _⟩
  induction rounds generalizing data budget out count with
  | nil =>
    cases h
    refine ⟨List.nil_prefix, fun total htotal => ?_⟩
    split at htotal
    · exact hnone htotal
    · cases htotal
  | cons round rounds ih =>
    obtain ⟨hchunk, hbudget⟩ := chunkSize_le data.length round.window.toNat budget
    obtain ⟨sent, hsent⟩ : ∃ sent, min round.takes (chunkSize data.length round.window.toNat budget) = sent := ⟨_, rfl⟩
    have hle : sent ≤ chunkSize data.length round.window.toNat budget := hsent ▸ Nat.min_le_right _ _
    simp only [writeLoop, hsent] at h
    split at h
    · cases h
      exact ⟨List.nil_prefix, fun total htotal => hnone htotal⟩
    split at h
    · cases h
      refine ⟨List.nil_prefix, fun total htotal => ?_⟩
      split at htotal
      · exact hnone htotal
      · cases htotal
    split at h
    · cases h
      exact ⟨List.take_prefix _ _, fun _ => nofun⟩
    split at h
    · cases h
      refine ⟨List.take_prefix _ _, fun total htotal => ?_⟩
      cases htotal
      exact ⟨rfl, hle.trans hchunk, fun hb => hle.trans (hbudget hb)⟩
    · -- The rest of the data, of which no more goes out than the budget still allows.
      rcases hrest : writeLoop failOnClosedWindow rounds (data.drop sent) (budget - sent) with ⟨out', rest⟩
      rw [hrest] at h
      cases h
      obtain ⟨hpre, hcount⟩ := ih hrest
      refine ⟨?_, fun total htotal => ?_⟩
      · conv_rhs => rw [← List.take_append_drop sent data]
        exact (List.prefix_append_right_inj _).2 hpre
      · obtain ⟨t, ht, rfl⟩ := Option.map_eq_some_iff.1 htotal
        obtain ⟨rfl, hlen, hfits⟩ := hcount t ht
        rw [List.length_drop] at hlen
        refine ⟨(List.take_add).symm, by omega, fun hb => ?_⟩
        rename_i hnot
        have := hbudget hb
        have := hfits (by omega)
        omega

/-- What a write leaves alone, and what it does to the channel: all that it counts goes out, in
order, and where it fails, a prefix does. -/
theorem clientWriteDirectLocked_cases {c c' : ClientOutput} {rounds : List ChannelRound} {data : Bytes} {budget : Nat}
    {failOnClosedWindow : Bool} {rc : Int}
    (h : clientWriteDirectLocked c rounds data budget failOnClosedWindow = (rc, c')) :
    (∃ total, rc = intOf total ∧ total ≤ data.length ∧ c' = { c with wire := c.wire ++ data.take total }) ∨
      ∃ out, rc = -1 ∧ out <+: data ∧ c' = clientSendFail { c with wire := c.wire ++ out } := by
  unfold clientWriteDirectLocked at h
  rcases hloop : writeLoop failOnClosedWindow rounds data budget with ⟨out, count⟩
  obtain ⟨hpre, hcount⟩ := writeLoop_spec hloop
  rw [hloop] at h
  cases count with
  | none =>
    cases h
    exact .inr ⟨out, rfl, hpre, rfl⟩
  | some total =>
    cases h
    obtain ⟨rfl, hle, -⟩ := hcount total rfl
    exact .inl ⟨total, rfl, hle, rfl⟩

/-! ## The outbox is a queue -/

/-- The queue holds what was accepted, what went out and what is pending. -/
structure Refines (c : ClientOutput) (f : Fifo UInt8) : Prop where
  input : f.input = c.accepted
  output : f.output = c.wire
  queue : f.queue = c.pending

/-- The cursor and the end of the outbox are within it. -/
structure InBounds (c : ClientOutput) : Prop where
  pos : c.outboxPos ≤ (c.outbox.getD []).length
  len : (c.outbox.getD []).length ≤ CLIENT_OUTBOX_CAPACITY

/-- Compaction moves what is pending to the front. -/
theorem clientCompactOutbox_eq {c : ClientOutput} {outbox : Bytes} (h : c.outbox = some outbox) :
    clientCompactOutbox c = { c with outbox := some c.pending, outboxPos := 0 } := by
  unfold clientCompactOutbox ClientOutput.pending
  rw [h]
  obtain ⟨connected, channel, execCommand, tooLong, box, pos, bells, wire, accepted, failed⟩ := c
  cases h
  dsimp only [Option.getD_some]
  split
  · next hpos => rw [hpos, List.drop_zero]
  split
  · rfl
  · rw [List.drop_eq_nil_of_le (by omega)]

/-- What the outbox is once it is allocated and compacted. -/
theorem clientCompactOutbox_allocated (c : ClientOutput) :
    clientCompactOutbox (if c.outbox = none then { c with outbox := some [], outboxPos := 0 } else c) =
      { c with outbox := some c.pending, outboxPos := 0 } := by
  cases hbox : c.outbox with
  | none =>
    have hpending : c.pending = [] := by rw [ClientOutput.pending, hbox, Option.getD_none, List.drop_nil]
    rw [if_pos rfl, clientCompactOutbox_eq rfl, hpending]
    rfl
  | some outbox => rw [if_neg (by simp), clientCompactOutbox_eq hbox]

/-- Data are put behind what is pending, all of them, or the client is given up. -/
theorem clientEnqueueOutputLocked_cases {c c' : ClientOutput} {data : Bytes} {alloc : Bool} {rc : Int}
    (h : clientEnqueueOutputLocked c data alloc = (rc, c')) :
    (data = [] ∧ rc = 0 ∧ c' = c) ∨
      (rc = 0 ∧ c.pending.length + data.length ≤ CLIENT_OUTBOX_CAPACITY ∧
        c' = { c with outbox := some (c.pending ++ data), outboxPos := 0, accepted := c.accepted ++ data }) ∨
      (rc = -1 ∧
        (c' = clientSendFail c ∨ c' = clientSendFail { c with outbox := some c.pending, outboxPos := 0 })) := by
  unfold clientEnqueueOutputLocked at h
  split at h
  · next hnil =>
    cases h
    exact .inl ⟨hnil, rfl, rfl⟩
  split at h
  · cases h
    exact .inr (.inr ⟨rfl, .inl rfl⟩)
  split at h
  · cases h
    exact .inr (.inr ⟨rfl, .inl rfl⟩)
  dsimp only at h
  rw [clientCompactOutbox_allocated] at h
  dsimp only [Option.getD_some] at h
  split at h
  · cases h
    exact .inr (.inr ⟨rfl, .inr rfl⟩)
  · cases h
    exact .inr (.inl ⟨rfl, by omega, rfl⟩)

/-- A flush takes bytes from the front of what is pending, as many as went out, or the client is
given up. -/
theorem clientFlushOutputLocked_cases {c c' : ClientOutput} {rounds : List ChannelRound} {budget : Nat} {rc : Int}
    (hc : InBounds c) (h : clientFlushOutputLocked c rounds budget = (rc, c')) :
    (rc = 0 ∧ InBounds c' ∧ ∃ n outbox pos, c'.pending = c.pending.drop n ∧
        c' = { c with wire := c.wire ++ c.pending.take n, outbox := outbox, outboxPos := pos }) ∨
      (rc = -1 ∧ ∃ out, out <+: c.pending ∧ c' = clientSendFail { c with wire := c.wire ++ out }) := by
  have hsame : ({ c with wire := c.wire ++ c.pending.take 0, outbox := c.outbox, outboxPos := c.outboxPos } :
      ClientOutput) = c := by
    rw [List.take_zero, List.append_nil]
  unfold clientFlushOutputLocked at h
  split at h
  · cases h
    exact .inl ⟨rfl, hc, 0, c.outbox, c.outboxPos, rfl, hsame.symm⟩
  next outbox hbox =>
  have hpending : c.pending = outbox.drop c.outboxPos := by rw [ClientOutput.pending, hbox, Option.getD_some]
  have hbound : outbox.length ≤ CLIENT_OUTBOX_CAPACITY := by simpa [hbox] using hc.len
  split at h
  · next hpos =>
    cases h
    refine .inl ⟨rfl, ⟨Nat.le_refl 0, Nat.zero_le _⟩, 0, some [], 0, ?_, ?_⟩
    · rw [List.drop_zero, hpending, List.drop_eq_nil_of_le hpos]
      rfl
    · rw [List.take_zero, List.append_nil]
  rw [← hpending] at h
  rcases hwrite : clientWriteDirectLocked c rounds c.pending budget false with ⟨sent, d⟩
  rw [hwrite] at h
  dsimp only at h
  rcases clientWriteDirectLocked_cases hwrite with ⟨total, rfl, hle, rfl⟩ | ⟨out, rfl, hpre, rfl⟩
  · -- The count fits into an `int`, since the outbox is no longer than its capacity.
    have hlen : c.pending.length = outbox.length - c.outboxPos := by rw [hpending, List.length_drop]
    have hint : intOf total = total := intOf_of_lt (by rw [CLIENT_OUTBOX_CAPACITY] at hbound; omega)
    rw [hint, if_neg (by omega), Int.toNat_natCast] at h
    have hrest : c.pending.drop total = outbox.drop (c.outboxPos + total) := by rw [hpending, List.drop_drop]
    split at h
    · next hall =>
      cases h
      refine .inl ⟨rfl, ⟨Nat.le_refl 0, Nat.zero_le _⟩, total, some [], 0, ?_, rfl⟩
      rw [hrest, List.drop_eq_nil_of_le hall]
      rfl
    · cases h
      refine .inl ⟨rfl, ⟨?_, hc.len⟩, total, c.outbox, c.outboxPos + total, ?_, rfl⟩
      · dsimp only
        rw [hbox, Option.getD_some]
        omega
      · rw [hrest, ClientOutput.pending, hbox, Option.getD_some]
  · cases h
    exact .inr ⟨rfl, out, hpre, rfl⟩

/-- What holds of an interactive client after any calls. -/
structure OutputInv (c : ClientOutput) : Prop where
  interactive : clientIsExec c = false
  bounds : InBounds c
  /-- Until the first failure, the outbox is a queue. -/
  queue : c.failed = false → ∃ f, Refines c f
  wire : c.wire <+: c.accepted
  failed : c.failed = true → c.connected = false

theorem OutputInv.fail {c : ClientOutput} (hexec : clientIsExec c = false) (hb : InBounds c)
    (hwire : c.wire <+: c.accepted) : OutputInv (clientSendFail c) where
  interactive := hexec
  bounds := ⟨hb.pos, hb.len⟩
  queue := nofun
  wire := hwire
  failed _ := rfl

/-- A client whose outbox is a queue keeps the invariant as long as the queue is in bounds. -/
theorem OutputInv.of_refines {c : ClientOutput} {f : Fifo UInt8} (hexec : clientIsExec c = false) (hb : InBounds c)
    (hf : c.failed = false) (h : Refines c f) : OutputInv c where
  interactive := hexec
  bounds := hb
  queue _ := ⟨f, h⟩
  wire := by
    rw [← h.output, ← h.input]
    exact f.output_isPrefix
  failed h := by cases hf.symm.trans h

/-- Putting data into the outbox is a push. -/
theorem OutputInv.enqueue {c c' : ClientOutput} {data : Bytes} {alloc : Bool} {rc : Int} (hc : OutputInv c)
    (hf : c.failed = false) (h : clientEnqueueOutputLocked c data alloc = (rc, c')) :
    OutputInv c' ∧ (rc = 0 → c'.failed = false ∧ c'.accepted = c.accepted ++ data) ∧
      (rc ≠ 0 → c'.connected = false ∧ c'.accepted = c.accepted) := by
  obtain ⟨f, hr⟩ := hc.queue hf
  rcases clientEnqueueOutputLocked_cases h with ⟨rfl, rfl, rfl⟩ | ⟨rfl, hroom, rfl⟩ | ⟨rfl, hfail⟩
  · exact ⟨hc, fun _ => ⟨hf, (List.append_nil _).symm⟩, fun h => absurd rfl h⟩
  · refine ⟨?_, fun _ => ⟨hf, rfl⟩, fun h => absurd rfl h⟩
    have hpush : Refines { c with outbox := some (c.pending ++ data), outboxPos := 0, accepted := c.accepted ++ data }
        (f.push data) := ⟨congrArg (· ++ data) hr.input, hr.output, congrArg (· ++ data) hr.queue⟩
    refine .of_refines hc.interactive ⟨Nat.zero_le _, ?_⟩ hf hpush
    rwa [Option.getD_some, List.length_append]
  · have hpending : c.pending.length ≤ CLIENT_OUTBOX_CAPACITY := by
      rw [ClientOutput.pending, List.length_drop]
      exact (Nat.sub_le _ _).trans hc.bounds.len
    rcases hfail with rfl | rfl
    · exact ⟨.fail hc.interactive hc.bounds hc.wire, nofun, fun _ => ⟨rfl, rfl⟩⟩
    · exact ⟨.fail hc.interactive ⟨Nat.zero_le _, hpending⟩ hc.wire, nofun, fun _ => ⟨rfl, rfl⟩⟩

/-- A flush is a pop. -/
theorem OutputInv.flush {c c' : ClientOutput} {rounds : List ChannelRound} {budget : Nat} {rc : Int} (hc : OutputInv c)
    (hf : c.failed = false) (h : clientFlushOutputLocked c rounds budget = (rc, c')) :
    OutputInv c' ∧ c'.accepted = c.accepted ∧ (rc ≠ 0 → c'.connected = false) := by
  obtain ⟨f, hr⟩ := hc.queue hf
  rcases clientFlushOutputLocked_cases hc.bounds h with ⟨rfl, hb, n, outbox, pos, hpending, rfl⟩ | ⟨rfl, out, hpre, rfl⟩
  · refine ⟨.of_refines (f := f.pop n) hc.interactive hb hf ⟨hr.input, ?_, ?_⟩, rfl, fun h => absurd rfl h⟩
    · show f.output ++ f.queue.take n = _
      rw [hr.output, hr.queue]
    · show f.queue.drop n = _
      rw [hpending, hr.queue]
  · refine ⟨.fail hc.interactive ⟨hc.bounds.pos, hc.bounds.len⟩ ?_, rfl, fun _ => rfl⟩
    have := f.output_append_isPrefix (hr.queue ▸ hpre)
    rwa [hr.output, hr.input] at this

/-- `client_send` puts its data into the outbox, whole or not at all, and flushes it. -/
theorem OutputInv.send {c c' : ClientOutput} {data : Bytes} {alloc : Bool} {rounds : List ChannelRound} {rc : Int}
    (hc : OutputInv c) (h : clientSend c data alloc rounds = (rc, c')) :
    OutputInv c' ∧ (c'.accepted = c.accepted ∨ c'.accepted = c.accepted ++ data) ∧
      (rc = 0 → c'.accepted = c.accepted ++ data) ∧ (rc ≠ 0 → c'.connected = false ∨ c'.channel = false) := by
  unfold clientSend at h
  split at h
  · next hnil =>
    cases h
    rw [hnil, List.append_nil]
    exact ⟨hc, .inl rfl, fun _ => rfl, fun h => absurd rfl h⟩
  split at h
  · next hoff =>
    cases h
    exact ⟨hc, .inl rfl, nofun, fun _ => by simpa using hoff⟩
  next hon =>
  have hf : c.failed = false := by
    by_contra hf
    exact hon (.inl (by rw [hc.failed (by simpa using hf)]; rfl))
  rw [if_neg (by simp [hc.interactive])] at h
  rcases henq : clientEnqueueOutputLocked c data alloc with ⟨rc₁, d⟩
  obtain ⟨hd, hzero, hfail⟩ := hc.enqueue hf henq
  rw [henq] at h
  dsimp only at h
  split at h
  · next hrc =>
    obtain ⟨hf', hacc⟩ := hzero hrc
    obtain ⟨hinv, hsame, hoff⟩ := hd.flush hf' h
    rw [hsame]
    exact ⟨hinv, .inr hacc, fun _ => hacc, fun h => .inl (hoff h)⟩
  · next hrc =>
    cases h
    obtain ⟨hoff, hsame⟩ := hfail hrc
    exact ⟨hd, .inl hsame, fun h => absurd h hrc, fun _ => .inl hoff⟩

theorem OutputInv.disconnect {c : ClientOutput} (hc : OutputInv c) : OutputInv { c with connected := false } where
  interactive := hc.interactive
  bounds := ⟨hc.bounds.pos, hc.bounds.len⟩
  queue hf := (hc.queue hf).imp fun _ h => ⟨h.input, h.output, h.queue⟩
  wire := hc.wire
  failed _ := rfl

theorem OutputInv.bells {c : ClientOutput} (hc : OutputInv c) (n : Nat) : OutputInv { c with pendingBells := n } where
  interactive := hc.interactive
  bounds := ⟨hc.bounds.pos, hc.bounds.len⟩
  queue hf := (hc.queue hf).imp fun _ h => ⟨h.input, h.output, h.queue⟩
  wire := hc.wire
  failed := hc.failed

/-- The bytes that a call puts into the outbox. -/
def ClientEvent.data (c : ClientOutput) : ClientEvent → Bytes
  | .send data _ _ => data
  | .flushBells _ _ => if c.pendingBells ≤ 0 then [] else [0x07]
  | _ => []

/-- Any call. -/
theorem OutputInv.call {c c' : ClientOutput} {e : ClientEvent} {rc : Int} (hc : OutputInv c)
    (h : clientCall c e = (rc, c')) :
    OutputInv c' ∧ (c'.accepted = c.accepted ∨ c'.accepted = c.accepted ++ e.data c) ∧
      (rc = 0 → c'.accepted = c.accepted ++ e.data c) ∧ (rc ≠ 0 → c'.connected = false ∨ c'.channel = false) := by
  have hquiet {d : ClientOutput} (hd : OutputInv d) (hacc : d.accepted = c.accepted) :
      OutputInv d ∧ (d.accepted = c.accepted ∨ d.accepted = c.accepted ++ []) ∧
        ((0 : Int) = 0 → d.accepted = c.accepted ++ []) ∧ ((0 : Int) ≠ 0 → d.connected = false ∨ d.channel = false) :=
    ⟨hd, .inl hacc, fun _ => by rw [hacc, List.append_nil], fun h => absurd rfl h⟩
  cases e with
  | send data alloc rounds => exact hc.send h
  | flush rounds =>
    unfold clientCall clientFlushOutput at h
    dsimp only at h
    split at h
    · next hno =>
      cases h
      exact ⟨hc, .inl rfl, nofun, fun _ => by simpa using hno⟩
    · next hon =>
      have hf : c.failed = false := by
        by_contra hf
        exact hon (.inl (by rw [hc.failed (by simpa using hf)]; rfl))
      obtain ⟨hinv, hsame, hfail⟩ := hc.flush hf h
      rw [hsame]
      exact ⟨hinv, .inl rfl, fun _ => (List.append_nil _).symm, fun h => .inl (hfail h)⟩
  | queueBell =>
    cases h
    exact hquiet (hc.bells 1) rfl
  | flushBells alloc rounds =>
    unfold clientCall clientFlushPendingBells at h
    unfold ClientEvent.data
    dsimp only at h ⊢
    split at h
    · next hnone =>
      cases h
      rw [if_pos hnone]
      exact hquiet (hc.bells 0) rfl
    · next hsome =>
      rw [if_neg hsome]
      exact (hc.bells 0).send h
  | eof =>
    cases h
    split
    · exact hquiet hc.disconnect rfl
    · exact hquiet hc rfl
  | close =>
    cases h
    exact hquiet hc.disconnect rfl

/-- A client that is not connected is sent nothing. -/
theorem clientSend_disconnected {c : ClientOutput} (h : c.connected = false) (data : Bytes) (alloc : Bool)
    (rounds : List ChannelRound) : (clientSend c data alloc rounds).2 = c := by
  unfold clientSend
  split
  · rfl
  · rw [if_pos (.inl (by rw [h]; rfl))]

theorem clientCall_disconnected {c : ClientOutput} (h : c.connected = false) (e : ClientEvent) :
    (clientCall c e).2.connected = false ∧ (clientCall c e).2.wire = c.wire := by
  cases e with
  | send data alloc rounds =>
    have := clientSend_disconnected h data alloc rounds
    exact ⟨(congrArg _ this).trans h, congrArg _ this⟩
  | flush rounds =>
    unfold clientCall clientFlushOutput
    dsimp only
    rw [if_pos (.inl (by rw [h]; rfl))]
    exact ⟨h, rfl⟩
  | queueBell => exact ⟨h, rfl⟩
  | flushBells alloc rounds =>
    unfold clientCall clientFlushPendingBells
    dsimp only
    split
    · exact ⟨h, rfl⟩
    · rw [clientSend_disconnected (c := { c with pendingBells := 0 }) h]
      exact ⟨h, rfl⟩
  | eof =>
    unfold clientCall
    dsimp only
    split
    · exact ⟨rfl, rfl⟩
    · exact ⟨h, rfl⟩
  | close => exact ⟨rfl, rfl⟩

/-! ## An `exec` client -/

/-- It never has an outbox. -/
structure ExecInv (c : ClientOutput) : Prop where
  exec : clientIsExec c = true
  outbox : c.outbox = none

/-- An `exec` client's data go straight to the channel, whole where 0 is returned. -/
theorem ExecInv.send {c c' : ClientOutput} {data : Bytes} {alloc : Bool} {rounds : List ChannelRound} {rc : Int}
    (hc : ExecInv c) (h : clientSend c data alloc rounds = (rc, c')) :
    ExecInv c' ∧ (rc = 0 → c'.wire = c.wire ++ data) := by
  unfold clientSend at h
  split at h
  · next hnil =>
    cases h
    exact ⟨hc, fun _ => by rw [hnil, List.append_nil]⟩
  split at h
  · cases h
    exact ⟨hc, nofun⟩
  rw [if_pos hc.exec] at h
  rcases hwrite : clientWriteDirectLocked c rounds data 0 true with ⟨sent, d⟩
  rw [hwrite] at h
  dsimp only at h
  rcases clientWriteDirectLocked_cases hwrite with ⟨total, rfl, hle, rfl⟩ | ⟨out, rfl, -, rfl⟩
  · split at h
    · next hall =>
      cases h
      refine ⟨⟨hc.exec, hc.outbox⟩, fun _ => ?_⟩
      have := intOf_le total
      have htotal : total = data.length := by omega
      show c.wire ++ data.take total = _
      rw [htotal, List.take_length]
    split at h
    · cases h
      exact ⟨⟨hc.exec, hc.outbox⟩, nofun⟩
    · next hneg =>
      cases h
      exact ⟨⟨hc.exec, hc.outbox⟩, fun h => by omega⟩
  · cases h
    exact ⟨⟨hc.exec, hc.outbox⟩, nofun⟩

theorem ExecInv.call {c : ClientOutput} (hc : ExecInv c) (e : ClientEvent) : ExecInv (clientCall c e).2 := by
  cases e with
  | send data alloc rounds => exact (hc.send rfl).1
  | flush rounds =>
    unfold clientCall clientFlushOutput clientFlushOutputLocked
    dsimp only
    split
    · exact hc
    · rw [hc.outbox]
      exact hc
  | queueBell => exact ⟨hc.exec, hc.outbox⟩
  | flushBells alloc rounds =>
    have hbells : ExecInv { c with pendingBells := 0 } := ⟨hc.exec, hc.outbox⟩
    unfold clientCall clientFlushPendingBells
    dsimp only
    split
    · exact hbells
    · rcases hsend : clientSend { c with pendingBells := 0 } [0x07] alloc rounds with ⟨rc, d⟩
      exact (hbells.send hsend).1
  | eof =>
    unfold clientCall
    dsimp only
    split
    · exact ⟨hc.exec, hc.outbox⟩
    · exact hc
  | close => exact ⟨hc.exec, hc.outbox⟩

/-! ## Any calls -/

theorem outputInv_create (channel : Bool) {execCommand : Bytes} {execCommandTooLong : Bool}
    (h : clientIsExec (.create channel execCommand execCommandTooLong) = false) :
    OutputInv (.create channel execCommand execCommandTooLong) :=
  .of_refines (f := .empty) h ⟨Nat.le_refl 0, Nat.zero_le _⟩ rfl ⟨rfl, rfl, rfl⟩

/-- The output of a client, after any calls, whatever the windows are and however much goes out at a
time. On an interactive client, what went out and what is pending are what was accepted, in order, until
a first failure; data are accepted whole or not at all; a client that failed is not connected.
What is not connected is sent nothing more. An `exec` client's data went out whole where `client_send`
returns 0. -/
theorem output_fifo {channel execCommandTooLong : Bool} {execCommand : Bytes} {c : ClientOutput}
    (hrun : Reachable clientStep (.create channel execCommand execCommandTooLong) c) :
    (clientIsExec (.create channel execCommand execCommandTooLong) = false →
      (c.failed = false → c.wire ++ c.pending = c.accepted) ∧ c.wire <+: c.accepted ∧
      (0 ≤ c.outboxPos ∧ c.outboxPos ≤ (c.outbox.getD []).length ∧ (c.outbox.getD []).length ≤ CLIENT_OUTBOX_CAPACITY) ∧
      (c.failed = true → c.connected = false) ∧
      ∀ e rc c', clientCall c e = (rc, c') →
        (c'.accepted = c.accepted ∨ c'.accepted = c.accepted ++ e.data c) ∧
        (rc = 0 → c'.accepted = c.accepted ++ e.data c) ∧ (rc ≠ 0 → c'.connected = false ∨ c'.channel = false)) ∧
    (c.connected = false → ∀ c', Reachable clientStep c c' → c'.connected = false ∧ c'.wire = c.wire) ∧
    (clientIsExec (.create channel execCommand execCommandTooLong) = true →
      ∀ data alloc rounds c', clientSend c data alloc rounds = (0, c') → c'.wire = c.wire ++ data) := by
  refine ⟨fun hexec => ?_, fun hoff c' h => ?_, fun hexec data alloc rounds c' hsend => ?_⟩
  · have hc : OutputInv c :=
      hrun.inv OutputInv (fun s e s' hs h => by cases h; exact (hs.call rfl).1) (outputInv_create channel hexec)
    refine ⟨fun hf => ?_, hc.wire, ⟨Nat.zero_le _, hc.bounds.pos, hc.bounds.len⟩, hc.failed,
      fun e rc c' h => (hc.call h).2⟩
    obtain ⟨f, hr⟩ := hc.queue hf
    rw [← hr.output, ← hr.queue, f.lossless, hr.input]
  · refine h.inv (fun d => d.connected = false ∧ d.wire = c.wire) (fun s e s' hs h => ?_) ⟨hoff, rfl⟩
    cases h
    obtain ⟨hd, hw⟩ := clientCall_disconnected hs.1 e
    exact ⟨hd, hw.trans hs.2⟩
  · have hc : ExecInv c := hrun.inv ExecInv (fun s e s' hs h => by cases h; exact hs.call e) ⟨hexec, rfl⟩
    exact (hc.send hsend).2 rfl

/-- Two sends to an interactive client, of which the window lets the first two bytes out, and a bell whose
flush fails after one byte more. -/
def partialWrites : List ClientEvent :=
  [.send [0x61, 0x62, 0x63, 0x64] true [⟨3, 2, false⟩, ⟨0, 0, false⟩], .send [0x65] true [⟨0, 0, false⟩]]

def failedBell : List ClientEvent := [.queueBell, .flushBells true [⟨100, 3, false⟩, ⟨2, 1, true⟩]]

theorem output_fifo_partialWrites :
    (∃ c, exec clientStep (.create true [] false) partialWrites = some c ∧ c.wire = [0x61, 0x62] ∧
      c.wire ++ c.pending = [0x61, 0x62, 0x63, 0x64, 0x65]) ∧
    (∃ c, exec clientStep (.create true [] false) (partialWrites ++ failedBell) = some c ∧
      c.wire <+: [0x61, 0x62, 0x63, 0x64, 0x65, 0x07] ∧ c.connected = false) ∧
    ∀ c', clientSend (.create true [0x65] false) [0x61, 0x62] true [⟨1, 1, false⟩, ⟨5, 1, false⟩] = (0, c') →
      c'.wire = [0x61, 0x62] :=
  ⟨⟨_, rfl, rfl, ((output_fifo ⟨partialWrites, rfl⟩).1 rfl).1 rfl⟩,
    ⟨_, rfl, ((output_fifo ⟨partialWrites ++ failedBell, rfl⟩).1 rfl).2.1,
      ((output_fifo ⟨partialWrites ++ failedBell, rfl⟩).1 rfl).2.2.2.1 rfl⟩,
    fun c' h => (output_fifo (Reachable.refl _)).2.2 rfl _ _ _ c' h⟩

end Tnt
