import FusionFS.Udt.Reception
import FusionFS.Udt.Transmission

/-!
# One direction of a connection

A sender and a receiver over a network that loses, repeats and reorders what it carries. What was sent
stays on the network, and comes when the network delivers it, any number of times. The one thing the
network must not do is to deliver what is so old that its number means another packet by then. A side that
hears nothing for too long gives the connection up, and takes part in nothing from then on.
-/

namespace FusionFS.Udt

open SerialNumber Transition

/-- Messages are kept with the number of packets, `sent`, that had gone out before. -/
structure Connection where
  sender : Sender
  receiver : Receiver
  sent : Nat
  packets : List (Nat × Nat × Bytes)
  reports : List (Nat × Report)
  answers : List Answer
  written : Bytes
  read : Bytes

namespace Connection

/-- The window that a handshake tells. It is what the receiver can take, except in the answer to a request
that was `repeated`, which tells the greatest one. -/
def handshakeWindow (repeated : Bool) (rcvBufSize flightFlagSize : Nat) : Nat :=
  if repeated then flightFlagSize
  else if rcvBufSize < flightFlagSize then rcvBufSize else flightFlagSize

/-- Both sides after the handshake. The receiver's options are `rcvBufSize` and `flightFlagSize`, and the
sender's `sndBufSize`. -/
def new (isn : Nat) (repeated : Bool) (rcvBufSize flightFlagSize sndBufSize payloadSize : Nat) :
    Connection where
  sender := Sender.new isn (handshakeWindow repeated rcvBufSize flightFlagSize) sndBufSize payloadSize
  receiver := Receiver.new isn rcvBufSize flightFlagSize
  sent := 0
  packets := []
  reports := []
  answers := []
  written := []
  read := []

/-- What happens: the application writes or reads, a timer of one side runs out, or a message comes, where
`n` counts the messages that were ever sent. The sender answers an acknowledgement when it is time to,
`reply`. -/
inductive Event where
  | write (data : Bytes)
  | send (congestionWindow : Int)
  | sndExpire (late : Bool)
  | rcvExpire (late : Bool)
  | packet (n : Nat)
  | acknowledge (lite recent : Bool)
  | report (n : Nat) (reply : Bool)
  | answer (n : Nat) (elapsed : Bool)
  | read (len : Nat)
  deriving DecidableEq

/-- The receiver after it may have sent a report. -/
def replied (c : Connection) (receiver : Receiver) (report : Option Report) : Connection :=
  { c with
    receiver := receiver
    reports := c.reports ++ (report.map fun report => (c.sent, report)).toList }

/-- The sender after it may have sent a packet. -/
def emitted (c : Connection) (sender : Sender) (packet : Option (Nat × Block)) : Connection :=
  let sent := if sender.sndCurrSeqNo = c.sender.sndCurrSeqNo then c.sent else c.sent + 1
  { c with
    sender := sender
    sent := sent
    packets := c.packets ++ (packet.map fun (seqno, block) => (sent, seqno, block.data)).toList }

/-- The sender after it may have answered. -/
def answered (c : Connection) (sender : Sender) (answer : Option Answer) : Connection :=
  { c with
    sender := sender
    answers := c.answers ++ answer.toList }

/-- A socket that was given up neither sends nor takes what comes. What is in its buffer can be read. -/
def heeds (c : Connection) : Event → Bool
  | .write _ => c.sender.life.alive
  | .send _ => !c.sender.life.broken
  | .sndExpire _ => c.sender.life.alive
  | .rcvExpire _ => c.receiver.life.alive
  | .packet _ => c.receiver.life.alive
  | .acknowledge _ _ => c.receiver.life.alive
  | .report _ _ => c.sender.life.alive
  | .answer _ _ => c.receiver.life.alive
  | .read _ => true

def act (c : Connection) : Event → Option Connection
  | .write data => (c.sender.send data).map fun (sender, n) =>
      { c with sender := sender, written := c.written ++ data.take n }
  | .send congestionWindow => (c.sender.packData congestionWindow).map fun (sender, packet) =>
      c.emitted sender packet
  | .sndExpire late => (c.sender.expire late).map fun (sender, answer) => c.answered sender answer
  | .rcvExpire late => some (c.replied (c.receiver.expire late).1 (c.receiver.expire late).2)
  | .packet n => c.packets[n]?.bind fun (_, seqno, data) =>
      (c.receiver.processData seqno data).map fun (receiver, report) => c.replied receiver report
  | .acknowledge lite recent => (c.receiver.sendAck lite recent).map fun (receiver, report) =>
      c.replied receiver report
  | .report n reply => c.reports[n]?.bind fun (_, report) =>
      (c.sender.processReport report).map fun sender =>
        c.answered sender (if reply then report.answer else none)
  | .answer n elapsed => (c.answers[n]?).map fun answer =>
      { c with receiver := c.receiver.processAnswer elapsed answer }
  | .read len => (c.receiver.recv len).map fun (receiver, data) =>
      { c with receiver := receiver, read := c.read ++ data }

def step (c : Connection) (e : Event) : Option Connection :=
  if c.heeds e then c.act e else some c

/-- A message is delivered before `lifetime` packets more have gone out. -/
def Fresh (lifetime : Nat) (c : Connection) : Event → Prop
  | .packet n => (c.packets[n]?.any fun p => c.sent < p.1 + lifetime) = true
  | .report n _ => (c.reports[n]?.any fun p => c.sent < p.1 + lifetime) = true
  | .answer n _ => n < c.answers.length
  | _ => True

instance decidableFresh (lifetime : Nat) (c : Connection) : ∀ e, Decidable (Fresh lifetime c e)
  | .packet n => inferInstanceAs (Decidable ((c.packets[n]?.any fun p => c.sent < p.1 + lifetime) = true))
  | .report n _ => inferInstanceAs (Decidable ((c.reports[n]?.any fun p => c.sent < p.1 + lifetime) = true))
  | .write _ => .isTrue trivial
  | .send _ => .isTrue trivial
  | .sndExpire _ => .isTrue trivial
  | .rcvExpire _ => .isTrue trivial
  | .acknowledge _ _ => .isTrue trivial
  | .answer n _ => inferInstanceAs (Decidable (n < c.answers.length))
  | .read _ => .isTrue trivial

end Connection

/-! ### The invariant -/

/-- The data of the packet `x` of a stream that starts with the packet `isn`. -/
def payloadOf (isn : Nat) (blocks : List Block) (x : Nat) : Bytes :=
  ((blocks[x - isn]?).map Block.data).getD []

/-- A report that was sent after `born` packets: what it says is true, and is not far behind. -/
def Report.Sound (isn window la next : Nat) (came : Nat → Option Bytes) (born : Nat) : Report → Prop
  | .ack _ number avail => ∃ k, number = seqOf k ∧ isn + born ≤ k + window ∧ k ≤ la ∧ avail ≤ window
  | .liteAck number => ∃ k, number = seqOf k ∧ isn + born ≤ k + window ∧ k ≤ next ∧
      ∀ x, isn ≤ x → x < k → (came x).isSome
  | .nak losslist => ∃ i j, losslist = Receiver.lossData (seqOf i) (seqOf j) ∧ i ≤ j ∧ j < next ∧
      isn + born ≤ i + window
  | .keepAlive => True

/-- A sender and a receiver that agree. The sender has sent all packets before `next`, and what it gave
up is with the receiver. -/
structure Linked (isn bufSize window : Nat) (c : Connection) (blocks : List Block)
    (lda sla next la rnext : Nat) (came : Nat → Option Bytes) : Prop where
  sends : Sends blocks isn window c.sender lda sla next
  receives : Receives (payloadOf isn blocks) isn bufSize c.receiver la rnext came c.read
  le_window : max 2 bufSize ≤ window
  sent : isn + c.sent = next
  lda_le : lda ≤ la
  acked : ∀ x, isn ≤ x → x < sla → (came x).isSome
  rnext_le : rnext ≤ next
  packets : ∀ p ∈ c.packets, p.1 ≤ c.sent ∧ ∃ x, p.2.1 = seqOf x ∧ p.2.2 = payloadOf isn blocks x ∧
    isn ≤ x ∧ x < next ∧ isn + p.1 ≤ x + window
  reports : ∀ p ∈ c.reports, p.1 ≤ c.sent ∧ p.2.Sound isn window la next came p.1
  written : c.written = blocks.flatMap Block.data

variable {isn bufSize window lda sla next la rnext lifetime : Nat} {c : Connection}
  {blocks : List Block} {came : Nat → Option Bytes}

theorem payloadOf_append {new : List Block} {x : Nat} (hx : x < isn + blocks.length) (hisn : isn ≤ x) :
    payloadOf isn (blocks ++ new) x = payloadOf isn blocks x := by
  rw [payloadOf, payloadOf, List.getElem?_append_left (by omega)]

theorem Report.Sound.mono {la' next' born : Nat} {came' : Nat → Option Bytes} {r : Report}
    (h : r.Sound isn window la next came born) (hla : la ≤ la') (hnext : next ≤ next')
    (hcame : ∀ x, (came x).isSome → (came' x).isSome) : r.Sound isn window la' next' came' born := by
  cases r with
  | ack n number avail =>
      obtain ⟨k, hk, hold, hkl, havail⟩ := h
      exact ⟨k, hk, hold, hkl.trans hla, havail⟩
  | liteAck number =>
      obtain ⟨k, hk, hold, hkn, hall⟩ := h
      exact ⟨k, hk, hold, hkn.trans hnext, fun x hx hxk => hcame x (hall x hx hxk)⟩
  | nak losslist =>
      obtain ⟨i, j, hl, hij, hj, hold⟩ := h
      exact ⟨i, j, hl, hij, hj.trans_le hnext, hold⟩
  | keepAlive => trivial

namespace Linked

/-- The sender does not lead the receiver by more than a window. -/
theorem next_le (h : Linked isn bufSize window c blocks lda sla next la rnext came) :
    next ≤ la + window := by
  have := h.sends.next_le
  have := h.lda_le
  omega

/-- **Writing.** -/
theorem write (h : Linked isn bufSize window c blocks lda sla next la rnext came) (data : Bytes) :
    ∃ c' blocks', c.act (.write data) = some c' ∧
      Linked isn bufSize window c' blocks' lda sla next la rnext came := by
  obtain ⟨s', n, new, hsend, hsends, hnew, -⟩ := h.sends.send data
  have hwritten := h.sends.written
  refine ⟨{ c with sender := s', written := c.written ++ data.take n }, blocks ++ new, ?_, hsends,
    h.receives.congr_payload fun x hx hxn => ?_, h.le_window, h.sent, h.lda_le, h.acked, h.rnext_le,
    fun p hp => ?_, h.reports, ?_⟩
  · rw [Connection.act, hsend]
    rfl
  · have := h.rnext_le
    exact payloadOf_append (by omega) hx
  · obtain ⟨hborn, x, hseq, hdata, hx, hxn, hold⟩ := h.packets p hp
    exact ⟨hborn, x, hseq, hdata.trans (payloadOf_append (by omega) hx).symm, hx, hxn, hold⟩
  · rw [List.flatMap_append, hnew, ← h.written]

/-- **Sending.** A packet goes onto the network with the data of its number. -/
theorem send (h : Linked isn bufSize window c blocks lda sla next la rnext came) (congestionWindow : Int) :
    ∃ c' next', c.act (.send congestionWindow) = some c' ∧
      Linked isn bufSize window c' blocks lda sla next' la rnext came := by
  obtain ⟨s', packet, next', hpack, hsends, hnext, hpacket⟩ := h.sends.packData congestionWindow
  have hle : next ≤ next' := by omega
  have hsmall := h.sends.small
  have hsla := h.sends.sla_le
  have hlda := h.sends.lda_le
  have hisn := h.sends.isn_le
  have hpos := h.sends.isn_pos
  have hend := h.sends.next_le
  have hwindow := h.le_window
  have hcurr : s'.sndCurrSeqNo = c.sender.sndCurrSeqNo ↔ next' = next := by
    rw [hsends.curr, h.sends.curr, seqOf_inj ⟨by omega, by omega⟩]
    omega
  have hsent : isn + (c.emitted s' packet).sent = next' := by
    show isn + (if s'.sndCurrSeqNo = c.sender.sndCurrSeqNo then c.sent else c.sent + 1) = next'
    have := h.sent
    split
    · have := hcurr.mp (by assumption)
      omega
    · have := mt hcurr.mpr (by assumption)
      omega
  have hmore : c.sent ≤ (c.emitted s' packet).sent := by
    have := h.sent
    omega
  refine ⟨c.emitted s' packet, next', ?_, hsends, h.receives, h.le_window, hsent, h.lda_le, h.acked,
    h.rnext_le.trans hle, fun p hp => ?_, fun p hp => ?_, h.written⟩
  · rw [Connection.act, hpack]
    rfl
  · rcases List.mem_append.mp hp with hp | hp
    · obtain ⟨hborn, x, hseq, hdata, hx, hxn, hold⟩ := h.packets p hp
      exact ⟨hborn.trans hmore, x, hseq, hdata, hx, by omega, hold⟩
    · rw [Option.mem_toList, Option.map_eq_some_iff] at hp
      obtain ⟨⟨seqno, block⟩, hsome, rfl⟩ := hp
      obtain ⟨x, hseq, hlx, hxn, hblock⟩ := hpacket _ hsome
      have hend' := hsends.next_le
      refine ⟨le_rfl, x, hseq, ?_, by omega, hxn, ?_⟩
      · show block.data = _
        rw [payloadOf, hblock]
        rfl
      · show isn + (c.emitted s' packet).sent ≤ x + window
        omega
  · obtain ⟨hborn, hsound⟩ := h.reports p hp
    exact ⟨hborn.trans hmore, hsound.mono le_rfl hle fun x hx => hx⟩

/-- **The sender's timer.** -/
theorem sndExpire (h : Linked isn bufSize window c blocks lda sla next la rnext came) (late : Bool) :
    ∃ c', c.act (.sndExpire late) = some c' ∧
      Linked isn bufSize window c' blocks lda sla next la rnext came := by
  obtain ⟨s', answer, hexpire, hsends⟩ := h.sends.expire late
  refine ⟨c.answered s' answer, ?_, hsends, h.receives, h.le_window, h.sent, h.lda_le, h.acked,
    h.rnext_le, h.packets, h.reports, h.written⟩
  rw [Connection.act, hexpire]
  rfl

/-- What a receiver sends is true as long as it is on the network. -/
theorem replied (h : Linked isn bufSize window c blocks lda sla next la rnext came) {r : Receiver}
    {report : Option Report} {la' rnext' : Nat} {came' : Nat → Option Bytes}
    (hreceives : Receives (payloadOf isn blocks) isn bufSize r la' rnext' came' c.read) (hla : la ≤ la')
    (hrnext : rnext' ≤ next) (hcame : ∀ x, (came x).isSome → (came' x).isSome)
    (hreport : ∀ p, report = some p → p.Sound isn window la' next came' c.sent) :
    Linked isn bufSize window (c.replied r report) blocks lda sla next la' rnext' came' := by
  refine ⟨h.sends, hreceives, h.le_window, h.sent, h.lda_le.trans hla,
    fun x hx hxs => hcame x (h.acked x hx hxs), hrnext, h.packets, fun p hp => ?_, h.written⟩
  rcases List.mem_append.mp hp with hp | hp
  · obtain ⟨hborn, hsound⟩ := h.reports p hp
    exact ⟨hborn, hsound.mono hla le_rfl hcame⟩
  · rw [Option.mem_toList, Option.map_eq_some_iff] at hp
    obtain ⟨q, hsome, rfl⟩ := hp
    exact ⟨le_rfl, hreport q hsome⟩

/-- **The receiver's timer.** -/
theorem rcvExpire (h : Linked isn bufSize window c blocks lda sla next la rnext came) (late : Bool) :
    ∃ c', c.act (.rcvExpire late) = some c' ∧
      Linked isn bufSize window c' blocks lda sla next la rnext came := by
  refine ⟨_, rfl, h.replied (h.receives.expire late) le_rfl h.rnext_le (fun x hx => hx) fun p hp => ?_⟩
  unfold Receiver.expire at hp
  split at hp
  · cases hp
  · cases hp
    trivial

/-- **A packet comes**, for the first time or again. -/
theorem packet (h : Linked isn bufSize window c blocks lda sla next la rnext came) {n : Nat}
    (hfresh : c.Fresh lifetime (.packet n)) (hlife : window + lifetime ≤ seqNoTh) :
    ∃ c' rnext' came', c.act (.packet n) = some c' ∧
      Linked isn bufSize window c' blocks lda sla next la rnext' came' := by
  obtain ⟨⟨born, seqno, data⟩, hget, hyoung⟩ := (Option.any_eq_true _ _).mp hfresh
  obtain ⟨hborn, x, rfl, rfl, hx, hxn, hold⟩ := h.packets _ (List.mem_of_getElem? hget)
  replace hyoung : c.sent < born + lifetime := of_decide_eq_true hyoung
  have hsent := h.sent
  have hnext := h.next_le
  have hla := h.receives.le_next
  have hle := h.rnext_le
  have hsmall := h.sends.small
  obtain ⟨r', report, rnext', came', hdata, hreceives, hcame, hmax, hreport⟩ :=
    h.receives.processData (x := x) ⟨by omega, by omega⟩
  refine ⟨c.replied r' report, rnext', came', ?_, h.replied hreceives le_rfl (by omega) hcame fun p hp => ?_⟩
  · rw [Connection.act, hget]
    show (c.receiver.processData (seqOf x) (payloadOf isn blocks x)).map _ = _
    rw [hdata]
    rfl
  · obtain rfl | ⟨i, j, hij, hj, hi, rfl⟩ := hreport
    · cases hp
    · cases hp
      exact ⟨i, j, rfl, hij, by omega, by omega⟩

/-- **Acknowledging.** -/
theorem acknowledge (h : Linked isn bufSize window c blocks lda sla next la rnext came)
    (lite recent : Bool) :
    ∃ c' la', c.act (.acknowledge lite recent) = some c' ∧
      Linked isn bufSize window c' blocks lda sla next la' rnext came := by
  have hsent := h.sent
  have hnext := h.next_le
  have hwindow := h.le_window
  have hle := h.rnext_le
  obtain ⟨r', report, la', hack, hreceives, hla, hreport⟩ := h.receives.sendAck lite recent
  refine ⟨c.replied r' report, la', ?_, h.replied hreceives hla hle (fun x hx => hx) fun p hp => ?_⟩
  · rw [Connection.act, hack]
    rfl
  · obtain rfl | ⟨k, rfl, hlk, hkn, hall⟩ | ⟨n, avail, rfl, havail⟩ := hreport
    · cases hp
    · cases hp
      exact ⟨k, rfl, by omega, by omega, hall⟩
    · cases hp
      exact ⟨la', rfl, by omega, le_rfl, by omega⟩

/-- **A report comes.** What it says was true when it was sent, and still is. -/
theorem report (h : Linked isn bufSize window c blocks lda sla next la rnext came) {n : Nat}
    {reply : Bool} (hfresh : c.Fresh lifetime (.report n reply)) (hlife : window + lifetime ≤ seqNoTh) :
    ∃ c' lda' sla', c.act (.report n reply) = some c' ∧
      Linked isn bufSize window c' blocks lda' sla' next la rnext came := by
  obtain ⟨⟨born, r⟩, hget, hyoung⟩ := (Option.any_eq_true _ _).mp hfresh
  obtain ⟨hborn, hsound⟩ := h.reports _ (List.mem_of_getElem? hget)
  replace hyoung : c.sent < born + lifetime := of_decide_eq_true hyoung
  have hsent := h.sent
  have hla := h.receives.le_next
  have hle := h.rnext_le
  have hstep : ∀ s', c.sender.processReport r = some s' →
      c.act (.report n reply) = some (c.answered s' (if reply then r.answer else none)) := by
    intro s' hs'
    rw [Connection.act, hget]
    show (c.sender.processReport r).map _ = _
    rw [hs']
    rfl
  -- only the sender moves
  have hlinked : ∀ {s' : Sender} {lda' sla' : Nat}, Sends blocks isn window s' lda' sla' next →
      lda' ≤ la → (∀ x, isn ≤ x → x < sla' → (came x).isSome) →
      Linked isn bufSize window (c.answered s' (if reply then r.answer else none)) blocks lda' sla' next la
        rnext came :=
    fun hsends hlda hacked => ⟨hsends, h.receives, h.le_window, h.sent, hlda, hacked, h.rnext_le,
      h.packets, h.reports, h.written⟩
  have hmax : ∀ {k : Nat}, (∀ x, isn ≤ x → x < k → (came x).isSome) →
      ∀ x, isn ≤ x → x < max sla k → (came x).isSome := by
    intro k hk x hx hxm
    rcases lt_max_iff.mp hxm with hxs | hxk
    · exact h.acked x hx hxs
    · exact hk x hx hxk
  cases r with
  | ack m number avail =>
      obtain ⟨k, rfl, hold, hkl, havail⟩ := hsound
      obtain ⟨s', hack, hsends⟩ := h.sends.heard.processAck (k := k) (by omega) (by omega) havail
      exact ⟨_, _, _, hstep s' hack, hlinked hsends (max_le h.lda_le hkl)
        (hmax fun x hx hxk => h.receives.full x hx (by omega))⟩
  | liteAck number =>
      obtain ⟨k, rfl, hold, hkn, hall⟩ := hsound
      exact ⟨_, _, _, hstep _ rfl, hlinked (h.sends.heard.processLiteAck hkn (by omega)) h.lda_le (hmax hall)⟩
  | nak losslist =>
      obtain ⟨i, j, rfl, hij, hj, hold⟩ := hsound
      obtain ⟨s', hnak, hsends⟩ := h.sends.heard.processNak hij hj (by omega)
      exact ⟨_, _, _, hstep s' hnak, hlinked hsends h.lda_le h.acked⟩
  | keepAlive => exact ⟨_, _, _, hstep _ rfl, hlinked h.sends.heard h.lda_le h.acked⟩

theorem answer (h : Linked isn bufSize window c blocks lda sla next la rnext came) {n : Nat}
    (elapsed : Bool) (hn : n < c.answers.length) :
    ∃ c', c.act (.answer n elapsed) = some c' ∧
      Linked isn bufSize window c' blocks lda sla next la rnext came := by
  refine ⟨{ c with receiver := c.receiver.processAnswer elapsed c.answers[n] }, ?_, h.sends,
    h.receives.processAnswer elapsed _, h.le_window, h.sent, h.lda_le, h.acked, h.rnext_le, h.packets,
    h.reports, h.written⟩
  rw [Connection.act, List.getElem?_eq_getElem hn, Option.map_some]

/-- **Reading.** -/
theorem read (h : Linked isn bufSize window c blocks lda sla next la rnext came) (len : Nat) :
    ∃ c', c.act (.read len) = some c' ∧ Linked isn bufSize window c' blocks lda sla next la rnext came := by
  obtain ⟨r', data, hrecv, hreceives, -⟩ := h.receives.recv len
  refine ⟨{ c with receiver := r', read := c.read ++ data }, ?_, h.sends, hreceives, h.le_window, h.sent,
    h.lda_le, h.acked, h.rnext_le, h.packets, h.reports, h.written⟩
  rw [Connection.act, hrecv]
  rfl

/-! ### What the application sees -/

/-- The stream up to a packet before which all came. -/
theorem bytes_eq (h : Linked isn bufSize window c blocks lda sla next la rnext came) {n : Nat}
    (hn : n ≤ blocks.length) (hall : ∀ x, isn ≤ x → x < isn + n → (came x).isSome) :
    RcvBuffer.bytes came isn n = (blocks.take n).flatMap Block.data := by
  induction n with
  | zero => rfl
  | succ n ih =>
      obtain ⟨p, hp⟩ := Option.isSome_iff_exists.mp (hall (isn + n) (by omega) (by omega))
      obtain ⟨rfl, -, -⟩ := h.receives.came_eq _ _ hp
      have hblock : blocks[n]? = some blocks[n] := List.getElem?_eq_getElem hn
      rw [RcvBuffer.bytes_add, ih (by omega) fun x hx hxn => hall x hx (by omega), RcvBuffer.bytes_succ, hp,
        List.take_add_one, hblock, List.flatMap_append]
      simp [RcvBuffer.bytes, payloadOf, hblock]

/-- What was read is a part of what was written. -/
theorem read_prefix (h : Linked isn bufSize window c blocks lda sla next la rnext came) :
    c.read <+: c.written := by
  have hwritten := h.sends.written
  have hla := h.receives.le_next
  have hle := h.rnext_le
  have hisn := h.receives.isn_le
  have hbytes := h.bytes_eq (n := la - isn) (by omega) fun x hx hxn => h.receives.full x hx (by omega)
  calc c.read <+: (blocks.take (la - isn)).flatMap Block.data := hbytes ▸ h.receives.out_prefix
    _ <+: c.written := by
      rw [h.written]
      exact (List.take_prefix ..).flatMap _

/-- Once the sender's buffer is empty all that was written is with the receiver. -/
theorem read_all (h : Linked isn bufSize window c blocks lda sla next la rnext came)
    (hempty : c.sender.sndBuffer.count = 0) {len : Nat} (hlen : c.written.length ≤ c.read.length + len) :
    ∃ r data, c.receiver.recv len = some (r, data) ∧ c.read ++ data = c.written := by
  obtain ⟨q, hrep, -, hblocks, hsent⟩ := h.sends.buffer
  have hcount := hrep.count_eq
  have hwritten := h.sends.written
  have hlda := h.lda_le
  have hla := h.receives.le_next
  have hle := h.rnext_le
  have hisn := h.sends.isn_le
  have hnone := congrArg List.length hblocks
  rw [List.length_append, List.length_drop] at hnone
  obtain ⟨r', data, hrecv, -, hdata⟩ := h.receives.recv len
  have hbytes := h.bytes_eq (n := la - isn) (by omega) fun x hx hxn => h.receives.full x hx (by omega)
  have hall : blocks.take (la - isn) = blocks := List.take_of_length_le (by omega)
  rw [hbytes, hall, ← h.written, List.take_of_length_le hlen] at hdata
  exact ⟨r', data, hrecv, hdata⟩

end Linked

/-! ### Runs -/

/-- A connection in which only a timer gave up, and the application sees what was written. -/
def Delivers (c : Connection) : Prop :=
  (c.sender.life.broken = true → c.sender.life.closing = true) ∧ c.read <+: c.written ∧
    (c.sender.sndBuffer.count = 0 → ∀ len, c.written.length ≤ c.read.length + len →
      ∃ r data, c.receiver.recv len = some (r, data) ∧ c.read ++ data = c.written)

theorem le_handshakeWindow (repeated : Bool) {rcvBufSize flightFlagSize : Nat}
    (hle : rcvBufSize ≤ flightFlagSize) :
    rcvBufSize ≤ Connection.handshakeWindow repeated rcvBufSize flightFlagSize := by
  unfold Connection.handshakeWindow
  split
  · exact hle
  · split
    · exact le_rfl
    · exact hle

theorem handshakeWindow_le (repeated : Bool) (rcvBufSize flightFlagSize : Nat) :
    Connection.handshakeWindow repeated rcvBufSize flightFlagSize ≤ flightFlagSize := by
  unfold Connection.handshakeWindow
  split
  · exact le_rfl
  · split <;> omega

/-- **A step.** -/
theorem Linked.step (h : Linked isn bufSize window c blocks lda sla next la rnext came)
    {e : Connection.Event} (hfresh : c.Fresh lifetime e) (hlife : window + lifetime ≤ seqNoTh) :
    ∃ c', c.step e = some c' ∧ ∃ blocks lda sla next la rnext came,
      Linked isn bufSize window c' blocks lda sla next la rnext came := by
  unfold Connection.step
  split
  · cases e with
    | write data =>
        obtain ⟨c', blocks', hact, h'⟩ := h.write data
        exact ⟨c', hact, blocks', lda, sla, next, la, rnext, came, h'⟩
    | send congestionWindow =>
        obtain ⟨c', next', hact, h'⟩ := h.send congestionWindow
        exact ⟨c', hact, blocks, lda, sla, next', la, rnext, came, h'⟩
    | sndExpire late =>
        obtain ⟨c', hact, h'⟩ := h.sndExpire late
        exact ⟨c', hact, blocks, lda, sla, next, la, rnext, came, h'⟩
    | rcvExpire late =>
        obtain ⟨c', hact, h'⟩ := h.rcvExpire late
        exact ⟨c', hact, blocks, lda, sla, next, la, rnext, came, h'⟩
    | packet n =>
        obtain ⟨c', rnext', came', hact, h'⟩ := h.packet hfresh hlife
        exact ⟨c', hact, blocks, lda, sla, next, la, rnext', came', h'⟩
    | acknowledge lite recent =>
        obtain ⟨c', la', hact, h'⟩ := h.acknowledge lite recent
        exact ⟨c', hact, blocks, lda, sla, next, la', rnext, came, h'⟩
    | report n reply =>
        obtain ⟨c', lda', sla', hact, h'⟩ := h.report hfresh hlife
        exact ⟨c', hact, blocks, lda', sla', next, la, rnext, came, h'⟩
    | answer n elapsed =>
        obtain ⟨c', hact, h'⟩ := h.answer elapsed hfresh
        exact ⟨c', hact, blocks, lda, sla, next, la, rnext, came, h'⟩
    | read len =>
        obtain ⟨c', hact, h'⟩ := h.read len
        exact ⟨c', hact, blocks, lda, sla, next, la, rnext, came, h'⟩
  · exact ⟨c, rfl, blocks, lda, sla, next, la, rnext, came, h⟩

/-- Whatever the network loses, repeats and reorders, in every state of a connection the application
has read the beginning of what was written, the sender does not take any report for an attack, and once
it has nothing more to send all the rest is there to read. -/
theorem connection_delivers (lifetime : Nat) (repeated : Bool)
    {isn rcvBufSize flightFlagSize sndBufSize payloadSize : Nat} {es : List Connection.Event}
    (hisn : 0 < isn) (hmax : isn ≤ maxSeqNo) (hbuf : 0 < rcvBufSize) (hle : rcvBufSize ≤ flightFlagSize)
    (hpayload : 0 < payloadSize) (hlife : flightFlagSize * 2 + lifetime ≤ seqNoTh)
    (hfresh : Guarded Connection.step (Connection.Fresh lifetime)
      (Connection.new isn repeated rcvBufSize flightFlagSize sndBufSize payloadSize) es) :
    Safe Connection.step Delivers
      (Connection.new isn repeated rcvBufSize flightFlagSize sndBufSize payloadSize) es := by
  have hnum : seqOf isn = isn := Nat.mod_eq_of_lt (Nat.lt_succ_of_le hmax)
  have htold := le_handshakeWindow repeated hle
  have hgreatest := handshakeWindow_le repeated rcvBufSize flightFlagSize
  obtain ⟨told, hwindow⟩ : ∃ told, told = Connection.handshakeWindow repeated rcvBufSize flightFlagSize :=
    ⟨_, rfl⟩
  rw [← hwindow] at htold hgreatest
  refine safe_of_invariant (I := fun c => ∃ blocks lda sla next la rnext came,
    Linked isn rcvBufSize (max 2 told) c blocks lda sla next la rnext came) ?_ ?_ ?_ hfresh
  · rintro c ⟨blocks, lda, sla, next, la, rnext, came, h⟩
    exact ⟨h.sends.sound, h.read_prefix, fun hempty len => h.read_all hempty⟩
  · rintro c e ⟨blocks, lda, sla, next, la, rnext, came, h⟩ he
    exact h.step he (by omega)
  · have hsend := Sends.new isn sndBufSize (hnum.symm ▸ hisn) (hbuf.trans_le htold) (by omega) hpayload
    have hreceive := Receives.new (payloadOf isn []) isn (hnum.symm ▸ hisn) hbuf hle (by omega)
    rw [hnum] at hsend hreceive
    rw [Connection.new, ← hwindow]
    exact ⟨[], isn, isn, isn, isn, isn, _, hsend, hreceive, by omega, rfl, le_rfl, fun x _ _ => by omega,
      le_rfl, fun p hp => absurd hp List.not_mem_nil, fun p hp => absurd hp List.not_mem_nil, rfl⟩

/-- A stream whose numbers start over. Its first packet is lost, the second comes twice and before the
third, and the first goes out again when the receiver reports it. The receiver hears nothing for a while
and says that it is alive. -/
def lossyStream : List Connection.Event :=
  [.write [1, 2, 3, 4, 5], .send 16, .send 16, .send 16, .packet 1, .packet 1, .report 0 false,
    .acknowledge false false, .send 16, .packet 3, .packet 2, .acknowledge false false, .read 3,
    .rcvExpire false, .report 2 false, .report 1 true, .sndExpire true, .answer 0 true, .answer 1 false,
    .read 8]

theorem connection_delivers_lossy :
    Safe Connection.step Delivers (Connection.new maxSeqNo false 4 6 8 2) lossyStream :=
  connection_delivers 16 false (by decide) le_rfl (by decide) (by decide) (by decide) (by decide)
    (by decide +kernel)

example : (run Connection.step (Connection.new maxSeqNo false 4 6 8 2) lossyStream).map
    (fun c => (c.read, c.sender.sndBuffer.count)) = some ([1, 2, 3, 4, 5], 0) := by decide +kernel

end FusionFS.Udt
