import FusionFS.Udt.LossRuns
import FusionFS.Udt.RcvBuffer

/-!
# The receiving side of a connection

What `CUDT` does with a packet of data, with its timers, with an acknowledgement of one and when its peer
says that it is alive. Time decides only whether something is done, so it is an input. What both sides
know of each other's life comes first.
-/

namespace FusionFS.Udt

open IntervalSet SerialNumber SlotChain RcvLossList

/-- How often the expiration timer has run out since the peer was heard, and whether the socket was given
up. -/
structure Life where
  expCount : Nat
  closing : Bool
  broken : Bool

namespace Life

def new : Life := ⟨1, false, false⟩

def heard (l : Life) : Life := { l with expCount := 1 }

/-- The thread that receives passes over the other sockets. -/
def alive (l : Life) : Bool := !l.broken && !l.closing

/-- The peer is dead after 16 expirations, if `late`: it was not heard for long enough either. -/
def expired (l : Life) (late : Bool) : Bool := decide (16 < l.expCount) && late

/-- The timer gives the connection up. -/
def timeout (l : Life) : Life := { l with closing := true, broken := true }

/-- An attack or a bug. -/
def attacked (l : Life) : Life := { l with broken := true }

def waited (l : Life) : Life := { l with expCount := l.expCount + 1 }

end Life

/-- `m_iMaxAckSeqNo`. -/
def maxAckSeqNo : Nat := 0x7FFFFFFF

def incack (ackno : Nat) : Nat := if ackno = maxAckSeqNo then 0 else ackno + 1

/-- `CACKWindow`: which packet each acknowledgement was for. -/
structure AckWindow where
  ackSeqNo : Nat → Option Nat
  ack : Nat → Nat
  size : Nat
  head : Nat
  tail : Nat

namespace AckWindow

def new (size : Nat) : AckWindow := ⟨fun _ => none, fun _ => 0, size, 0, 0⟩

def store (w : AckWindow) (seq ack : Nat) : AckWindow :=
  let head := (w.head + 1) % w.size
  { w with
    ackSeqNo := Function.update w.ackSeqNo w.head (some seq)
    ack := Function.update w.ack w.head ack
    head := head
    tail := if head = w.tail then (w.tail + 1) % w.size else w.tail }

def reset (w : AckWindow) : AckWindow :=
  { w with ackSeqNo := Function.update w.ackSeqNo 0 none, head := 0, tail := 0 }

/-- The packet that was acknowledged, unless the entry is lost. -/
def acknowledge (w : AckWindow) (seq : Nat) : Option (Nat × AckWindow) :=
  if w.tail ≤ w.head then
    ((List.range' w.tail (w.head - w.tail)).find? fun i => w.ackSeqNo i = some seq).map fun i =>
      (w.ack i, if i + 1 = w.head then w.reset else { w with tail := (i + 1) % w.size })
  else
    ((List.range' w.tail (w.head + w.size - w.tail)).find? fun j =>
        w.ackSeqNo (j % w.size) = some seq).map fun j =>
      let j := j % w.size
      (w.ack j, if j = w.head then w.reset else { w with tail := (j + 1) % w.size })

end AckWindow

/-- What a receiver sends back. -/
inductive Report where
  | ack (ackSeqNo ack : Nat) (avail : Int)
  | liteAck (ack : Nat)
  | nak (losslist : List Nat)
  | keepAlive
  deriving DecidableEq

/-- What a sender sends besides packets. -/
inductive Answer where
  | ack2 (ackSeqNo : Nat)
  | keepAlive
  deriving DecidableEq

/-- The answer to an acknowledgement. -/
def Report.answer : Report → Option Answer
  | .ack ackSeqNo _ _ => some (.ack2 ackSeqNo)
  | .liteAck _ => none
  | .nak _ => none
  | .keepAlive => none

structure Receiver where
  rcvLastAck : Nat
  rcvLastAckAck : Nat
  rcvCurrSeqNo : Nat
  ackSeqNo : Nat
  rcvBuffer : RcvBuffer
  rcvLossList : RcvLossList
  ackWindow : AckWindow
  life : Life

namespace Receiver

/-- What `connect` prepares. -/
def new (isn rcvBufSize flightFlagSize : Nat) : Receiver where
  rcvLastAck := isn
  rcvLastAckAck := isn
  rcvCurrSeqNo := isn - 1
  ackSeqNo := 0
  rcvBuffer := RcvBuffer.new rcvBufSize
  rcvLossList := RcvLossList.new flightFlagSize
  ackWindow := AckWindow.new 1024
  life := Life.new

def heard (r : Receiver) : Receiver := { r with life := r.life.heard }

/-- The packet that is acknowledged next: the first lost one, or the one behind all. -/
def nextAck (r : Receiver) : Option Nat :=
  if r.rcvLossList.length = 0 then some (incseq r.rcvCurrSeqNo) else r.rcvLossList.getFirstLostSeq

/-- The acknowledgement of `sendCtrl`. `recent` if the same one was sent a short time ago. -/
def sendAck (r : Receiver) (lite recent : Bool) : Option (Receiver × Option Report) :=
  r.nextAck.bind fun ack =>
    if ack = r.rcvLastAckAck then some (r, none)
    else if lite then some (r, some (.liteAck ack))
    else
      let fresh := 0 < seqcmp ack r.rcvLastAck
      let r := if fresh then
          { r with
            rcvLastAck := ack
            rcvBuffer := r.rcvBuffer.ackData (seqoff r.rcvLastAck ack).toNat }
        else r
      if (fresh ∨ (ack = r.rcvLastAck ∧ recent = false)) ∧ 0 < seqcmp r.rcvLastAck r.rcvLastAckAck then
        let ackSeqNo := incack r.ackSeqNo
        let avail := r.rcvBuffer.getAvailBufSize
        some ({ r with ackSeqNo := ackSeqNo, ackWindow := r.ackWindow.store ackSeqNo r.rcvLastAck },
          some (.ack ackSeqNo r.rcvLastAck (if avail < 2 then 2 else avail)))
      else some (r, none)

/-- An acknowledgement of an acknowledgement. `elapsed` if its round trip took any time. -/
def processAck2 (r : Receiver) (ackSeqNo : Nat) (elapsed : Bool) : Receiver :=
  match r.ackWindow.acknowledge ackSeqNo with
  | none => r
  | some (ack, ackWindow) =>
      let r := { r with ackWindow := ackWindow }
      if elapsed ∧ 0 < seqcmp ack r.rcvLastAckAck then { r with rcvLastAckAck := ack } else r

def processAnswer (r : Receiver) (elapsed : Bool) : Answer → Receiver
  | .ack2 ackSeqNo => r.heard.processAck2 ackSeqNo elapsed
  | .keepAlive => r.heard

/-- The expiration timer of a side that has nothing to send itself. -/
def expire (r : Receiver) (late : Bool) : Receiver × Option Report :=
  if r.life.expired late then ({ r with life := r.life.timeout }, none)
  else ({ r with life := r.life.waited }, some .keepAlive)

/-- The loss report of the numbers from one to another. -/
def lossData (seqno1 seqno2 : Nat) : List Nat :=
  if seqno1 = seqno2 then [seqno2] else [seqno1 ||| rangeBit, seqno2]

/-- Losses are found when a packet is ahead of the next. -/
def detectLoss (r : Receiver) (seqno : Nat) : Option (Receiver × Option Report) :=
  let next := incseq r.rcvCurrSeqNo
  if 0 < seqcmp seqno next then
    (r.rcvLossList.insert next (decseq seqno)).map fun rcvLossList =>
      ({ r with rcvLossList := rcvLossList }, some (.nak (lossData next (decseq seqno))))
  else some (r, none)

def processData (r : Receiver) (seqno : Nat) (data : Bytes) : Option (Receiver × Option Report) :=
  let r := r.heard
  let offset := seqoff r.rcvLastAck seqno
  if offset < 0 ∨ r.rcvBuffer.getAvailBufSize ≤ offset then some (r, none)
  else
    let added := r.rcvBuffer.addData data offset.toNat
    let r := { r with rcvBuffer := added.1 }
    if added.2 then
      (r.detectLoss seqno).bind fun (r, report) =>
        if 0 < seqcmp seqno r.rcvCurrSeqNo then some ({ r with rcvCurrSeqNo := seqno }, report)
        else (r.rcvLossList.remove seqno).map fun (rcvLossList, _) =>
          ({ r with rcvLossList := rcvLossList }, report)
    else some (r, none)

def recv (r : Receiver) (len : Nat) : Option (Receiver × Bytes) :=
  (r.rcvBuffer.readBuffer len).map fun (rcvBuffer, data) => ({ r with rcvBuffer := rcvBuffer }, data)

end Receiver

end FusionFS.Udt
