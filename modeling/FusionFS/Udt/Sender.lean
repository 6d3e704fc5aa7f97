import FusionFS.Udt.Receiver
import FusionFS.Udt.SndBuffer
import FusionFS.Udt.SndLossRuns

/-!
# The sending side of a connection

What `CUDT` does with data of the application, when it is time to send a packet, with the reports of the
receiver and when nothing was heard for long. Time and the window of the congestion control are inputs.
-/

namespace FusionFS.Udt

open RcvLossList

structure Sender where
  sndLastAck : Nat
  sndLastDataAck : Nat
  sndCurrSeqNo : Nat
  flowWindowSize : Int
  sndBuffer : SndBuffer
  sndLossList : SndLossList
  sndBufSize : Nat
  life : Life

namespace Sender

/-- What `connect` prepares, where the peer has told its window. The list has room for twice of it, for the
lite acknowledgements do not clear it. -/
def new (isn flowWindowSize sndBufSize payloadSize : Nat) : Sender where
  sndLastAck := isn
  sndLastDataAck := isn
  sndCurrSeqNo := isn - 1
  flowWindowSize := flowWindowSize
  sndBuffer := SndBuffer.new 32 payloadSize
  sndLossList := SndLossList.new (flowWindowSize * 2)
  sndBufSize := sndBufSize
  life := Life.new

def heard (s : Sender) : Sender := { s with life := s.life.heard }

/-- How much of the data is taken: nothing when the buffer is full. -/
def room (s : Sender) (len : Nat) : Nat :=
  if s.sndBufSize ≤ s.sndBuffer.count then 0
  else
    let size := (s.sndBufSize - s.sndBuffer.count) * s.sndBuffer.mss
    if size > len then len else size.toNat

def send (s : Sender) (data : Bytes) : Option (Sender × Nat) :=
  if s.room data.length = 0 then some (s, 0)
  else (s.sndBuffer.addBuffer (data.take (s.room data.length)) false).map fun sndBuffer =>
    ({ s with sndBuffer := sndBuffer }, s.room data.length)

/-- Losses come before new packets. The time to live is that of streams, endless. -/
def packData (s : Sender) (congestionWindow : Int) : Option (Sender × Option (Nat × Block)) :=
  s.sndLossList.getLostSeq.map fun (sndLossList, lost) =>
    let s := { s with sndLossList := sndLossList }
    match lost with
    | some seqno =>
        let offset := seqoff s.sndLastDataAck seqno
        if offset < 0 then (s, none)
        else
          let block := s.sndBuffer.readDataAt offset.toNat
          (s, if block.data.length = 0 then none else some (seqno, block))
    | none =>
        let cwnd := if s.flowWindowSize < congestionWindow then s.flowWindowSize else congestionWindow
        if seqlen s.sndLastAck (incseq s.sndCurrSeqNo) ≤ cwnd then
          let (sndBuffer, block) := s.sndBuffer.readData
          let s := { s with sndBuffer := sndBuffer }
          match block.filter fun block => block.data.length ≠ 0 with
          | some block =>
              ({ s with sndCurrSeqNo := incseq s.sndCurrSeqNo }, some (incseq s.sndCurrSeqNo, block))
          | none => (s, none)
        else (s, none)

/-- A lite acknowledgement moves the window and leaves the buffer. -/
def processLiteAck (s : Sender) (ack : Nat) : Sender :=
  if 0 ≤ seqcmp ack s.sndLastAck then
    { s with
      flowWindowSize := s.flowWindowSize - seqoff s.sndLastAck ack
      sndLastAck := ack }
  else s

def processAck (s : Sender) (ack : Nat) (avail : Int) : Option Sender :=
  if 0 < seqcmp ack (incseq s.sndCurrSeqNo) then some { s with life := s.life.attacked }
  else
    let s := if 0 ≤ seqcmp ack s.sndLastAck then { s with flowWindowSize := avail, sndLastAck := ack } else s
    let offset := seqoff s.sndLastDataAck ack
    if offset ≤ 0 then some s
    else (s.sndLossList.remove (decseq ack)).map fun sndLossList =>
      { s with
        sndBuffer := s.sndBuffer.ackData offset.toNat
        sndLastDataAck := ack
        sndLossList := sndLossList }

def addLoss (s : Sender) (seqno1 seqno2 : Nat) : Option Sender :=
  (s.sndLossList.insert seqno1 seqno2).map fun (sndLossList, _) => { s with sndLossList := sndLossList }

/-- The loop over a loss report, which breaks the connection at a number that was not sent. -/
def processNak : Sender → List Nat → Option Sender
  | s, [] => some s
  | s, seqno :: rest =>
      if seqno &&& rangeBit ≠ 0 then
        match rest with
        | [] => none
        | last :: rest =>
            let first := seqno &&& maxSeqNo
            if 0 < seqcmp first last ∨ 0 < seqcmp last s.sndCurrSeqNo then some { s with life := s.life.attacked }
            else if 0 ≤ seqcmp first s.sndLastAck then
              (s.addLoss first last).bind fun s => processNak s rest
            else if 0 ≤ seqcmp last s.sndLastAck then
              (s.addLoss s.sndLastAck last).bind fun s => processNak s rest
            else processNak s rest
      else if 0 ≤ seqcmp seqno s.sndLastAck then
        if 0 < seqcmp seqno s.sndCurrSeqNo then some { s with life := s.life.attacked }
        else (s.addLoss seqno seqno).bind fun s => processNak s rest
      else processNak s rest

def processReport (s : Sender) : Report → Option Sender
  | .ack _ ack avail => s.heard.processAck ack avail
  | .liteAck ack => some (s.heard.processLiteAck ack)
  | .nak losslist => s.heard.processNak losslist
  | .keepAlive => some s.heard

/-- What was not acknowledged goes out again, unless losses are known. -/
def resend (s : Sender) : Option Sender :=
  if incseq s.sndCurrSeqNo ≠ s.sndLastAck ∧ s.sndLossList.length = 0 then
    s.addLoss s.sndLastAck s.sndCurrSeqNo
  else some s

/-- The expiration timer of `checkTimers`. -/
def expire (s : Sender) (late : Bool) : Option (Sender × Option Answer) :=
  if s.life.expired late then some ({ s with life := s.life.timeout }, none)
  else if 0 < s.sndBuffer.count then
    s.resend.map fun s => ({ s with life := s.life.waited }, none)
  else some ({ s with life := s.life.waited }, some .keepAlive)

end Sender

end FusionFS.Udt
