import FusionFS.Udt.Receiver

/-!
# What a receiver has received

Every packet that came is in the buffer or was read, every number that is missing is in the loss list,
and everything before the last acknowledgement came. Each of the receiver's steps keeps this, for a
packet whose number is not half of the numbers away from that acknowledgement.
-/

namespace FusionFS.Udt

open IntervalSet SerialNumber SlotChain RcvLossList

/-- The packets up to `la` are acknowledged, no packet from `next` on has come, and `out` is what the
application has read. The packets count from `isn`. -/
structure Receives (payload : Nat → Bytes) (isn bufSize : Nat) (r : Receiver) (la next : Nat)
    (came : Nat → Option Bytes) (out : Bytes) : Prop where
  isn_pos : 0 < isn
  isn_le : isn ≤ la
  le_next : la ≤ next
  lastAck : r.rcvLastAck = seqOf la
  curr : r.rcvCurrSeqNo = seqOf (next - 1)
  bufSize_eq : r.rcvBuffer.size = bufSize
  size : r.rcvBuffer.size ≤ r.rcvLossList.size
  small : r.rcvLossList.size ≤ seqNoTh
  came_eq : ∀ x p, came x = some p → p = payload x ∧ isn ≤ x ∧ x < next
  full : ∀ x, isn ≤ x → x < la → (came x).isSome
  lost : ∃ lost, Keeps r.rcvLossList r.rcvLossList.size lost ∧
    ∀ x, x ∈ lost ↔ isn ≤ x ∧ x < next ∧ came x = none
  buffer : ∃ c rd, r.rcvBuffer.Represents c rd la came ∧ next < rd + r.rcvBuffer.size ∧
    out ++ r.rcvBuffer.pending came rd la = RcvBuffer.bytes came isn (la - isn)

variable {payload : Nat → Bytes} {isn bufSize la next x : Nat} {r : Receiver} {came : Nat → Option Bytes}
  {out : Bytes}

namespace Receives

theorem new (payload : Nat → Bytes) (isn : Nat) {rcvBufSize flightFlagSize : Nat} (hisn : 0 < seqOf isn) (hpos : 0 < rcvBufSize)
    (hsize : rcvBufSize ≤ flightFlagSize) (hsmall : flightFlagSize ≤ seqNoTh) :
    Receives payload isn rcvBufSize (Receiver.new (seqOf isn) rcvBufSize flightFlagSize) isn isn (fun _ => none)
      [] where
  isn_pos := pos_of_seqOf_pos hisn
  isn_le := le_rfl
  le_next := le_rfl
  lastAck := rfl
  curr := seqOf_pred hisn
  bufSize_eq := rfl
  size := hsize
  small := hsmall
  came_eq x p hp := by cases hp
  full x hx hx' := by omega
  lost := ⟨∅, Keeps.new (hpos.trans_le hsize) hsmall, by simp⟩
  buffer := by
    obtain ⟨c, h⟩ := RcvBuffer.Represents.new hpos isn
    refine ⟨c, isn, h, ?_, ?_⟩
    · show isn < isn + rcvBufSize
      omega
    · simp [RcvBuffer.pending, RcvBuffer.bytes]

/-- A packet that is missing is not acknowledged. -/
theorem la_le (h : Receives payload isn bufSize r la next came out) (hx : isn ≤ x) (hnone : came x = none) :
    la ≤ x := by
  by_contra hlt
  have := h.full x hx (by omega)
  rw [hnone] at this
  cases this

/-- The packet acknowledged next: all before it came. -/
theorem nextAck_eq (h : Receives payload isn bufSize r la next came out) :
    ∃ k, r.nextAck = some (seqOf k) ∧ la ≤ k ∧ k ≤ next ∧ ∀ x, isn ≤ x → x < k → (came x).isSome := by
  obtain ⟨lost, ⟨-, c, runs, hrep, rfl⟩, hlost⟩ := h.lost
  have hnext := h.le_next
  have hpos := h.isn_pos
  have hisn := h.isn_le
  rw [Receiver.nextAck]
  by_cases hempty : r.rcvLossList.length = 0
  · obtain rfl := hrep.length_eq_zero_iff.mp hempty
    refine ⟨next, ?_, hnext, le_rfl, fun x hx hx' => ?_⟩
    · rw [if_pos hempty, h.curr, incseq_seqOf, Nat.sub_add_cancel (by omega)]
    · rw [← Option.ne_none_iff_isSome]
      intro hnone
      have hmem := (hlost x).mpr ⟨hx, hx', hnone⟩
      simp at hmem
  · have hne : (elems runs).Nonempty := by
      rw [hrep.card_eq, Int.natCast_eq_zero, Finset.card_eq_zero] at hempty
      exact Finset.nonempty_iff_ne_empty.mpr hempty
    obtain ⟨k, hk, hmin⟩ := Finset.exists_min_image (elems runs) id hne
    obtain ⟨hik, hkn, hnone⟩ := (hlost k).mp hk
    refine ⟨k, ?_, h.la_le hik hnone, hkn.le, fun x hx hx' => ?_⟩
    · rw [if_neg hempty, hrep.getFirstLostSeq hk hmin]
    · rw [← Option.ne_none_iff_isSome]
      intro hnone'
      have := hmin x ((hlost x).mpr ⟨hx, by omega, hnone'⟩)
      simp only [id] at this
      omega

theorem near_next (h : Receives payload isn bufSize r la next came out) : next < la + r.rcvBuffer.size := by
  obtain ⟨c, rd, hbuf, hlt, -⟩ := h.buffer
  have := hbuf.le
  omega

/-- Only these fields count. -/
theorem of_fields (h : Receives payload isn bufSize r la next came out) {r' : Receiver}
    (hlast : r'.rcvLastAck = r.rcvLastAck) (hcurr : r'.rcvCurrSeqNo = r.rcvCurrSeqNo)
    (hlist : r'.rcvLossList = r.rcvLossList) (hbuffer : r'.rcvBuffer = r.rcvBuffer) :
    Receives payload isn bufSize r' la next came out where
  isn_pos := h.isn_pos
  isn_le := h.isn_le
  le_next := h.le_next
  lastAck := hlast.trans h.lastAck
  curr := hcurr.trans h.curr
  bufSize_eq := by
    rw [hbuffer]
    exact h.bufSize_eq
  size := by
    rw [hbuffer, hlist]
    exact h.size
  small := by
    rw [hlist]
    exact h.small
  came_eq := h.came_eq
  full := h.full
  lost := by
    rw [hlist]
    exact h.lost
  buffer := by
    rw [hbuffer]
    exact h.buffer

theorem heard (h : Receives payload isn bufSize r la next came out) :
    Receives payload isn bufSize r.heard la next came out :=
  h.of_fields rfl rfl rfl rfl

theorem expire (h : Receives payload isn bufSize r la next came out) (late : Bool) :
    Receives payload isn bufSize (r.expire late).1 la next came out := by
  unfold Receiver.expire
  split
  · exact h.of_fields rfl rfl rfl rfl
  · exact h.of_fields rfl rfl rfl rfl

/-- The buffer up to a packet before which all came is for the application. -/
theorem advance (h : Receives payload isn bufSize r la next came out) {k : Nat} (hk : la ≤ k) (hkn : k ≤ next)
    (hall : ∀ x, isn ≤ x → x < k → (came x).isSome) :
    Receives payload isn bufSize { r with
      rcvLastAck := seqOf k
      rcvBuffer := r.rcvBuffer.ackData (k - la) } k next came out where
  isn_pos := h.isn_pos
  isn_le := h.isn_le.trans hk
  le_next := hkn
  lastAck := rfl
  curr := h.curr
  bufSize_eq := h.bufSize_eq
  size := h.size
  small := h.small
  came_eq := h.came_eq
  full := hall
  lost := h.lost
  buffer := by
    obtain ⟨c, rd, hbuf, hlt, hout⟩ := h.buffer
    have hisn := h.isn_le
    have hack := hbuf.ackData (n := k - la) (by omega) fun x hx hx' => hall x (by omega) (by omega)
    rw [show la + (k - la) = k by omega] at hack
    refine ⟨c, rd, hack.1, hlt, ?_⟩
    rw [hack.2, ← List.append_assoc, hout, show k - isn = la - isn + (k - la) by omega,
      RcvBuffer.bytes_add, show isn + (la - isn) = la by omega]

/-- The window of an acknowledgement. -/
theorem avail_le (h : Receives payload isn bufSize r la next came out) :
    r.rcvBuffer.getAvailBufSize ≤ bufSize := by
  obtain ⟨c, rd, hbuf, -, -⟩ := h.buffer
  have := hbuf.le
  have := h.bufSize_eq
  rw [hbuf.getAvailBufSize_eq]
  omega

/-- **Acknowledging.** The number that is sent is that of a packet before which all came, and a full
acknowledgement passes these on to the application first. -/
theorem sendAck (h : Receives payload isn bufSize r la next came out) (lite recent : Bool) :
    ∃ r' report la', r.sendAck lite recent = some (r', report) ∧
      Receives payload isn bufSize r' la' next came out ∧ la ≤ la' ∧
      (report = none ∨
        (∃ k, report = some (.liteAck (seqOf k)) ∧ la ≤ k ∧ k ≤ next ∧
          ∀ x, isn ≤ x → x < k → (came x).isSome) ∨
        ∃ n avail, report = some (.ack n (seqOf la') avail) ∧ avail ≤ (max 2 bufSize : Nat)) := by
  obtain ⟨k, hack, hlk, hkn, hall⟩ := h.nextAck_eq
  have hlt := h.near_next
  have hsize := h.size
  have hsmall := h.small
  have hnear : Near seqNoTh k la := ⟨by omega, by omega⟩
  have hfresh : 0 < seqcmp (seqOf k) r.rcvLastAck ↔ la < k := by rw [h.lastAck, seqcmp_pos_iff hnear]
  have havail : ∀ avail : Int, avail ≤ bufSize → (if avail < 2 then 2 else avail) ≤ (max 2 bufSize : Nat) := by
    intro avail hle
    split <;> omega
  unfold Receiver.sendAck
  rw [hack, Option.bind_some]
  by_cases hknown : seqOf k = r.rcvLastAckAck
  · rw [if_pos hknown]
    exact ⟨r, none, la, rfl, h, le_rfl, .inl rfl⟩
  · rw [if_neg hknown]
    by_cases hlite : lite = true
    · rw [if_pos hlite]
      exact ⟨r, _, la, rfl, h, le_rfl, .inr (.inl ⟨k, rfl, hlk, hkn, hall⟩)⟩
    · rw [if_neg hlite]
      by_cases hlak : la < k
      · have hadv := h.advance hlk hkn hall
        have hoff : (seqoff r.rcvLastAck (seqOf k)).toNat = k - la := by
          rw [h.lastAck, seqoff_eq hnear.symm]
          omega
        simp only [if_pos (hfresh.mpr hlak), hoff]
        split
        · exact ⟨_, _, k, rfl, hadv.of_fields rfl rfl rfl rfl, hlk,
            .inr (.inr ⟨_, _, rfl, havail _ hadv.avail_le⟩)⟩
        · exact ⟨_, none, k, rfl, hadv, hlk, .inl rfl⟩
      · obtain rfl : k = la := by omega
        simp only [if_neg (mt hfresh.mp hlak)]
        split
        · refine ⟨_, _, k, rfl, h.of_fields rfl rfl rfl rfl, le_rfl, .inr (.inr ⟨incack r.ackSeqNo, _, ?_,
            havail _ h.avail_le⟩)⟩
          rw [h.lastAck]
        · exact ⟨r, none, k, rfl, h, le_rfl, .inl rfl⟩

theorem processAck2 (h : Receives payload isn bufSize r la next came out) (ackSeqNo : Nat) (elapsed : Bool) :
    Receives payload isn bufSize (r.processAck2 ackSeqNo elapsed) la next came out := by
  unfold Receiver.processAck2
  cases r.ackWindow.acknowledge ackSeqNo with
  | none => exact h
  | some entry =>
      dsimp only
      split
      · exact h.of_fields rfl rfl rfl rfl
      · exact h.of_fields rfl rfl rfl rfl

theorem processAnswer (h : Receives payload isn bufSize r la next came out) (elapsed : Bool)
    (answer : Answer) : Receives payload isn bufSize (r.processAnswer elapsed answer) la next came out := by
  cases answer with
  | ack2 ackSeqNo => exact h.heard.processAck2 ackSeqNo elapsed
  | keepAlive => exact h.heard

/-- **Reading.** What the application gets follows what it has. -/
theorem recv (h : Receives payload isn bufSize r la next came out) (len : Nat) :
    ∃ r' data, r.recv len = some (r', data) ∧
      Receives payload isn bufSize r' la next came (out ++ data) ∧
      out ++ data = (RcvBuffer.bytes came isn (la - isn)).take (out.length + len) := by
  obtain ⟨c, rd, hbuf, hlt, hout⟩ := h.buffer
  obtain ⟨b', rd', hread, hbuf', hrest, hsize, hrd⟩ := hbuf.readBuffer len
  refine ⟨{ r with rcvBuffer := b' }, (r.rcvBuffer.pending came rd la).take len, ?_,
    ⟨h.isn_pos, h.isn_le, h.le_next, h.lastAck, h.curr, hsize.trans h.bufSize_eq, hsize.symm ▸ h.size,
      h.small, h.came_eq, h.full, h.lost, c, rd', hbuf', ?_, ?_⟩, ?_⟩
  · rw [Receiver.recv, hread]
    rfl
  · show next < rd' + b'.size
    omega
  · show _ ++ b'.pending came rd' la = _
    rw [hrest, List.append_assoc, List.take_append_drop, hout]
  · rw [← hout, List.take_length_add_append]

/-- What the payloads of packets that did not come are does not count. -/
theorem congr_payload (h : Receives payload isn bufSize r la next came out) {payload' : Nat → Bytes}
    (heq : ∀ x, isn ≤ x → x < next → payload' x = payload x) :
    Receives payload' isn bufSize r la next came out :=
  { h with
    came_eq := fun x p hp => by
      obtain ⟨hpay, hx, hxn⟩ := h.came_eq x p hp
      exact ⟨hpay.trans (heq x hx hxn).symm, hx, hxn⟩ }

/-- What was read is a part of the stream. -/
theorem out_prefix (h : Receives payload isn bufSize r la next came out) :
    out <+: RcvBuffer.bytes came isn (la - isn) := by
  obtain ⟨c, rd, -, -, hout⟩ := h.buffer
  exact ⟨_, hout⟩

/-! ### Data -/

/-- The buffer once a packet is in that did not come before. -/
theorem addData_fresh {b : RcvBuffer} {c rd d : Nat} (hbuf : b.Represents c rd la came)
    (hd : (d : Int) < b.getAvailBufSize) (hnone : came (la + d) = none) (packet : Bytes) :
    (b.addData packet d).2 = true ∧
      (b.addData packet d).1.Represents c rd la (Function.update came (la + d) (some packet)) ∧
      (b.addData packet d).1.pending (Function.update came (la + d) (some packet)) rd la =
        b.pending came rd la := by
  have hle := hbuf.le
  obtain ⟨hok, hbuf'⟩ := hbuf.addData packet hd
  rw [hnone] at hok
  rw [hnone, if_pos Option.isNone_none] at hbuf'
  refine ⟨hok, hbuf', ?_⟩
  rw [RcvBuffer.pending, RcvBuffer.pending, RcvBuffer.addData_notch]
  congr 1
  apply RcvBuffer.bytes_congr
  intro x _ hx
  exact Function.update_of_ne (by omega) ..

/-- The numbers that are missed when a packet is ahead go into the loss list. -/
theorem detectLoss_eq (h : Receives payload isn bufSize r la next came out) (hx : la ≤ x)
    (hlt : x < la + r.rcvBuffer.size) (r' : Receiver) (hcurr : r'.rcvCurrSeqNo = r.rcvCurrSeqNo)
    (hlist : r'.rcvLossList = r.rcvLossList) :
    ∃ lossList report lost, r'.detectLoss (seqOf x) =
        some ({ r' with rcvLossList := lossList }, report) ∧
      (report = none ∨ next < x ∧ report = some (.nak (Receiver.lossData (seqOf next) (seqOf (x - 1))))) ∧
      lossList.size = r.rcvLossList.size ∧ Keeps lossList r.rcvLossList.size lost ∧
      ∀ y, y ∈ lost ↔ isn ≤ y ∧ y < max next x ∧ came y = none := by
  obtain ⟨lost, hkeeps, hlost⟩ := h.lost
  have hnext := h.near_next
  have hle := h.le_next
  have hisn := h.isn_le
  have hpos := h.isn_pos
  have hsize := h.size
  have hsmall := h.small
  have hcmp := seqcmp_pos_iff (show Near seqNoTh x next from ⟨by omega, by omega⟩)
  have hincseq : incseq r'.rcvCurrSeqNo = seqOf next := by
    rw [hcurr, h.curr, incseq_seqOf, Nat.sub_add_cancel (by omega)]
  unfold Receiver.detectLoss
  simp only [hincseq]
  by_cases hahead : next < x
  · have hdec : decseq (seqOf x) = seqOf (x - 1) := decseq_eq (by omega)
    have hlegal : (LossOp.insert next (x - 1)).Legal r.rcvLossList.size lost := by
      refine ⟨by omega, by omega, fun y hy => ?_⟩
      obtain ⟨hiy, hyn, hnone⟩ := (hlost y).mp hy
      have := h.la_le hiy hnone
      omega
    obtain ⟨l', hinsert, hkeeps'⟩ := hkeeps.call hlegal
    rw [if_pos (hcmp.mpr hahead), hdec, hlist]
    rw [LossOp.call] at hinsert
    rw [hinsert]
    refine ⟨l', _, _, rfl, .inr ⟨hahead, rfl⟩, hkeeps'.1, hkeeps', fun y => ?_⟩
    rw [LossOp.apply, Finset.mem_union, Finset.mem_Icc, hlost]
    constructor
    · rintro (⟨hiy, hyn, hnone⟩ | ⟨hny, hyx⟩)
      · exact ⟨hiy, by omega, hnone⟩
      · refine ⟨by omega, by omega, ?_⟩
        cases hcame : came y with
        | none => rfl
        | some p =>
            have := (h.came_eq y p hcame).2.2
            omega
    · rintro ⟨hiy, hyx, hnone⟩
      by_cases hyn : y < next
      · exact .inl ⟨hiy, hyn, hnone⟩
      · exact .inr ⟨by omega, by omega⟩
  · rw [if_neg (mt hcmp.mp hahead)]
    refine ⟨r.rcvLossList, none, lost, ?_, .inl rfl, rfl, hkeeps, fun y => ?_⟩
    · rw [← hlist]
    · rw [hlost, max_eq_left (by omega)]

/-- One packet more. -/
theorem received (h : Receives payload isn bufSize r la next came out) {c rd d curr : Nat}
    {lossList : RcvLossList} {lost : Finset Nat} (hbuf : r.rcvBuffer.Represents c rd la came)
    (hbound : next < rd + r.rcvBuffer.size)
    (hout : out ++ r.rcvBuffer.pending came rd la = RcvBuffer.bytes came isn (la - isn))
    (hd : (d : Int) < r.rcvBuffer.getAvailBufSize) (hnone : came (la + d) = none)
    (hsize : lossList.size = r.rcvLossList.size) (hkeeps : Keeps lossList r.rcvLossList.size lost)
    (hlost : ∀ y, y ∈ lost ↔ isn ≤ y ∧ y < max next (la + d + 1) ∧
      Function.update came (la + d) (some (payload (la + d))) y = none)
    (hcurr : curr = seqOf (max next (la + d + 1) - 1)) :
    Receives payload isn bufSize { r with
      rcvCurrSeqNo := curr
      rcvBuffer := (r.rcvBuffer.addData (payload (la + d)) d).1
      rcvLossList := lossList } la (max next (la + d + 1))
      (Function.update came (la + d) (some (payload (la + d)))) out := by
  obtain ⟨-, hbuf', hpending⟩ := addData_fresh hbuf hd hnone (payload (la + d))
  have hroom := hd
  rw [hbuf.getAvailBufSize_eq] at hroom
  have hle := h.le_next
  have hisn := h.isn_le
  refine ⟨h.isn_pos, hisn, hle.trans (le_max_left ..), h.lastAck, hcurr,
    (RcvBuffer.addData_size ..).trans h.bufSize_eq, ?_, hsize.symm ▸ h.small,
    fun y p hp => ?_, fun y hy hy' => ?_, ⟨lost, hsize.symm ▸ hkeeps, hlost⟩, c, rd, hbuf', ?_, ?_⟩
  · show (r.rcvBuffer.addData (payload (la + d)) d).1.size ≤ lossList.size
    rw [RcvBuffer.addData_size, hsize]
    exact h.size
  · by_cases hy : y = la + d
    · subst hy
      rw [Function.update_self, Option.some.injEq] at hp
      exact ⟨hp.symm, by omega, by omega⟩
    · rw [Function.update_of_ne hy] at hp
      obtain ⟨hpay, hiy, hyn⟩ := h.came_eq y p hp
      exact ⟨hpay, hiy, by omega⟩
  · rw [Function.update_of_ne (by omega)]
    exact h.full y hy hy'
  · show max next (la + d + 1) < rd + (r.rcvBuffer.addData (payload (la + d)) d).1.size
    rw [RcvBuffer.addData_size]
    omega
  · show out ++ (r.rcvBuffer.addData (payload (la + d)) d).1.pending _ rd la = _
    rw [hpending, hout]
    apply RcvBuffer.bytes_congr
    intro y _ hy
    exact (Function.update_of_ne (by omega) ..).symm

/-- **Data.** A packet comes, whatever came before it. -/
theorem processData (h : Receives payload isn bufSize r la next came out) (hnear : Near seqNoTh x la) :
    ∃ r' report next' came', r.processData (seqOf x) (payload x) = some (r', report) ∧
      Receives payload isn bufSize r' la next' came' out ∧
      (∀ y, (came y).isSome → (came' y).isSome) ∧ next' ≤ max next (x + 1) ∧
      (report = none ∨ ∃ i j, i ≤ j ∧ j < next' ∧ la ≤ i ∧
        report = some (.nak (Receiver.lossData (seqOf i) (seqOf j)))) := by
  replace h := h.heard
  unfold Receiver.processData
  generalize r.heard = r at h ⊢
  obtain ⟨c, rd, hbuf, hbound, hout⟩ := h.buffer
  have hrd := hbuf.le
  have hle := h.le_next
  have hisn := h.isn_le
  have hpos := h.isn_pos
  have hsize := h.size
  have hsmall := h.small
  have hoff : seqoff r.rcvLastAck (seqOf x) = (x : Int) - la := by
    rw [h.lastAck, seqoff_eq hnear.symm]
  simp only [hoff]
  by_cases hwindow : (x : Int) - la < 0 ∨ r.rcvBuffer.getAvailBufSize ≤ (x : Int) - la
  · rw [if_pos hwindow]
    exact ⟨r, none, next, came, rfl, h, fun y hy => hy, le_max_left .., .inl rfl⟩
  · rw [if_neg hwindow]
    obtain ⟨d, rfl⟩ : ∃ d, x = la + d := ⟨x - la, by omega⟩
    have hd : (d : Int) < r.rcvBuffer.getAvailBufSize := by omega
    have hroom := hd
    rw [hbuf.getAvailBufSize_eq] at hroom
    rw [show (((la + d : Nat) : Int) - la).toNat = d by omega]
    cases hcame : came (la + d) with
    | some packet =>
        -- it came before
        obtain ⟨hok, hbuf'⟩ := hbuf.addData (payload (la + d)) hd
        rw [hcame] at hok hbuf'
        refine ⟨_, none, next, came, if_neg (by simp [hok]), ?_, fun y hy => hy, le_max_left .., .inl rfl⟩
        refine ⟨hpos, hisn, hle, h.lastAck, h.curr, (RcvBuffer.addData_size ..).trans h.bufSize_eq, ?_, hsmall, h.came_eq, h.full, h.lost, c, rd, hbuf', ?_, ?_⟩
        · exact (RcvBuffer.addData_size ..).le.trans hsize
        · show next < rd + (r.rcvBuffer.addData (payload (la + d)) d).1.size
          rwa [RcvBuffer.addData_size]
        · show out ++ (r.rcvBuffer.addData (payload (la + d)) d).1.pending came rd la = _
          rw [RcvBuffer.pending, RcvBuffer.addData_notch]
          exact hout
    | none =>
        have hok := (addData_fresh hbuf hd hcame (payload (la + d))).1
        have hcame' : ∀ y, (came y).isSome →
            (Function.update came (la + d) (some (payload (la + d))) y).isSome := by
          intro y hy
          by_cases hyd : y = la + d
          · rw [hyd, Function.update_self, Option.isSome_some]
          · rwa [Function.update_of_ne hyd]
        obtain ⟨l, report, lost, hdetect, hreport, hlsize, hkeeps, hlost⟩ :=
          h.detectLoss_eq (x := la + d) (by omega) (by omega)
            { r with rcvBuffer := (r.rcvBuffer.addData (payload (la + d)) d).1 } rfl rfl
        have hcmp : 0 < seqcmp (seqOf (la + d)) r.rcvCurrSeqNo ↔ next ≤ la + d := by
          rw [h.curr, seqcmp_pos_iff ⟨by omega, by omega⟩]
          omega
        have hnak : report = none ∨ ∃ i j, i ≤ j ∧ j < max next (la + d + 1) ∧ la ≤ i ∧
            report = some (.nak (Receiver.lossData (seqOf i) (seqOf j))) := by
          obtain hnone | ⟨hlt, hsome⟩ := hreport
          · exact .inl hnone
          · exact .inr ⟨next, la + d - 1, by omega, by omega, hle, hsome⟩
        simp only [hok, if_true, hdetect, Option.bind_some]
        by_cases hahead : next ≤ la + d
        · -- the packet is the last so far
          rw [if_pos (hcmp.mpr hahead)]
          refine ⟨_, report, max next (la + d + 1), _, rfl, h.received hbuf hbound hout hd hcame hlsize
            hkeeps (fun y => ?_) ?_, hcame', le_rfl, hnak⟩
          · rw [hlost]
            by_cases hyd : y = la + d
            · subst hyd
              rw [Function.update_self]
              simp
              omega
            · rw [Function.update_of_ne hyd]
              refine and_congr_right fun _ => and_congr_left fun _ => ?_
              omega
          · rw [max_eq_right (by omega), Nat.add_sub_cancel]
        · -- the packet was missing
          rw [if_neg (mt hcmp.mp hahead)]
          have hlegal : (LossOp.remove (la + d)).Legal r.rcvLossList.size lost := by
            intro y hy
            obtain ⟨hiy, hyn, hynone⟩ := (hlost y).mp hy
            have := h.la_le hiy hynone
            exact ⟨by omega, by omega⟩
          obtain ⟨l', hremove, hkeeps'⟩ := hkeeps.call hlegal
          obtain ⟨⟨l'', found⟩, hremove', rfl⟩ := Option.map_eq_some_iff.mp hremove
          rw [hremove']
          refine ⟨_, report, max next (la + d + 1), _, rfl, h.received hbuf hbound hout hd hcame
            hkeeps'.1 hkeeps' (fun y => ?_) ?_, hcame', le_rfl, hnak⟩
          · rw [LossOp.apply, Finset.mem_erase, hlost]
            by_cases hyd : y = la + d
            · simp [hyd]
            · rw [Function.update_of_ne hyd]
              refine ⟨fun hy => ⟨hy.2.1, by omega, hy.2.2.2⟩, fun hy => ⟨hyd, hy.1, by omega, hy.2.2⟩⟩
          · rw [max_eq_left (by omega)]
            exact h.curr

end Receives

end FusionFS.Udt
