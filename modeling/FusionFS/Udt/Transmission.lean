import FusionFS.Udt.Sender

/-!
# What a sender has sent

The packets that were not acknowledged are in the buffer, their number stays in the window of the peer,
and only they are in the loss list. Each of the sender's steps keeps this, for a report about packets
that were sent whose numbers are not half of the numbers behind the last one.
-/

namespace FusionFS.Udt

open IntervalSet SerialNumber SndLossList RcvLossList

/-- The counts of a sender that started with the packet `isn`: up to `lda` it needs no data, up to `sla`
the peer has all, and up to `next` it has sent. -/
structure SendCounts (isn window lda sla next : Nat) : Prop where
  isn_pos : 0 < isn
  isn_le : isn ≤ lda
  lda_le : lda ≤ sla
  sla_le : sla ≤ next
  next_le : next ≤ lda + window
  small : window < seqNoTh

/-- The packets of `blocks` count from `isn`. -/
structure Sends (blocks : List Block) (isn window : Nat) (s : Sender) (lda sla next : Nat) : Prop
    extends SendCounts isn window lda sla next where
  dataAck : s.sndLastDataAck = seqOf lda
  lastAck : s.sndLastAck = seqOf sla
  curr : s.sndCurrSeqNo = seqOf (next - 1)
  flow : sla + s.flowWindowSize ≤ lda + window
  data : ∀ block ∈ blocks, 0 < block.data.length
  written : next ≤ isn + blocks.length
  buffer : ∃ q, s.sndBuffer.Represents q ∧ 0 < q.mss ∧ q.sent ++ q.unsent = blocks.drop (lda - isn) ∧
    q.sent.length = next - lda
  lost : ∃ size lost, window ≤ size ∧ s.sndLossList.Keeps size lost ∧ ∀ x ∈ lost, lda ≤ x ∧ x < next
  sound : s.life.broken = true → s.life.closing = true

variable {blocks : List Block} {isn window lda sla next i j k : Nat} {s : Sender}

theorem SendCounts.incseq_curr (h : SendCounts isn window lda sla next) :
    incseq (seqOf (next - 1)) = seqOf next := by
  have := h.isn_pos
  have := h.isn_le
  have := h.lda_le
  have := h.sla_le
  rw [incseq_seqOf, Nat.sub_add_cancel (by omega)]

/-! ### The bit of a range -/

theorem rangeBit_and_maxSeqNo : rangeBit &&& maxSeqNo = 0 := by decide

theorem seqOf_and_maxSeqNo : seqOf i &&& maxSeqNo = seqOf i :=
  Nat.and_two_pow_sub_one_of_lt_two_pow (n := 31) (Nat.lt_succ_of_le seqOf_le)

theorem seqOf_and_rangeBit : seqOf i &&& rangeBit = 0 := by
  rw [← seqOf_and_maxSeqNo, Nat.and_assoc, Nat.and_comm maxSeqNo, rangeBit_and_maxSeqNo, Nat.and_zero]

theorem seqOf_or_and_rangeBit : (seqOf i ||| rangeBit) &&& rangeBit ≠ 0 := by
  rw [Nat.and_or_distrib_right, seqOf_and_rangeBit]
  decide

theorem seqOf_or_and_maxSeqNo : (seqOf i ||| rangeBit) &&& maxSeqNo = seqOf i := by
  rw [Nat.and_or_distrib_right, rangeBit_and_maxSeqNo, Nat.or_zero, seqOf_and_maxSeqNo]

namespace Sends

theorem new (isn sndBufSize : Nat) {flowWindowSize payloadSize : Nat} (hisn : 0 < seqOf isn)
    (hflow : 0 < flowWindowSize) (hsmall : flowWindowSize * 2 ≤ seqNoTh) (hpayload : 0 < payloadSize) :
    Sends [] isn (max 2 flowWindowSize) (Sender.new (seqOf isn) flowWindowSize sndBufSize payloadSize)
      isn isn isn where
  isn_pos := pos_of_seqOf_pos hisn
  isn_le := le_rfl
  lda_le := le_rfl
  sla_le := le_rfl
  next_le := Nat.le_add_right ..
  small := by
    have : 2 < seqNoTh := by decide
    omega
  dataAck := rfl
  lastAck := rfl
  curr := seqOf_pred hisn
  flow := by
    show (isn : Int) + flowWindowSize ≤ _
    omega
  data := by simp
  written := le_rfl
  buffer := ⟨_, SndBuffer.Represents.new (by decide), hpayload, List.drop_nil.symm, (Nat.sub_self isn).symm⟩
  lost := ⟨_, ∅, by omega, Keeps.new (by omega) hsmall, by simp⟩
  sound h := absurd h Bool.false_ne_true

/-- Whether the peer is heard does not count, as long as only the timer gives up. -/
theorem withLife (h : Sends blocks isn window s lda sla next) {life : Life}
    (hsound : life.broken = true → life.closing = true) :
    Sends blocks isn window { s with life := life } lda sla next :=
  { h with sound := hsound }

theorem heard (h : Sends blocks isn window s lda sla next) :
    Sends blocks isn window s.heard lda sla next :=
  h.withLife h.sound

/-- **Writing.** The data that is taken goes into new blocks. -/
theorem send (h : Sends blocks isn window s lda sla next) (data : Bytes) :
    ∃ s' n new, s.send data = some (s', n) ∧ Sends (blocks ++ new) isn window s' lda sla next ∧
      new.flatMap Block.data = data.take n ∧ s'.sndCurrSeqNo = s.sndCurrSeqNo := by
  unfold Sender.send
  split
  · refine ⟨s, 0, [], rfl, ?_, rfl, rfl⟩
    rwa [List.append_nil]
  · obtain ⟨q, hrep, hmss, hblocks, hsent⟩ := h.buffer
    obtain ⟨b', hadd, hrep'⟩ := hrep.addBuffer (data.take (s.room data.length)) false
    obtain ⟨new, hnew⟩ : ∃ new, new = SndBuffer.blocksOf q.mss q.nextMsgNo
      (data.take (s.room data.length)) false := ⟨_, rfl⟩
    have hlda := h.lda_le
    have hsla := h.sla_le
    have hwritten := h.written
    refine ⟨{ s with sndBuffer := b' }, s.room data.length, new, ?_, ⟨h.toSendCounts, h.dataAck,
      h.lastAck, h.curr, h.flow, ?_, ?_, ⟨_, hrep', hmss, ?_, hsent⟩, h.lost, h.sound⟩, ?_, rfl⟩
    · rw [hadd]
      rfl
    · intro block hblock
      rcases List.mem_append.mp hblock with hblock | hblock
      · exact h.data block hblock
      · rw [hnew] at hblock
        exact (SndBuffer.data_length_of_mem hmss hblock).1
    · rw [List.length_append]
      omega
    · rw [List.drop_append_of_le_length (by omega), ← hblocks, List.append_assoc, hnew]
      rfl
    · rw [hnew]
      exact SndBuffer.flatMap_blocksOf hmss

/-- What may be sent again was sent before. -/
theorem addLoss (h : Sends blocks isn window s lda sla next) (hi : lda ≤ i) (hij : i ≤ j) (hj : j < next) :
    ∃ s', s.addLoss (seqOf i) (seqOf j) = some s' ∧ Sends blocks isn window s' lda sla next := by
  obtain ⟨size, lost, hsize, hkeeps, hlost⟩ := h.lost
  have hnext := h.next_le
  have hwindow : ∀ x ∈ lost ∪ Finset.Icc i j, lda ≤ x ∧ x < next := by
    intro x hx
    rcases Finset.mem_union.mp hx with hx | hx
    · exact hlost x hx
    · rw [Finset.mem_Icc] at hx
      omega
  obtain ⟨l', hinsert, hkeeps'⟩ := hkeeps.insert hij fun x hx y hy => by
    have := hwindow x hx
    have := hwindow y hy
    omega
  refine ⟨{ s with sndLossList := l' }, ?_, h.toSendCounts, h.dataAck, h.lastAck, h.curr, h.flow, h.data,
    h.written, h.buffer, ⟨size, _, hsize, hkeeps', hwindow⟩, h.sound⟩
  rw [Sender.addLoss, hinsert]
  rfl

/-- A block of a packet that was sent. -/
theorem readDataAt (h : Sends blocks isn window s lda sla next) (hi : lda ≤ i) (hlt : i < next) :
    blocks[i - isn]? = some (s.sndBuffer.readDataAt (i - lda)) := by
  obtain ⟨q, hrep, -, hblocks, hsent⟩ := h.buffer
  have hisn := h.isn_le
  rw [← hrep.readDataAt (by omega), SendQueue.readDataAt, hblocks, List.getElem?_drop,
    show lda - isn + (i - lda) = i - isn by omega]

/-- The next block. -/
theorem head_unsent (h : Sends blocks isn window s lda sla next) {q : SendQueue}
    (hblocks : q.sent ++ q.unsent = blocks.drop (lda - isn)) (hsent : q.sent.length = next - lda) :
    q.unsent.head? = blocks[next - isn]? := by
  have hisn := h.isn_le
  have hlda := h.lda_le
  have hsla := h.sla_le
  have hget := congrArg (·[next - lda]?) hblocks
  simp only [List.getElem?_drop] at hget
  rw [List.getElem?_append_right hsent.le, hsent, Nat.sub_self, ← List.head?_eq_getElem?,
    show lda - isn + (next - lda) = next - isn by omega] at hget
  exact hget

/-- **A packet** goes out, one of those that were lost or the next one. -/
theorem packData (h : Sends blocks isn window s lda sla next) (congestionWindow : Int) :
    ∃ s' packet next', s.packData congestionWindow = some (s', packet) ∧
      Sends blocks isn window s' lda sla next' ∧ (next' = next ∨ next' = next + 1) ∧
      ∀ p, packet = some p → ∃ x, p.1 = seqOf x ∧ lda ≤ x ∧ x < next' ∧ blocks[x - isn]? = some p.2 := by
  obtain ⟨size, lost, hsize, hkeeps, hlost⟩ := h.lost
  have hnext := h.next_le
  have hsmall := h.small
  have hisn := h.isn_le
  have hlda := h.lda_le
  have hsla := h.sla_le
  have hincseq : incseq s.sndCurrSeqNo = seqOf next := by rw [h.curr, h.incseq_curr]
  unfold Sender.packData
  obtain ⟨rfl, hget⟩ | ⟨x, l', hx, -, hget, hkeeps'⟩ := hkeeps.getLostSeq
  · -- nothing was lost
    have hlen : seqlen s.sndLastAck (seqOf next) = (next : Int) - sla + 1 := by
      rw [h.lastAck, seqlen_eq hsla (by omega)]
    have hflow := h.flow
    rw [hget, Option.map_some]
    simp only [hincseq, hlen]
    by_cases hroom : (next : Int) - sla + 1 ≤
        if s.flowWindowSize < congestionWindow then s.flowWindowSize else congestionWindow
    · rw [if_pos hroom]
      have hlt : next < lda + window := by
        split at hroom <;> omega
      obtain ⟨q, hrep, hmss, hblocks, hsent⟩ := h.buffer
      obtain ⟨b', hread, hrep'⟩ := hrep.readData
      have hhead : q.readData.2 = blocks[next - isn]? := h.head_unsent hblocks hsent
      have hqueue : q.readData.1.sent ++ q.readData.1.unsent = blocks.drop (lda - isn) := by
        rw [← hblocks]
        show q.sent ++ q.unsent.take 1 ++ q.unsent.drop 1 = _
        rw [List.append_assoc, List.take_append_drop]
      simp only [hread, hhead]
      cases hblock : blocks[next - isn]? with
      | none =>
          have hnone : q.unsent.take 1 = [] := by
            rw [← hhead] at hblock
            rw [List.head?_eq_none_iff.mp hblock, List.take_nil]
          refine ⟨_, none, next, rfl, ⟨h.toSendCounts, h.dataAck, h.lastAck, h.curr, h.flow, h.data,
            h.written, ⟨_, hrep', hmss, hqueue, ?_⟩, h.lost, h.sound⟩, .inl rfl,
            fun p hp => absurd hp (Option.some_ne_none p).symm⟩
          show (q.sent ++ q.unsent.take 1).length = _
          rw [hnone, List.append_nil, hsent]
      | some block =>
          have hdata := h.data block (List.mem_of_getElem? hblock)
          have hbound := (List.getElem?_eq_some_iff.mp hblock).1
          have hone : (q.unsent.take 1).length = 1 := by
            rw [← hhead] at hblock
            obtain ⟨rest, hrest⟩ := List.head?_eq_some_iff.mp hblock
            rw [hrest]
            rfl
          rw [Option.filter_some, if_pos (by simpa using hdata.ne')]
          refine ⟨_, _, next + 1, rfl, ⟨⟨h.isn_pos, hisn, hlda, by omega, by omega, hsmall⟩, h.dataAck,
            h.lastAck, rfl, hflow, h.data, by omega, ⟨_, hrep', hmss, hqueue, ?_⟩, ⟨size, ∅, hsize, hkeeps,
            by simp⟩, h.sound⟩, .inr rfl, ?_⟩
          · show (q.sent ++ q.unsent.take 1).length = _
            rw [List.length_append, hone, hsent]
            omega
          · rintro p ⟨rfl⟩
            exact ⟨next, rfl, by omega, by omega, hblock⟩
    · rw [if_neg hroom]
      exact ⟨s, none, next, rfl, h, .inl rfl, fun p hp => absurd hp (Option.some_ne_none p).symm⟩
  · -- a loss goes out again
    obtain ⟨hlx, hxn⟩ := hlost x hx
    have hblock := h.readDataAt hlx hxn
    have hlen := h.data _ (List.mem_of_getElem? hblock)
    have hoff : seqoff s.sndLastDataAck (seqOf x) = (x : Int) - lda := by
      rw [h.dataAck, seqoff_eq ⟨by omega, by omega⟩]
    rw [hget, Option.map_some]
    simp only [hoff]
    rw [if_neg (by omega), show ((x : Int) - lda).toNat = x - lda by omega, if_neg (by omega)]
    refine ⟨_, _, next, rfl, ⟨h.toSendCounts, h.dataAck, h.lastAck, h.curr, h.flow, h.data, h.written,
      h.buffer, ⟨size, _, hsize, hkeeps', fun y hy => hlost y (Finset.mem_of_mem_erase hy)⟩, h.sound⟩,
      .inl rfl, ?_⟩
    rintro p ⟨rfl⟩
    exact ⟨x, rfl, hlx, hxn, hblock⟩

/-- **A lite acknowledgement.** -/
theorem processLiteAck (h : Sends blocks isn window s lda sla next) (hk : k ≤ next)
    (hnear : next < k + seqNoTh) :
    Sends blocks isn window (s.processLiteAck (seqOf k)) lda (max sla k) next := by
  have hnext := h.next_le
  have hsmall := h.small
  have hlda := h.lda_le
  have hsla := h.sla_le
  have hflow := h.flow
  have hks : Near seqNoTh k sla := ⟨by omega, by omega⟩
  unfold Sender.processLiteAck
  rw [h.lastAck]
  by_cases hle : sla ≤ k
  · rw [if_pos ((seqcmp_nonneg_iff hks).mpr hle), seqoff_eq hks.symm, max_eq_right hle]
    refine ⟨⟨h.isn_pos, h.isn_le, hlda.trans hle, hk, hnext, hsmall⟩, h.dataAck, rfl, h.curr, ?_, h.data,
      h.written, h.buffer, h.lost, h.sound⟩
    show (k : Int) + (s.flowWindowSize - (k - sla)) ≤ _
    omega
  · rw [if_neg (mt (seqcmp_nonneg_iff hks).mp hle), max_eq_left (by omega)]
    exact h

/-- The buffer up to a packet before which the peer has all, and no loss before it. -/
theorem release (h : Sends blocks isn window s lda sla next) (hk : k ≤ next) (hnear : next < k + seqNoTh)
    (s₁ : Sender) (hlast : s₁.sndLastAck = seqOf (max sla k))
    (hflow : ((max sla k : Nat) : Int) + s₁.flowWindowSize ≤ (max lda k : Nat) + window)
    (hdata : s₁.sndLastDataAck = s.sndLastDataAck) (hcurr : s₁.sndCurrSeqNo = s.sndCurrSeqNo)
    (hbuffer : s₁.sndBuffer = s.sndBuffer) (hlist : s₁.sndLossList = s.sndLossList)
    (hsound : s₁.life = s.life) :
    ∃ s', (if seqoff s₁.sndLastDataAck (seqOf k) ≤ 0 then some s₁
        else (s₁.sndLossList.remove (decseq (seqOf k))).map fun sndLossList =>
          { s₁ with
            sndBuffer := s₁.sndBuffer.ackData (seqoff s₁.sndLastDataAck (seqOf k)).toNat
            sndLastDataAck := seqOf k
            sndLossList := sndLossList }) = some s' ∧
      Sends blocks isn window s' (max lda k) (max sla k) next := by
  have hnext := h.next_le
  have hsmall := h.small
  have hisn := h.isn_le
  have hpos := h.isn_pos
  have hlda := h.lda_le
  have hsla := h.sla_le
  obtain ⟨size, lost, hsize, hkeeps, hlost⟩ := h.lost
  have hoff : seqoff s₁.sndLastDataAck (seqOf k) = (k : Int) - lda := by
    rw [hdata, h.dataAck, seqoff_eq ⟨by omega, by omega⟩]
  rw [hoff]
  by_cases hle : k ≤ lda
  · rw [max_eq_left hle] at hflow ⊢
    rw [if_pos (by omega)]
    exact ⟨s₁, rfl, ⟨hpos, hisn, by omega, by omega, hnext, hsmall⟩, hdata.trans h.dataAck, hlast,
      hcurr.trans h.curr, hflow, h.data, h.written, hbuffer ▸ h.buffer,
      ⟨size, lost, hsize, hlist ▸ hkeeps, hlost⟩, hsound ▸ h.sound⟩
  · rw [max_eq_right (by omega : lda ≤ k)] at hflow ⊢
    obtain ⟨l', hremove, hkeeps'⟩ := hkeeps.remove (s := k - 1) fun x hx => by
      have := hlost x hx
      exact ⟨by omega, by omega⟩
    obtain ⟨q, hrep, hmss, hblocks, hsent⟩ := h.buffer
    rw [if_neg (by omega), decseq_eq (by omega), hlist, hremove, hbuffer,
      show ((k : Int) - lda).toNat = k - lda by omega]
    refine ⟨_, rfl, ⟨hpos, by omega, le_max_right .., by omega, by omega, hsmall⟩, rfl, hlast,
      hcurr.trans h.curr, hflow, h.data, h.written, ⟨q.ackData (k - lda), hrep.ackData (by omega), hmss, ?_, ?_⟩,
      ⟨size, _, hsize, hkeeps', fun x hx => ?_⟩, hsound ▸ h.sound⟩
    · show q.sent.drop (k - lda) ++ q.unsent = _
      rw [← List.drop_append_of_le_length (by omega), hblocks, List.drop_drop,
        show lda - isn + (k - lda) = k - isn by omega]
    · show (q.sent.drop (k - lda)).length = _
      rw [List.length_drop]
      omega
    · rw [Finset.mem_filter] at hx
      have := hlost x hx.1
      omega

/-- **An acknowledgement** opens the window and frees the buffer. -/
theorem processAck {avail : Int} (h : Sends blocks isn window s lda sla next) (hk : k ≤ next)
    (hnear : next < k + seqNoTh) (havail : avail ≤ window) :
    ∃ s', s.processAck (seqOf k) avail = some s' ∧
      Sends blocks isn window s' (max lda k) (max sla k) next := by
  have hnext := h.next_le
  have hsmall := h.small
  have hlda := h.lda_le
  have hsla := h.sla_le
  have hflow := h.flow
  have hsent : ¬ 0 < seqcmp (seqOf k) (incseq s.sndCurrSeqNo) := by
    rw [h.curr, h.incseq_curr, seqcmp_pos_iff ⟨by omega, by omega⟩]
    omega
  have hcmp : 0 ≤ seqcmp (seqOf k) s.sndLastAck ↔ sla ≤ k := by
    rw [h.lastAck, seqcmp_nonneg_iff ⟨by omega, by omega⟩]
  unfold Sender.processAck
  rw [if_neg hsent]
  by_cases hle : sla ≤ k
  · simp only [if_pos (hcmp.mpr hle)]
    refine h.release hk hnear { s with flowWindowSize := avail, sndLastAck := seqOf k } ?_ ?_ rfl rfl rfl rfl rfl
    · rw [max_eq_right hle]
    · show ((max sla k : Nat) : Int) + avail ≤ _
      omega
  · simp only [if_neg (mt hcmp.mp hle)]
    refine h.release hk hnear s ?_ ?_ rfl rfl rfl rfl rfl
    · rw [max_eq_left (by omega), h.lastAck]
    · omega

/-- **A loss report.** -/
theorem processNak (h : Sends blocks isn window s lda sla next) (hij : i ≤ j) (hj : j < next)
    (hnear : next < i + seqNoTh) :
    ∃ s', s.processNak (Receiver.lossData (seqOf i) (seqOf j)) = some s' ∧
      Sends blocks isn window s' lda sla next := by
  have hnext := h.next_le
  have hsmall := h.small
  have hisn := h.isn_le
  have hpos := h.isn_pos
  have hlda := h.lda_le
  have hsla := h.sla_le
  have hij' : Near seqNoTh i j := ⟨by omega, by omega⟩
  have hlast : ¬ 0 < seqcmp (seqOf j) s.sndCurrSeqNo := by
    rw [h.curr, seqcmp_pos_iff ⟨by omega, by omega⟩]
    omega
  have hcmpi : 0 ≤ seqcmp (seqOf i) s.sndLastAck ↔ sla ≤ i := by
    rw [h.lastAck, seqcmp_nonneg_iff ⟨by omega, by omega⟩]
  have hcmpj : 0 ≤ seqcmp (seqOf j) s.sndLastAck ↔ sla ≤ j := by
    rw [h.lastAck, seqcmp_nonneg_iff ⟨by omega, by omega⟩]
  have hdone : ∀ s', Sender.processNak s' [] = some s' := fun s' => rfl
  rw [Receiver.lossData]
  by_cases hone : seqOf i = seqOf j
  · obtain rfl := (seqOf_inj hij').mp hone
    rw [if_pos rfl, Sender.processNak, if_neg (not_not.mpr seqOf_and_rangeBit)]
    by_cases hsi : sla ≤ i
    · obtain ⟨s', hadd, hs'⟩ := h.addLoss (hlda.trans hsi) le_rfl hj
      rw [if_pos (hcmpi.mpr hsi), if_neg hlast, hadd]
      exact ⟨s', rfl, hs'⟩
    · rw [if_neg (mt hcmpi.mp hsi)]
      exact ⟨s, rfl, h⟩
  · have hij₀ : ¬ 0 < seqcmp (seqOf i) (seqOf j) := by
      rw [seqcmp_pos_iff hij']
      omega
    rw [if_neg hone, Sender.processNak, if_pos seqOf_or_and_rangeBit]
    simp only [seqOf_or_and_maxSeqNo]
    rw [if_neg (by rw [not_or]; exact ⟨hij₀, hlast⟩)]
    by_cases hsi : sla ≤ i
    · obtain ⟨s', hadd, hs'⟩ := h.addLoss (hlda.trans hsi) hij hj
      rw [if_pos (hcmpi.mpr hsi), hadd]
      exact ⟨s', rfl, hs'⟩
    · rw [if_neg (mt hcmpi.mp hsi)]
      by_cases hsj : sla ≤ j
      · obtain ⟨s', hadd, hs'⟩ := h.addLoss hlda hsj hj
        rw [if_pos (hcmpj.mpr hsj), h.lastAck, hadd]
        exact ⟨s', rfl, hs'⟩
      · rw [if_neg (mt hcmpj.mp hsj)]
        exact ⟨s, rfl, h⟩

theorem resend (h : Sends blocks isn window s lda sla next) :
    ∃ s', s.resend = some s' ∧ Sends blocks isn window s' lda sla next := by
  have hnext := h.next_le
  have hlda := h.lda_le
  have hsla := h.sla_le
  have hisn := h.isn_le
  have hpos := h.isn_pos
  have hsmall := h.small
  unfold Sender.resend
  split
  · rename_i hopen
    rw [h.curr, h.incseq_curr, h.lastAck, Ne, seqOf_inj ⟨by omega, by omega⟩] at hopen
    rw [h.lastAck, h.curr]
    exact h.addLoss hlda (by omega) (by omega)
  · exact ⟨s, rfl, h⟩

/-- **The timer.** -/
theorem expire (h : Sends blocks isn window s lda sla next) (late : Bool) :
    ∃ s' answer, s.expire late = some (s', answer) ∧ Sends blocks isn window s' lda sla next := by
  unfold Sender.expire
  split
  · exact ⟨_, none, rfl, h.withLife fun _ => rfl⟩
  · split
    · obtain ⟨s', hresend, h'⟩ := h.resend
      rw [hresend]
      exact ⟨_, none, rfl, h'.withLife h'.sound⟩
    · exact ⟨_, some .keepAlive, rfl, h.withLife h.sound⟩

end Sends

end FusionFS.Udt
