import FusionFS.CString
import FusionFS.Lib.NextRing
import FusionFS.Lib.Run

/-!
# The buffer of a sender

`CSndBuffer`: the blocks of data to send, in a ring of cells that grows when it is full. Between the
first block and the current one are those that were sent and may be sent again, then those to send up
to the last, and behind it the cells that are free.

The data lives for ever: it has the time to live -1 that `CUDT::send` gives it, and so a block to send
again is never found to be too old.
-/

namespace FusionFS.Udt

open NextRing Transition

/-- `CMsgNo::m_iMaxMsgNo`. -/
def maxMsgNo : Nat := 0x1FFFFFFF

structure Block where
  data : Bytes
  msgNo : Nat
  deriving DecidableEq

/-- Blocks are allocated one after another, and `brk` is the next. -/
structure SndBuffer where
  next : Nat → Nat
  block : Nat → Block
  brk : Nat
  firstBlock : Nat
  currBlock : Nat
  lastBlock : Nat
  nextMsgNo : Nat
  size : Nat
  unitSize : Nat
  mss : Nat
  count : Int

namespace SndBuffer

def new (size mss : Nat) : SndBuffer where
  next := Function.update (linkRow (fun _ => 0) 0 (size - 1)) (0 + (size - 1)) 0
  block _ := ⟨[], 0⟩
  brk := size - 1 + 1
  firstBlock := 0
  currBlock := 0
  lastBlock := 0
  nextMsgNo := 1
  size := size
  unitSize := size
  mss := mss
  count := 0

/-- New blocks behind the last. -/
def increase (b : SndBuffer) : SndBuffer :=
  let n := b.unitSize - 1
  { b with
    next := Function.update
      (Function.update (linkRow b.next b.brk n) (b.brk + n) (b.next b.lastBlock)) b.lastBlock b.brk
    brk := b.brk + (n + 1)
    size := b.size + b.unitSize }

/-- The loop that makes room for `size` blocks. -/
def grow (size : Nat) : Nat → SndBuffer → Option SndBuffer
  | fuel, b =>
      if b.size ≤ size + b.count then
        match fuel with
        | 0 => none
        | fuel + 1 => grow size fuel b.increase
      else some b

/-- The message number of the block `i` of `size`, with the bits for its order and its place. -/
def msgNoOf (nextMsgNo : Nat) (order : Bool) (size i : Nat) : Nat :=
  let msgNo := nextMsgNo ||| if order then 1 <<< 29 else 0
  let msgNo := if i = 0 then msgNo ||| 0x80000000 else msgNo
  if i + 1 = size then msgNo ||| 0x40000000 else msgNo

/-- How many blocks data takes. -/
def blockNum (mss len : Nat) : Nat := len / mss + if len % mss ≠ 0 then 1 else 0

def blocksOf (mss nextMsgNo : Nat) (data : Bytes) (order : Bool) : List Block :=
  let size := blockNum mss data.length
  (List.range size).map fun i =>
    ⟨(data.drop (i * mss)).take (min (data.length - i * mss) mss), msgNoOf nextMsgNo order size i⟩

def incMsgNo (nextMsgNo : Nat) : Nat := if nextMsgNo + 1 = maxMsgNo then 1 else nextMsgNo + 1

/-- Blocks into the cells from `s` on. -/
def store (b : SndBuffer) (s : Nat) : List Block → SndBuffer
  | [] => { b with lastBlock := s }
  | block :: blocks => store { b with block := Function.update b.block s block } (b.next s) blocks

def addBuffer (b : SndBuffer) (data : Bytes) (order : Bool) : Option SndBuffer :=
  let size := blockNum b.mss data.length
  (b.grow size size).map fun b =>
    let b := b.store b.lastBlock (blocksOf b.mss b.nextMsgNo data order)
    { b with
      count := b.count + size
      nextMsgNo := incMsgNo b.nextMsgNo }

/-- The next block to send. -/
def readData (b : SndBuffer) : SndBuffer × Option Block :=
  if b.currBlock = b.lastBlock then (b, none)
  else ({ b with currBlock := b.next b.currBlock }, some (b.block b.currBlock))

/-- A block to send again. -/
def readDataAt (b : SndBuffer) (offset : Nat) : Block := b.block (b.next^[offset] b.firstBlock)

def ackData (b : SndBuffer) (offset : Nat) : SndBuffer :=
  { b with
    firstBlock := b.next^[offset] b.firstBlock
    count := b.count - offset }

/-! ### Data in blocks -/

theorem flatMap_chunks (data : Bytes) (mss n : Nat) :
    (List.range n).flatMap (fun i => (data.drop (i * mss)).take mss) = data.take (n * mss) := by
  induction n with
  | zero => simp
  | succ n ih =>
      rw [List.range_succ, List.flatMap_append, ih, List.flatMap_singleton, Nat.succ_mul, List.take_add]

/-- The blocks before the last are not the end of the data, and with it they are all. -/
theorem lt_blockNum_iff {mss len i : Nat} (hmss : 0 < mss) : i < blockNum mss len ↔ i * mss < len := by
  have hdiv := Nat.div_add_mod' len mss
  have hmod := Nat.mod_lt len hmss
  have hmul : len / mss * mss < i * mss ↔ len / mss < i := Nat.mul_lt_mul_right hmss
  have hmul' : i * mss < len / mss * mss ↔ i < len / mss := Nat.mul_lt_mul_right hmss
  have hstep : len / mss < i → len / mss * mss + mss ≤ i * mss := fun hlt => by
    rw [← Nat.succ_mul]
    exact Nat.mul_le_mul_right mss hlt
  rw [blockNum]
  split <;> omega

variable {mss nextMsgNo : Nat} {data : Bytes} {order : Bool}

theorem length_blocksOf : (blocksOf mss nextMsgNo data order).length = blockNum mss data.length := by
  rw [blocksOf, List.length_map, List.length_range]

/-- The blocks hold the data, in order. -/
theorem flatMap_blocksOf (hmss : 0 < mss) : (blocksOf mss nextMsgNo data order).flatMap Block.data = data := by
  have hall : data.length ≤ blockNum mss data.length * mss := by
    rw [← not_lt, ← lt_blockNum_iff hmss]
    exact lt_irrefl _
  calc _ = (List.range (blockNum mss data.length)).flatMap
        fun i => (data.drop (i * mss)).take mss := by
        rw [blocksOf, List.flatMap_map]
        apply List.flatMap_congr
        intro i _
        rw [← List.length_drop, Nat.min_comm, ← List.take_eq_take_min]
    _ = data := by rw [flatMap_chunks, List.take_of_length_le hall]

/-- No block is empty, and none is longer than a packet. -/
theorem data_length_of_mem (hmss : 0 < mss) {block : Block}
    (hmem : block ∈ blocksOf mss nextMsgNo data order) :
    0 < block.data.length ∧ block.data.length ≤ mss := by
  obtain ⟨i, hi, rfl⟩ := List.mem_map.mp hmem
  rw [List.mem_range, lt_blockNum_iff hmss] at hi
  simp only [List.length_take, List.length_drop]
  omega

end SndBuffer

/-- What the buffer is for: the blocks that were sent and not acknowledged, and those to send. -/
structure SendQueue where
  mss : Nat
  nextMsgNo : Nat
  sent : List Block
  unsent : List Block
  deriving DecidableEq

namespace SendQueue

def addBuffer (q : SendQueue) (data : Bytes) (order : Bool) : SendQueue :=
  { q with
    nextMsgNo := SndBuffer.incMsgNo q.nextMsgNo
    unsent := q.unsent ++ SndBuffer.blocksOf q.mss q.nextMsgNo data order }

def readData (q : SendQueue) : SendQueue × Option Block :=
  ({ q with sent := q.sent ++ q.unsent.take 1, unsent := q.unsent.drop 1 }, q.unsent.head?)

def readDataAt (q : SendQueue) (offset : Nat) : Option Block := (q.sent ++ q.unsent)[offset]?

def ackData (q : SendQueue) (offset : Nat) : SendQueue := { q with sent := q.sent.drop offset }

end SendQueue

namespace SndBuffer

/-! ### What the ring holds -/

/-- The cells of the blocks that were sent, of those to send and of the free ones behind the last. -/
structure Layout (b : SndBuffer) (ps us fs : List Nat) : Prop where
  closed : Closed b.next (ps ++ us ++ b.lastBlock :: fs)
  nodup : (ps ++ us ++ b.lastBlock :: fs).Nodup
  lt_brk : ∀ a ∈ ps ++ us ++ b.lastBlock :: fs, a < b.brk
  length : ps.length + us.length + fs.length + 1 = b.size
  first : (ps ++ us ++ [b.lastBlock]).head? = some b.firstBlock
  curr : (us ++ [b.lastBlock]).head? = some b.currBlock
  count : b.count = ps.length + us.length
  unitSize : 0 < b.unitSize

def Represents (b : SndBuffer) (q : SendQueue) : Prop :=
  ∃ ps us fs, b.Layout ps us fs ∧ q = ⟨b.mss, b.nextMsgNo, ps.map b.block, us.map b.block⟩

variable {b : SndBuffer}

namespace Layout

variable {ps us fs : List Nat}

theorem new {size mss : Nat} (hsize : 0 < size) :
    Layout (SndBuffer.new size mss) [] [] (List.range' 1 (size - 1)) := by
  have hrow : 0 :: List.range' 1 (size - 1) = List.range' 0 (size - 1 + 1) := by rw [List.range'_succ]
  refine ⟨?_, ?_, fun a ha => ?_, ?_, rfl, rfl, rfl, hsize⟩
  · exact hrow ▸ closed_row
  · exact hrow ▸ List.nodup_range'
  · replace ha : a ∈ 0 :: List.range' 1 (size - 1) := ha
    rw [hrow, List.mem_range'_1] at ha
    exact ha.2.trans_eq (Nat.zero_add _)
  · rw [List.length_range']
    show 0 + 0 + (size - 1) + 1 = size
    omega

/-- **Growing.** The new cells are free. -/
theorem increase (h : Layout b ps us fs) :
    Layout b.increase ps us (List.range' b.brk b.unitSize ++ fs) := by
  have hunit := h.unitSize
  obtain ⟨n, hn⟩ : ∃ n, b.unitSize = n + 1 := ⟨b.unitSize - 1, by omega⟩
  have hclosed : Closed b.next (b.lastBlock :: (fs ++ (ps ++ us))) := h.closed.rotate
  have hperm : (ps ++ us ++ b.lastBlock :: fs).Perm (b.lastBlock :: (fs ++ (ps ++ us))) :=
    List.perm_append_comm
  have hnew : ∀ a ∈ b.lastBlock :: (fs ++ (ps ++ us)), a < b.brk := fun a ha =>
    h.lt_brk a (hperm.mem_iff.mpr ha)
  have hsplit : (ps ++ us ++ b.lastBlock :: (List.range' b.brk (n + 1) ++ fs)).Perm
      (List.range' b.brk (n + 1) ++ (ps ++ us ++ b.lastBlock :: fs)) := by
    have key := List.perm_append_comm_assoc (ps ++ us ++ [b.lastBlock]) (List.range' b.brk (n + 1)) fs
    rwa [← List.append_cons, ← List.append_cons] at key
  have hbrk : b.increase.brk = b.brk + (n + 1) := by
    show b.brk + (b.unitSize - 1 + 1) = _
    omega
  refine ⟨?_, ?_, fun a ha => ?_, ?_, ?_, ?_, h.count, hunit⟩
  · have key := hclosed.insert (hperm.nodup_iff.mp h.nodup) hnew (n := n)
    rw [← List.append_assoc, ← List.cons_append] at key
    rw [hn]
    show Closed (Function.update (Function.update (linkRow b.next b.brk (b.unitSize - 1))
      (b.brk + (b.unitSize - 1)) (b.next b.lastBlock)) b.lastBlock b.brk) _
    rw [hn]
    exact key.rotate
  · rw [hn]
    show (ps ++ us ++ b.lastBlock :: (List.range' b.brk (n + 1) ++ fs)).Nodup
    rw [hsplit.nodup_iff, List.nodup_append]
    refine ⟨List.nodup_range', h.nodup, fun x hx y hy => ?_⟩
    rw [List.mem_range'_1] at hx
    have := h.lt_brk y hy
    omega
  · rw [hn] at ha
    replace ha := hsplit.mem_iff.mp ha
    rw [List.mem_append, List.mem_range'_1] at ha
    rcases ha with ha | ha
    · exact hbrk ▸ ha.2
    · have := h.lt_brk a ha
      omega
  · rw [List.length_append, List.length_range']
    have := h.length
    show _ = b.size + b.unitSize
    omega
  · exact h.first
  · exact h.curr

/-- The loop grows until there is a free cell behind the new blocks. -/
theorem grow (size fuel : Nat) : ∀ {b : SndBuffer} {fs : List Nat}, Layout b ps us fs →
    size ≤ fs.length + fuel → ∃ b' fs', b.grow size fuel = some b' ∧ Layout b' ps us fs' ∧
      size ≤ fs'.length ∧ b'.block = b.block ∧ b'.mss = b.mss ∧ b'.nextMsgNo = b.nextMsgNo := by
  induction fuel with
  | zero =>
      intro b fs h hfuel
      have hlength := h.length
      have hcount := h.count
      refine ⟨b, fs, ?_, h, hfuel, rfl, rfl, rfl⟩
      rw [SndBuffer.grow, if_neg (by omega)]
  | succ fuel ih =>
      intro b fs h hfuel
      have hlength := h.length
      have hcount := h.count
      have hunit := h.unitSize
      rw [SndBuffer.grow]
      by_cases hfull : (b.size : Int) ≤ size + b.count
      · rw [if_pos hfull]
        exact ih h.increase (by rw [List.length_append, List.length_range']; omega)
      · rw [if_neg hfull]
        exact ⟨b, fs, rfl, h, by omega, rfl, rfl, rfl⟩

/-- Steps from the first block. -/
theorem iterate_first {n : Nat} (h : Layout b ps us fs) (hn : n ≤ ps.length + us.length) :
    (ps ++ us ++ [b.lastBlock])[n]? = some (b.next^[n] b.firstBlock) := by
  have hhead : (ps ++ us ++ b.lastBlock :: fs).head? = some b.firstBlock := by
    rw [← h.first]
    cases ps ++ us <;> rfl
  have key := h.closed.getElem?_iterate hhead n (by simp; omega)
  rwa [List.append_cons, List.getElem?_append_left (by simp; omega)] at key

/-- **Acknowledgement.** The cells of the first blocks are free again. -/
theorem ackData {n : Nat} (h : Layout b ps us fs) (hn : n ≤ ps.length) :
    Layout (b.ackData n) (ps.drop n) us (fs ++ ps.take n) := by
  have hsplit : ps.take n ++ (ps.drop n ++ us ++ b.lastBlock :: fs) = ps ++ us ++ b.lastBlock :: fs := by
    rw [← List.append_assoc, ← List.append_assoc, List.take_append_drop]
  have hfirst := h.first
  have hlength := h.length
  have hcount := h.count
  have hperm : (ps ++ us ++ b.lastBlock :: fs).Perm (ps.drop n ++ us ++ b.lastBlock :: fs ++ ps.take n) := by
    rw [← hsplit]
    exact List.perm_append_comm
  refine ⟨?_, ?_, fun a ha => ?_, ?_, ?_, h.curr, ?_, h.unitSize⟩
  · have hclosed := (hsplit ▸ h.closed).rotate
    rwa [List.append_assoc, List.cons_append] at hclosed
  · have hnodup := hperm.nodup_iff.mp h.nodup
    rwa [List.append_assoc, List.cons_append] at hnodup
  · refine h.lt_brk a (hperm.mem_iff.mpr ?_)
    rwa [List.append_assoc, List.cons_append]
  · rw [List.length_append, List.length_drop, List.length_take]
    show _ = b.size
    omega
  · rw [List.append_assoc, ← List.drop_append_of_le_length hn, ← List.append_assoc, List.head?_drop]
    exact h.iterate_first (by omega)
  · rw [List.length_drop]
    show b.count - n = _
    omega

/-- Storing fills the cells up to another one. -/
theorem store_eq {y : Nat} {q : List Nat} (as : List Nat) : ∀ {b : SndBuffer} {blocks : List Block}
    {a : Nat} {p : List Nat}, Closed b.next (p ++ as ++ y :: q) → (as ++ [y]).Nodup →
    (as ++ [y]).head? = some a → as.length = blocks.length →
    ∃ block, b.store a blocks = { b with block := block, lastBlock := y } ∧
      as.map block = blocks ∧ ∀ x, x ∉ as → block x = b.block x := by
  induction as with
  | nil =>
      intro b blocks a p _ _ hhead hlength
      obtain rfl := List.length_eq_zero_iff.mp hlength.symm
      obtain rfl := Option.some.inj hhead
      exact ⟨b.block, rfl, rfl, fun _ _ => rfl⟩
  | cons c as ih =>
      intro b blocks a p hclosed hnodup hhead hlength
      obtain rfl : c = a := Option.some.inj hhead
      cases blocks with
      | nil => cases hlength
      | cons block blocks =>
          rw [List.cons_append, List.nodup_cons, List.mem_append, not_or] at hnodup
          obtain ⟨⟨hfresh, -⟩, hnodup⟩ := hnodup
          have hnext : (as ++ [y]).head? = some (b.next c) := by
            rw [List.append_assoc] at hclosed
            have hrot := hclosed.rotate
            cases as with
            | nil => exact congrArg some hrot.next_eq.symm
            | cons d as => exact congrArg some hrot.next_eq.symm
          have hrest : Closed b.next (p ++ [c] ++ as ++ y :: q) := List.append_cons p c as ▸ hclosed
          obtain ⟨block', hstore, hmap, hother⟩ := ih
            (b := { b with block := Function.update b.block c block }) hrest hnodup hnext
            (Nat.succ.inj hlength)
          refine ⟨block', hstore, ?_, fun x hx => ?_⟩
          · rw [List.map_cons, hmap]
            exact congrArg (· :: blocks) ((hother c hfresh).trans (Function.update_self ..))
          · rw [List.mem_cons, not_or] at hx
            exact (hother x hx.2).trans (Function.update_of_ne hx.1 ..)

/-- The blocks of new data go into the free cells, from the last on. -/
theorem storeAll (h : Layout b ps us fs) (blocks : List Block) (hroom : blocks.length ≤ fs.length) :
    ∃ as y q block, b.store b.lastBlock blocks = { b with block := block, lastBlock := y } ∧
      Layout { b with block := block, lastBlock := y, count := b.count + blocks.length } ps (us ++ as) q ∧
      as.map block = blocks ∧ ∀ x ∈ ps ++ us, block x = b.block x := by
  obtain ⟨as, y, q, hsplit, hlen⟩ : ∃ as y q, b.lastBlock :: fs = as ++ y :: q ∧
      as.length = blocks.length := by
    obtain ⟨y, q, hdrop⟩ := List.exists_cons_of_ne_nil
      (show (b.lastBlock :: fs).drop blocks.length ≠ [] by
        rw [Ne, List.drop_eq_nil_iff, List.length_cons]
        omega)
    refine ⟨(b.lastBlock :: fs).take blocks.length, y, q, ?_, ?_⟩
    · rw [← hdrop, List.take_append_drop]
    · rw [List.length_take, List.length_cons]
      omega
  have hassoc : ps ++ us ++ b.lastBlock :: fs = ps ++ (us ++ as) ++ y :: q := by
    rw [hsplit, List.append_assoc, List.append_assoc, List.append_assoc]
  have hnodup := hassoc ▸ h.nodup
  have hclosed := hassoc ▸ h.closed
  have hcells : (as ++ [y]).head? = some b.lastBlock := by
    have hhead := congrArg List.head? hsplit
    rw [List.head?_cons] at hhead
    rw [hhead]
    cases as <;> rfl
  have hfresh : ((ps ++ us) ++ (as ++ [y])).Nodup := by
    rw [List.append_cons] at hnodup
    have hleft := (List.nodup_append.mp hnodup).1
    rwa [← List.append_assoc ps, List.append_assoc] at hleft
  rw [List.nodup_append] at hfresh
  obtain ⟨block, hstore, hmap, hother⟩ := store_eq as (p := ps ++ us)
    (by rwa [← List.append_assoc] at hclosed) hfresh.2.1 hcells hlen
  have hlength := h.length
  have hcount := h.count
  have hlast := congrArg List.length hsplit
  rw [List.length_cons, List.length_append, List.length_cons] at hlast
  have hhead : ∀ l : List Nat, (l ++ as ++ [y]).head? = (l ++ [b.lastBlock]).head? := by
    intro l
    cases l with
    | nil => exact hcells
    | cons x l => rfl
  refine ⟨as, y, q, block, hstore, ⟨hclosed, hnodup, ?_, ?_, ?_, ?_, ?_, h.unitSize⟩, hmap, fun x hx => ?_⟩
  · exact hassoc ▸ h.lt_brk
  · rw [List.length_append]
    show _ = b.size
    omega
  · rw [← List.append_assoc, hhead]
    exact h.first
  · rw [hhead]
    exact h.curr
  · rw [List.length_append]
    show b.count + blocks.length = _
    omega
  · exact hother x fun hx' => hfresh.2.2 x hx x (List.mem_append_left _ hx') rfl

end Layout

namespace Represents

variable {q : SendQueue}

theorem new {size mss : Nat} (hsize : 0 < size) : Represents (SndBuffer.new size mss) ⟨mss, 1, [], []⟩ :=
  ⟨[], [], _, Layout.new hsize, rfl⟩

theorem count_eq (h : Represents b q) : b.count = q.sent.length + q.unsent.length := by
  obtain ⟨ps, us, fs, hlayout, rfl⟩ := h
  rw [List.length_map, List.length_map]
  exact hlayout.count

/-- **Data** goes behind what there is to send. -/
theorem addBuffer (h : Represents b q) (data : Bytes) (order : Bool) :
    ∃ b', b.addBuffer data order = some b' ∧ Represents b' (q.addBuffer data order) := by
  obtain ⟨ps, us, fs, hlayout, rfl⟩ := h
  obtain ⟨b₁, fs₁, hgrow, hlayout₁, hroom, hblock, hmss, hmsg⟩ :=
    hlayout.grow (blockNum b.mss data.length) _ (Nat.le_add_left ..)
  have hlength : (blocksOf b.mss b.nextMsgNo data order).length = blockNum b.mss data.length :=
    length_blocksOf
  obtain ⟨as, y, rest, block, hstore, hlayout₂, hmap, hother⟩ :=
    hlayout₁.storeAll (blocksOf b.mss b.nextMsgNo data order) (hlength.trans_le hroom)
  rw [hlength] at hlayout₂
  have hmaps : ∀ l : List Nat, (∀ x ∈ l, x ∈ ps ++ us) → l.map block = l.map b.block := fun l hl =>
    List.map_congr_left fun x hx => (hother x (hl x hx)).trans (congrFun hblock x)
  refine ⟨{ b₁ with
      block := block
      lastBlock := y
      count := b₁.count + blockNum b.mss data.length
      nextMsgNo := incMsgNo b₁.nextMsgNo }, ?_, ps, us ++ as, rest, ?_, ?_⟩
  · simp only [SndBuffer.addBuffer, hgrow, Option.map_some, hmss, hmsg, hstore]
  · exact ⟨hlayout₂.closed, hlayout₂.nodup, hlayout₂.lt_brk, hlayout₂.length, hlayout₂.first,
      hlayout₂.curr, hlayout₂.count, hlayout₂.unitSize⟩
  · simp only [SendQueue.addBuffer, hmss, hmsg, List.map_append, hmap,
      hmaps ps fun x => List.mem_append_left us, hmaps us fun x => List.mem_append_right ps]

/-- **The next block** to send. -/
theorem readData (h : Represents b q) :
    ∃ b', b.readData = (b', q.readData.2) ∧ Represents b' q.readData.1 := by
  obtain ⟨ps, us, fs, hlayout, rfl⟩ := h
  have hcurr := hlayout.curr
  cases us with
  | nil =>
      refine ⟨b, ?_, ps, [], fs, hlayout, ?_⟩
      · rw [SndBuffer.readData, if_pos (Option.some.inj hcurr).symm]
        rfl
      · simp [SendQueue.readData]
  | cons x us =>
      obtain rfl : x = b.currBlock := Option.some.inj hcurr
      have hassoc : ps ++ b.currBlock :: us = ps ++ [b.currBlock] ++ us := List.append_cons ..
      have hnodup := hlayout.nodup
      have hne : b.currBlock ≠ b.lastBlock := by
        rw [hassoc, List.append_assoc, List.append_assoc, List.nodup_append] at hnodup
        exact (List.nodup_append.mp hnodup.2.1).2.2 _ (List.mem_singleton_self _) _ (by simp)
      have hnext : (us ++ [b.lastBlock]).head? = some (b.next b.currBlock) := by
        have hclosed := hlayout.closed
        rw [List.append_assoc] at hclosed
        have hrot := hclosed.rotate
        cases us with
        | nil => exact congrArg some hrot.next_eq.symm
        | cons y us => exact congrArg some hrot.next_eq.symm
      refine ⟨{ b with currBlock := b.next b.currBlock }, ?_, ps ++ [b.currBlock], us, fs,
        ⟨?_, ?_, ?_, ?_, ?_, hnext, ?_, hlayout.unitSize⟩, ?_⟩
      · rw [SndBuffer.readData, if_neg hne]
        rfl
      · exact hassoc ▸ hlayout.closed
      · exact hassoc ▸ hlayout.nodup
      · exact hassoc ▸ hlayout.lt_brk
      · have := hlayout.length
        rw [List.length_append, List.length_singleton]
        rw [List.length_cons] at this
        show _ = b.size
        omega
      · exact hassoc ▸ hlayout.first
      · have := hlayout.count
        rw [List.length_append, List.length_singleton]
        rw [List.length_cons] at this
        show b.count = _
        omega
      · simp [SendQueue.readData]

/-- A block to send again. -/
theorem readDataAt {n : Nat} (h : Represents b q) (hn : n < q.sent.length + q.unsent.length) :
    q.readDataAt n = some (b.readDataAt n) := by
  obtain ⟨ps, us, fs, hlayout, rfl⟩ := h
  rw [List.length_map, List.length_map] at hn
  have hcell := hlayout.iterate_first hn.le
  rw [List.getElem?_append_left (by simpa using hn)] at hcell
  rw [SendQueue.readDataAt, ← List.map_append, List.getElem?_map, hcell, Option.map_some,
    SndBuffer.readDataAt]

theorem ackData {n : Nat} (h : Represents b q) (hn : n ≤ q.sent.length) :
    Represents (b.ackData n) (q.ackData n) := by
  obtain ⟨ps, us, fs, hlayout, rfl⟩ := h
  rw [List.length_map] at hn
  refine ⟨ps.drop n, us, fs ++ ps.take n, hlayout.ackData hn, ?_⟩
  rw [SendQueue.ackData, ← List.map_drop]
  rfl

end Represents

end SndBuffer

/-! ### Runs -/

inductive SndBufferOp where
  | addBuffer (data : Bytes) (order : Bool)
  | readData
  | readDataAt (offset : Nat)
  | ackData (offset : Nat)
  deriving DecidableEq

namespace SndBufferOp

/-- The buffer after an operation, and the block it gave. -/
def call (b : SndBuffer) : SndBufferOp → Option (SndBuffer × Option Block)
  | addBuffer data order => (b.addBuffer data order).map fun b => (b, none)
  | readData => some b.readData
  | readDataAt offset => some (b, some (b.readDataAt offset))
  | ackData offset => some (b.ackData offset, none)

/-- What is sent again or acknowledged was sent. -/
def Legal (q : SendQueue) : SndBufferOp → Prop
  | readDataAt offset => offset < q.sent.length
  | ackData offset => offset ≤ q.sent.length
  | _ => True

instance decidableLegal (q : SendQueue) : ∀ op, Decidable (Legal q op)
  | addBuffer _ _ => .isTrue trivial
  | readData => .isTrue trivial
  | readDataAt offset => inferInstanceAs (Decidable (offset < q.sent.length))
  | ackData offset => inferInstanceAs (Decidable (offset ≤ q.sent.length))

def apply (q : SendQueue) : SndBufferOp → SendQueue × Option Block
  | addBuffer data order => (q.addBuffer data order, none)
  | readData => q.readData
  | readDataAt offset => (q, q.readDataAt offset)
  | ackData offset => (q.ackData offset, none)

end SndBufferOp

def sendQueueStep (q : SendQueue) (op : SndBufferOp) : Option (SendQueue × Option Block) :=
  if op.Legal q then some (op.apply q) else none

/-- One operation: the ring gives what the queue gives, and holds what the queue has after as before. -/
theorem SndBuffer.Represents.call {b : SndBuffer} {q : SendQueue} (h : Represents b q) {op : SndBufferOp}
    (hop : op.Legal q) : ∃ b', op.call b = some (b', (op.apply q).2) ∧ Represents b' (op.apply q).1 := by
  cases op with
  | addBuffer data order =>
      obtain ⟨b', hadd, h'⟩ := h.addBuffer data order
      refine ⟨b', ?_, h'⟩
      rw [SndBufferOp.call, hadd]
      rfl
  | readData =>
      obtain ⟨b', hread, h'⟩ := h.readData
      exact ⟨b', congrArg some hread, h'⟩
  | readDataAt offset =>
      refine ⟨b, ?_, h⟩
      rw [SndBufferOp.call, SndBufferOp.apply, h.readDataAt (Nat.lt_add_right _ hop)]
  | ackData offset => exact ⟨b.ackData offset, rfl, h.ackData hop⟩

/-- However often the ring grows and wherever its first block is, the buffer gives in any legal run what
the queue gives, and counts its blocks. -/
theorem send_buffer_is_queue {size mss : Nat} {ops : List SndBufferOp} {q : SendQueue}
    {given : List (Option Block)} (hsize : 0 < size)
    (hrun : runOut sendQueueStep ⟨mss, 1, [], []⟩ ops = some (q, given)) :
    ∃ b, runOut (fun b (op : SndBufferOp) => op.call b) (SndBuffer.new size mss) ops = some (b, given) ∧
      b.count = q.sent.length + q.unsent.length := by
  have hstep : ∀ q b (op : SndBufferOp) q' given, SndBuffer.Represents b q →
      sendQueueStep q op = some (q', given) → ∃ b', op.call b = some (b', given) ∧ b'.Represents q' := by
    intro q b op q' given h hcall
    rw [sendQueueStep] at hcall
    split at hcall
    · rename_i hop
      obtain ⟨b', hb', h'⟩ := h.call hop
      rw [Option.some.inj hcall] at hb' h'
      exact ⟨b', hb', h'⟩
    · cases hcall
  obtain ⟨b, hb, hrep⟩ := runOut_simulates hstep (SndBuffer.Represents.new hsize) hrun
  exact ⟨b, hb, hrep.count_eq⟩

/-- A buffer of two blocks that grows, is acknowledged and goes around. -/
def growing : List SndBufferOp :=
  [.addBuffer [1, 2, 3, 4, 5] false, .readData, .readData, .readDataAt 1, .ackData 1,
    .addBuffer [6] true, .readData, .readData, .readData, .readDataAt 2]

theorem send_buffer_is_queue_growing :
    ∃ b, runOut (fun b (op : SndBufferOp) => op.call b) (SndBuffer.new 2 2) growing = some (b,
        [none, some ⟨[1, 2], 0x80000001⟩, some ⟨[3, 4], 1⟩, some ⟨[3, 4], 1⟩, none, none,
          some ⟨[5], 0x40000001⟩, some ⟨[6], 0xE0000002⟩, none, some ⟨[6], 0xE0000002⟩]) ∧ b.count = 3 := by
  have hrun : runOut sendQueueStep ⟨2, 1, [], []⟩ growing = some
      (⟨2, 3, [⟨[3, 4], 1⟩, ⟨[5], 0x40000001⟩, ⟨[6], 0xE0000002⟩], []⟩,
        [none, some ⟨[1, 2], 0x80000001⟩, some ⟨[3, 4], 1⟩, some ⟨[3, 4], 1⟩, none, none,
          some ⟨[5], 0x40000001⟩, some ⟨[6], 0xE0000002⟩, none, some ⟨[6], 0xE0000002⟩]) := by
    decide +kernel
  exact send_buffer_is_queue (by decide) hrun

end FusionFS.Udt
