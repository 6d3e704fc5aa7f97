import FusionFS.CString
import FusionFS.Lib.SlotChain

/-!
# The buffer of a receiver

`CRcvBuffer` in streaming mode: the packets that have come, in a ring of slots. The application reads
from the start up to the last packet that is acknowledged, with a notch in the packet it has read in
part.
-/

namespace FusionFS.Udt

open SlotChain

/-- A unit is the data of its packet. -/
structure RcvBuffer where
  unit : Nat → Option Bytes
  size : Nat
  startPos : Nat
  lastAckPos : Nat
  maxPos : Int
  notch : Nat

namespace RcvBuffer

def new (bufsize : Nat) : RcvBuffer := ⟨fun _ => none, bufsize, 0, 0, 0, 0⟩

def getRcvDataSize (b : RcvBuffer) : Int :=
  if b.startPos ≤ b.lastAckPos then (b.lastAckPos : Int) - b.startPos
  else (b.size : Int) + b.lastAckPos - b.startPos

/-- One slot stays empty, to tell a full buffer from an empty one. -/
def getAvailBufSize (b : RcvBuffer) : Int := b.size - b.getRcvDataSize - 1

/-- `false` if the slot is taken. -/
def addData (b : RcvBuffer) (unit : Bytes) (offset : Nat) : RcvBuffer × Bool :=
  let pos := (b.lastAckPos + offset) % b.size
  let b := { b with maxPos := if b.maxPos < offset then (offset : Int) else b.maxPos }
  if (b.unit pos).isSome then (b, false)
  else ({ b with unit := Function.update b.unit pos (some unit) }, true)

def ackData (b : RcvBuffer) (len : Nat) : RcvBuffer :=
  { b with
    lastAckPos := (b.lastAckPos + len) % b.size
    maxPos := if b.maxPos - len < 0 then 0 else b.maxPos - len }

/-- The loop of `readBuffer`: `p` is the slot it is at and `rs` what it may read still. -/
def readFrom (lastack : Nat) : Nat → RcvBuffer → Nat → Nat → Bytes → Option (RcvBuffer × Nat × Bytes)
  | fuel, b, p, rs, data =>
      if p ≠ lastack ∧ 0 < rs then
        match fuel with
        | 0 => none
        | fuel + 1 => (b.unit p).bind fun packet =>
            let unitsize := min (packet.length - b.notch) rs
            let data := data ++ (packet.drop b.notch).take unitsize
            if unitsize < rs ∨ rs = packet.length - b.notch then
              readFrom lastack fuel { b with unit := Function.update b.unit p none, notch := 0 }
                (if p + 1 = b.size then 0 else p + 1) (rs - unitsize) data
            else
              readFrom lastack fuel { b with notch := b.notch + rs } p (rs - unitsize) data
      else some (b, p, data)

def readBuffer (b : RcvBuffer) (len : Nat) : Option (RcvBuffer × Bytes) :=
  (readFrom b.lastAckPos b.size b b.startPos len []).map fun (b, p, data) =>
    ({ b with startPos := p }, data)

theorem addData_size (b : RcvBuffer) (packet : Bytes) (d : Nat) : (b.addData packet d).1.size = b.size := by
  unfold addData
  dsimp only
  split <;> rfl

theorem addData_notch (b : RcvBuffer) (packet : Bytes) (d : Nat) :
    (b.addData packet d).1.notch = b.notch := by
  unfold addData
  dsimp only
  split <;> rfl

/-! ### What the slots hold -/

/-- The packets up to `la` are for the application, which is at the packet `rd`. What has come is in
the slots of a window that starts there. -/
structure Window (b : RcvBuffer) (c rd la : Nat) (came : Nat → Option Bytes) : Prop where
  le : rd ≤ la
  lt : la < rd + b.size
  lastAck : b.lastAckPos = slot b.size c la
  unit : ∀ x, rd ≤ x → x < rd + b.size → b.unit (slot b.size c x) = came x
  bound : ∀ x, rd + b.size ≤ x + 1 → came x = none
  full : ∀ x, rd ≤ x → x < la → (came x).isSome
  notch : b.notch ≠ 0 → rd < la ∧ ∃ packet, came rd = some packet ∧ b.notch < packet.length

/-- The bytes of the packets from `i` on, `n` of them. -/
def bytes (came : Nat → Option Bytes) (i n : Nat) : Bytes :=
  (List.range' i n).flatMap fun x => (came x).getD []

/-- What the application may read. -/
def pending (b : RcvBuffer) (came : Nat → Option Bytes) (rd la : Nat) : Bytes :=
  (bytes came rd (la - rd)).drop b.notch

section

variable {b : RcvBuffer} {c rd la i n : Nat} {came : Nat → Option Bytes}

theorem bytes_succ : bytes came i (n + 1) = (came i).getD [] ++ bytes came (i + 1) n := by
  rw [bytes, List.range'_succ, List.flatMap_cons, bytes]

theorem bytes_add {m : Nat} : bytes came i (n + m) = bytes came i n ++ bytes came (i + n) m := by
  rw [bytes, bytes, bytes, ← List.flatMap_append, List.range'_append_1]

theorem bytes_congr {came' : Nat → Option Bytes} (h : ∀ x, i ≤ x → x < i + n → came x = came' x) :
    bytes came i n = bytes came' i n := by
  rw [bytes, bytes]
  apply List.flatMap_congr
  intro x hx
  rw [List.mem_range'_1] at hx
  rw [h x hx.1 hx.2]

namespace Window

theorem pos (h : Window b c rd la came) : 0 < b.size := by
  have := h.le
  have := h.lt
  omega

/-- The slot that the application reads from is in use unless there is nothing to read. -/
theorem slot_ne_iff (h : Window b c rd la came) : slot b.size c rd ≠ b.lastAckPos ↔ rd < la := by
  have hle := h.le
  have hlt := h.lt
  rw [h.lastAck, Ne, slot_inj (by omega) (by omega)]
  omega

/-- A packet read to its end frees its slot. -/
theorem consume (h : Window b c rd la came) (hlt : rd < la) :
    Window { b with unit := Function.update b.unit (slot b.size c rd) none, notch := 0 } c (rd + 1) la
      came where
  le := hlt
  lt := by
    have := h.lt
    show la < rd + 1 + b.size
    omega
  lastAck := h.lastAck
  unit x hx hx' := by
    change x < rd + 1 + b.size at hx'
    show Function.update b.unit (slot b.size c rd) none (slot b.size c x) = came x
    by_cases hlast : x = rd + b.size
    · have hsame : slot b.size c x = slot b.size c rd := by
        rw [hlast, slot, slot, ← Nat.add_assoc, Nat.add_mod_right]
      rw [hsame, Function.update_self, h.bound x (by omega)]
    · rw [Function.update_of_ne, h.unit x (by omega) (by omega)]
      rw [Ne, slot_inj (by omega) (by omega)]
      omega
  bound x hx := h.bound x (by change rd + 1 + b.size ≤ x + 1 at hx; omega)
  full x hx hx' := h.full x (by omega) hx'
  notch hne := absurd rfl hne

/-- A packet read in part keeps its slot. -/
theorem partly (h : Window b c rd la came) (hlt : rd < la) {packet : Bytes} {k : Nat}
    (hcame : came rd = some packet) (hk : k < packet.length) : Window { b with notch := k } c rd la came where
  le := h.le
  lt := h.lt
  lastAck := h.lastAck
  unit := h.unit
  bound := h.bound
  full := h.full
  notch _ := ⟨hlt, packet, hcame, hk⟩

theorem notch_le (h : Window b c rd la came) {packet : Bytes} (hcame : came rd = some packet) :
    b.notch ≤ packet.length := by
  by_cases hnotch : b.notch = 0
  · omega
  · obtain ⟨-, packet', hcame', hlt⟩ := h.notch hnotch
    obtain rfl : packet = packet' := Option.some.inj (hcame.symm.trans hcame')
    exact hlt.le

theorem pending_eq (h : Window b c rd la came) (hlt : rd < la) {packet : Bytes}
    (hcame : came rd = some packet) :
    pending b came rd la = packet.drop b.notch ++ bytes came (rd + 1) (la - (rd + 1)) := by
  have hle := h.notch_le hcame
  rw [pending, show la - rd = la - (rd + 1) + 1 by omega, bytes_succ, hcame, Option.getD_some,
    List.drop_append_of_le_length hle]

theorem readFrom_stop {lastack p rs : Nat} {data : Bytes} (fuel : Nat)
    (hstop : ¬ (p ≠ lastack ∧ 0 < rs)) : readFrom lastack fuel b p rs data = some (b, p, data) := by
  cases fuel <;> rw [readFrom, if_neg hstop]

/-- The loop reads the next bytes, and what it leaves is the rest. -/
theorem readFrom_eq (fuel : Nat) : ∀ {b : RcvBuffer} {rd : Nat} (rs : Nat) (data : Bytes),
    Window b c rd la came → la ≤ rd + fuel →
    ∃ b' rd', readFrom b.lastAckPos fuel b (slot b.size c rd) rs data =
        some (b', slot b.size c rd', data ++ (pending b came rd la).take rs) ∧
      Window b' c rd' la came ∧ pending b' came rd' la = (pending b came rd la).drop rs ∧
      b'.size = b.size ∧ rd ≤ rd' := by
  induction fuel with
  | zero =>
      intro b rd rs data h hfuel
      have hstop : ¬ (slot b.size c rd ≠ b.lastAckPos ∧ 0 < rs) := by
        rw [h.slot_ne_iff]
        omega
      have hnone : pending b came rd la = [] := by
        rw [pending, show la - rd = 0 by omega]
        exact List.drop_nil
      refine ⟨b, rd, ?_, h, ?_, rfl, le_rfl⟩
      · rw [readFrom_stop 0 hstop, hnone, List.take_nil, List.append_nil]
      · rw [hnone, List.drop_nil]
  | succ fuel ih =>
      intro b rd rs data h hfuel
      by_cases hgo : rd < la ∧ 0 < rs
      · obtain ⟨hlt, hrs⟩ := hgo
        rw [readFrom, if_pos ⟨h.slot_ne_iff.mpr hlt, hrs⟩]
        obtain ⟨packet, hcame⟩ := Option.isSome_iff_exists.mp (h.full rd le_rfl hlt)
        have hle := h.notch_le hcame
        have hlen : (packet.drop b.notch).length = packet.length - b.notch := List.length_drop
        rw [h.unit rd le_rfl (by have := h.pos; omega), hcame, Option.bind_some, h.pending_eq hlt hcame]
        by_cases hall : packet.length - b.notch ≤ rs
        · -- the rest of the packet
          have hnext : (if slot b.size c rd + 1 = b.size then 0 else slot b.size c rd + 1) =
              slot b.size c (rd + 1) := by
            have hslot := slot_lt (c := c) (i := rd) h.pos
            rw [← slot_succ]
            split
            · rename_i heq
              rw [heq, Nat.mod_self]
            · rw [Nat.mod_eq_of_lt (by omega)]
          obtain ⟨b', rd', hread, h', hrest, hsize, hrd⟩ := ih (rs - (packet.length - b.notch))
            (data ++ packet.drop b.notch) (h.consume hlt) (by omega)
          refine ⟨b', rd', ?_, h', ?_, hsize, by omega⟩
          · simp only [Nat.min_eq_left hall, hnext]
            rw [if_pos (by omega), List.take_of_length_le hlen.le, List.take_append, hlen,
              List.take_of_length_le (by omega), ← List.append_assoc]
            exact hread
          · rw [hrest, List.drop_append, hlen, List.drop_eq_nil_of_le (hlen.le.trans hall),
              List.nil_append]
            rfl
        · -- a part of it
          have hpart : b.notch + rs < packet.length := by omega
          refine ⟨{ b with notch := b.notch + rs }, rd, ?_, h.partly hlt hcame hpart, ?_, rfl, le_rfl⟩
          · simp only [Nat.min_eq_right (show rs ≤ packet.length - b.notch by omega)]
            rw [if_neg (by omega), Nat.sub_self, readFrom_stop fuel (by omega),
              List.take_append_of_le_length (by omega)]
          · rw [(h.partly hlt hcame hpart).pending_eq hlt hcame, ← List.drop_drop,
              List.drop_append_of_le_length (by omega)]
      · have hstop : ¬ (slot b.size c rd ≠ b.lastAckPos ∧ 0 < rs) := by
          rwa [h.slot_ne_iff]
        rw [readFrom_stop _ hstop]
        by_cases hrs : 0 < rs
        · have hnone : pending b came rd la = [] := by
            rw [pending, show la - rd = 0 by omega]
            exact List.drop_nil
          exact ⟨b, rd, by rw [hnone, List.take_nil, List.append_nil], h, by rw [hnone, List.drop_nil], rfl,
            le_rfl⟩
        · obtain rfl : rs = 0 := by omega
          exact ⟨b, rd, by rw [List.take_zero, List.append_nil], h, by rw [List.drop_zero], rfl, le_rfl⟩

end Window

structure Represents (b : RcvBuffer) (c rd la : Nat) (came : Nat → Option Bytes) : Prop
    extends Window b c rd la came where
  start : b.startPos = slot b.size c rd

namespace Represents

theorem new (hn : 0 < n) (i : Nat) : ∃ c, Represents (RcvBuffer.new n) c i i fun _ => none := by
  obtain ⟨c, hc⟩ := exists_slot_eq_zero hn i
  refine ⟨c, ⟨le_rfl, ?_, hc.symm, fun _ _ _ => rfl, fun _ _ => rfl, fun x hx hx' => by omega,
    fun hne => absurd rfl hne⟩, hc.symm⟩
  show i < i + n
  omega

theorem getRcvDataSize_eq (h : Represents b c rd la came) : b.getRcvDataSize = (la : Int) - rd := by
  have hle := h.le
  have hlt := h.lt
  have hslot := slot_add_eq (c := c) (i := rd) (d := la - rd) (n := b.size) (by omega)
  have hrd := slot_lt (c := c) (i := rd) h.pos
  rw [show rd + (la - rd) = la by omega] at hslot
  rw [getRcvDataSize, h.start, h.lastAck, hslot]
  split <;> split <;> omega

theorem getAvailBufSize_eq (h : Represents b c rd la came) :
    b.getAvailBufSize = (rd : Int) + b.size - la - 1 := by
  rw [getAvailBufSize, h.getRcvDataSize_eq]
  omega

/-- A packet in the window is kept unless it came before. -/
theorem addData (h : Represents b c rd la came) (packet : Bytes) {d : Nat}
    (hd : (d : Int) < b.getAvailBufSize) :
    (b.addData packet d).2 = (came (la + d)).isNone ∧
      Represents (b.addData packet d).1 c rd la
        (if (came (la + d)).isNone then Function.update came (la + d) (some packet) else came) := by
  have hle := h.le
  rw [h.getAvailBufSize_eq] at hd
  have hpos : (b.lastAckPos + d) % b.size = slot b.size c (la + d) := by rw [h.lastAck, slot_add]
  have hunit := h.unit (la + d) (by omega) (by omega)
  unfold RcvBuffer.addData
  simp only [hpos, hunit]
  cases hcame : came (la + d) with
  | some packet' => exact ⟨rfl, ⟨h.le, h.lt, h.lastAck, h.unit, h.bound, h.full, h.notch⟩, h.start⟩
  | none =>
      have hother : ∀ x, (came x).isSome → x ≠ la + d := by
        rintro x hx rfl
        rw [hcame] at hx
        cases hx
      refine ⟨rfl, ?_⟩
      rw [if_pos Option.isNone_none]
      refine ⟨⟨h.le, h.lt, h.lastAck, fun x hx hx' => ?_, fun x hx => ?_, fun x hx hx' => ?_,
        fun hne => ?_⟩, h.start⟩
      · show Function.update b.unit (slot b.size c (la + d)) (some packet) (slot b.size c x) = _
        change x < rd + b.size at hx'
        by_cases hxd : x = la + d
        · subst hxd
          rw [Function.update_self, Function.update_self]
        · have hslot : slot b.size c x ≠ slot b.size c (la + d) := by
            rwa [Ne, slot_inj (by omega) (by omega)]
          rw [Function.update_of_ne hslot, Function.update_of_ne hxd, h.unit x hx hx']
      · change rd + b.size ≤ x + 1 at hx
        rw [Function.update_of_ne (by omega), h.bound x hx]
      · have hsome := h.full x hx hx'
        rwa [Function.update_of_ne (hother x hsome)]
      · obtain ⟨hlt, packet', hrd, hlen⟩ := h.notch hne
        exact ⟨hlt, packet', (Function.update_of_ne (by omega) ..).trans hrd, hlen⟩

/-- Acknowledged packets are for the application, behind what it had before. -/
theorem ackData (h : Represents b c rd la came) (hn : la + n < rd + b.size)
    (hfull : ∀ x, la ≤ x → x < la + n → (came x).isSome) :
    Represents (b.ackData n) c rd (la + n) came ∧
      pending (b.ackData n) came rd (la + n) = pending b came rd la ++ bytes came la n := by
  have hle := h.le
  refine ⟨⟨⟨by omega, hn, ?_, h.unit, h.bound, fun x hx hx' => ?_, fun hne => ?_⟩, h.start⟩, ?_⟩
  · show (b.lastAckPos + n) % b.size = slot b.size c (la + n)
    rw [h.lastAck, slot_add]
  · by_cases hla : x < la
    · exact h.full x hx hla
    · exact hfull x (by omega) hx'
  · obtain ⟨hlt, hpacket⟩ := h.notch hne
    exact ⟨by omega, hpacket⟩
  · show (bytes came rd (la + n - rd)).drop b.notch = (bytes came rd (la - rd)).drop b.notch ++ _
    rw [show la + n - rd = la - rd + n by omega, bytes_add, show rd + (la - rd) = la by omega]
    by_cases hnotch : b.notch = 0
    · rw [hnotch, List.drop_zero, List.drop_zero]
    · obtain ⟨hlt, packet, hcame, hlen⟩ := h.notch hnotch
      rw [List.drop_append_of_le_length]
      rw [show la - rd = la - (rd + 1) + 1 by omega, bytes_succ, hcame, Option.getD_some,
        List.length_append]
      omega

/-- **Reading.** The application gets the next bytes, as many as it asks for and there are. -/
theorem readBuffer (h : Represents b c rd la came) (len : Nat) :
    ∃ b' rd', b.readBuffer len = some (b', (pending b came rd la).take len) ∧
      Represents b' c rd' la came ∧ pending b' came rd' la = (pending b came rd la).drop len ∧
      b'.size = b.size ∧ rd ≤ rd' := by
  have hlt := h.lt
  obtain ⟨b', rd', hread, hwindow, hrest, hsize, hrd⟩ := h.toWindow.readFrom_eq b.size len [] (by omega)
  rw [List.nil_append] at hread
  refine ⟨{ b' with startPos := slot b.size c rd' }, rd', ?_, ⟨⟨hwindow.le, hwindow.lt, hwindow.lastAck,
    hwindow.unit, hwindow.bound, hwindow.full, hwindow.notch⟩, hsize ▸ rfl⟩, hrest, hsize, hrd⟩
  rw [RcvBuffer.readBuffer, h.start, hread]
  rfl

end Represents

end

end RcvBuffer

end FusionFS.Udt
