import FusionFS.Lib.IntervalSlots
import FusionFS.Lib.Run
import FusionFS.Udt.SeqNo

/-!
# The loss list of a receiver

`CRcvLossList`: the sequence numbers a receiver misses, as intervals in arrays that are used around
their ends. A loss is inserted when a packet from behind it arrives, and it is removed number by
number.
-/

namespace FusionFS.Udt

open IntervalSet IntervalSlots SerialNumber SlotChain

/-- `-1` is `none`. -/
structure RcvLossList where
  data1 : Nat → Option Nat
  data2 : Nat → Option Nat
  next : Nat → Option Nat
  prior : Nat → Option Nat
  head : Option Nat
  tail : Option Nat
  length : Int
  size : Nat

namespace RcvLossList

def new (size : Nat) : RcvLossList :=
  ⟨fun _ => none, fun _ => none, fun _ => none, fun _ => none, none, none, 0, size⟩

def insert (l : RcvLossList) (seqno1 seqno2 : Nat) : Option RcvLossList :=
  if l.length = 0 then
    some { l with
      head := some 0
      tail := some 0
      data1 := Function.update l.data1 0 (some seqno1)
      data2 := if seqno2 ≠ seqno1 then Function.update l.data2 0 (some seqno2) else l.data2
      next := Function.update l.next 0 none
      prior := Function.update l.prior 0 none
      length := l.length + seqlen seqno1 seqno2 }
  else do
    let head ← l.head
    let tail ← l.tail
    if (l.data2 tail).map incseq = some seqno1 then
      some { l with
        data2 := Function.update l.data2 tail (some seqno2)
        length := l.length + seqlen seqno1 seqno2 }
    else
      let first ← l.data1 head
      let loc ← index (head + seqoff first seqno1) l.size
      some { l with
        data1 := Function.update l.data1 loc (some seqno1)
        data2 := if seqno2 ≠ seqno1 then Function.update l.data2 loc (some seqno2) else l.data2
        next := Function.update (Function.update l.next tail (some loc)) loc none
        prior := Function.update l.prior loc (some tail)
        tail := some loc
        length := l.length + seqlen seqno1 seqno2 }

/-- Taking a node with one loss out. -/
def unlinkNode (l : RcvLossList) (loc : Nat) : Option RcvLossList :=
  if l.head = some loc then
    some { l with
      head := l.next loc
      prior := match l.next loc with
        | some after => Function.update l.prior after none
        | none => l.prior }
  else do
    let before ← l.prior loc
    let l := { l with next := Function.update l.next before (l.next loc) }
    match l.next loc with
    | some after => some { l with prior := Function.update l.prior after (l.prior loc) }
    | none => some { l with tail := l.prior loc }

/-- Moving a node that starts with the loss one slot on. -/
def shiftNode (l : RcvLossList) (loc seqno last : Nat) : Option RcvLossList := do
  let i := (loc + 1) % l.size
  let data2 := if 0 < seqcmp last (incseq seqno) then Function.update l.data2 i (some last) else l.data2
  let l := { l with
    data1 := Function.update (Function.update l.data1 i (some (incseq seqno))) loc none
    data2 := Function.update data2 loc none
    next := Function.update l.next i (l.next loc)
    prior := Function.update l.prior i (l.prior loc) }
  let l ← if l.head = some loc then some { l with head := some i }
    else (l.prior i).map fun before => { l with next := Function.update l.next before (some i) }
  if l.tail = some loc then some { l with tail := some i }
  else (l.next i).map fun after => { l with prior := Function.update l.prior after (some i) }

/-- The loop that looks for the node before. -/
def searchBack (l : RcvLossList) : Nat → Nat → Option Nat
  | 0, _ => none
  | fuel + 1, i =>
      if l.data1 i = none then searchBack l fuel ((i + l.size - 1) % l.size) else some i

/-- The new end of the node `i` before a loss. -/
def shortened (data1 : Nat → Option Nat) (i seqno : Nat) : Option Nat :=
  if (data1 i).map incseq = some seqno then none else some (decseq seqno)

/-- Removing a loss behind the first of the node `i`. `loc` is the slot of the loss. -/
def splitNode (l : RcvLossList) (loc i seqno last : Nat) : Option RcvLossList :=
  if seqno = last then
    some { l with data2 := Function.update l.data2 i (shortened l.data1 i seqno) }
  else
    let loc := (loc + 1) % l.size
    let data1 := Function.update l.data1 loc (some (incseq seqno))
    let data2 :=
      if 0 < seqcmp last (incseq seqno) then Function.update l.data2 loc (some last) else l.data2
    let l := { l with
      data1 := data1
      data2 := Function.update data2 i (shortened data1 i seqno)
      next := Function.update (Function.update l.next loc (l.next i)) i (some loc)
      prior := Function.update l.prior loc (some i) }
    if l.tail = some i then some { l with tail := some loc }
    else (l.next loc).map fun after => { l with prior := Function.update l.prior after (some loc) }

def remove (l : RcvLossList) (seqno : Nat) : Option (RcvLossList × Bool) :=
  if l.length = 0 then some (l, false)
  else do
    let head ← l.head
    let first ← l.data1 head
    let offset := seqoff first seqno
    if offset < 0 then some (l, false)
    else
      let loc ← index (head + offset) l.size
      if l.data1 loc = some seqno then
        let l ← match l.data2 loc with
          | none => (l.unlinkNode loc).map fun l =>
              { l with data1 := Function.update l.data1 loc none }
          | some last => l.shiftNode loc seqno last
        some ({ l with length := l.length - 1 }, true)
      else
        let i ← l.searchBack l.size ((loc + l.size - 1) % l.size)
        match l.data2 i with
        | none => some (l, false)
        | some last =>
            if 0 < seqcmp seqno last then some (l, false)
            else do
              let l ← l.splitNode loc i seqno last
              some ({ l with length := l.length - 1 }, true)

/-- The loops of `remove` over a range. -/
def removeAll (l : RcvLossList) (seqnos : List Nat) : Option RcvLossList :=
  seqnos.foldlM (fun l seqno => (l.remove seqno).map Prod.fst) l

/-- `remove` of a range. Counting `i` up past the greatest number overflows. -/
def removeRange (l : RcvLossList) (seqno1 seqno2 : Nat) : Option RcvLossList :=
  if seqno1 ≤ seqno2 then
    if seqno2 = maxSeqNo then none
    else l.removeAll (List.range' seqno1 (seqno2 + 1 - seqno1))
  else
    (l.removeAll (List.range' seqno1 (maxSeqNo - seqno1))).bind fun l =>
      l.removeAll (List.range' 0 (seqno2 + 1))

/-- The loop of `find`. -/
def findFrom (l : RcvLossList) (seqno1 seqno2 : Nat) : Nat → Option Nat → Option Bool
  | _, none => some false
  | 0, some _ => none
  | fuel + 1, some p => (l.data1 p).bind fun first =>
      if seqcmp first seqno1 = 0 ∨ (0 < seqcmp first seqno1 ∧ seqcmp first seqno2 ≤ 0) ∨
          (seqcmp first seqno1 < 0 ∧ (l.data2 p).any fun last => 0 ≤ seqcmp last seqno1) then
        some true
      else findFrom l seqno1 seqno2 fuel (l.next p)

def find (l : RcvLossList) (seqno1 seqno2 : Nat) : Option Bool :=
  if l.length = 0 then some false else l.findFrom seqno1 seqno2 l.size l.head

def getFirstLostSeq (l : RcvLossList) : Option Nat :=
  if l.length = 0 then none else l.head.bind l.data1

/-! ### What the arrays hold -/

structure Represents (l : RcvLossList) (c : Nat) (runs : Runs) : Prop where
  pos : 0 < l.size
  small : l.size ≤ seqNoTh
  holds : Holds l.size c seqOf l.data1 l.data2 (links l.head l.next) runs
  back : runs ≠ [] → Leads (links l.tail l.prior) (slots l.size c runs).reverse
  length : l.length = total runs

section

variable {l : RcvLossList} {c i j : Nat} {runs p q : Runs} {r : Nat × Nat}

theorem Represents.new {size : Nat} (hpos : 0 < size) (hsmall : size ≤ seqNoTh) :
    Represents (RcvLossList.new size) 0 [] where
  pos := hpos
  small := hsmall
  holds := Holds.of_nil (fun _ => ⟨rfl, rfl⟩) rfl
  back h := absurd rfl h
  length := rfl

namespace Represents

theorem of_parts {data1 data2 next prior : Nat → Option Nat} {head tail : Option Nat} {length : Int}
    {size : Nat} (hpos : 0 < size) (hsmall : size ≤ seqNoTh)
    (hholds : Holds size c seqOf data1 data2 (links head next) runs)
    (hback : runs ≠ [] → Leads (links tail prior) (slots size c runs).reverse)
    (hlength : length = total runs) :
    Represents ⟨data1, data2, next, prior, head, tail, length, size⟩ c runs :=
  ⟨hpos, hsmall, hholds, hback, hlength⟩

theorem length_eq_zero_iff (h : Represents l c runs) : l.length = 0 ↔ runs = [] := by
  rw [h.length, h.holds.ordered.total_eq_zero_iff]

/-- A count that is not far from the first loss is near every loss. -/
theorem near (h : Represents l c runs) {x y : Nat} (hx : x ∈ elems runs) (hy : y ∈ elems runs) :
    Near seqNoTh x y := by
  have hxy := h.holds.span x hx y hy
  have hyx := h.holds.span y hy x hx
  have := h.small
  exact ⟨by omega, by omega⟩

theorem tail_eq (h : Represents l c (p ++ [r])) : l.tail = some (slot l.size c r.1) := by
  have hback := (h.back (by simp)).head
  rw [slots_append, List.reverse_append] at hback
  exact hback

/-- The first number of a list with a single node. -/
theorem insert_empty (h : Represents l c []) (hij : i ≤ j) (hsize : j < i + l.size) :
    ∃ l' c', l.insert (seqOf i) (seqOf j) = some l' ∧ Represents l' c' [(i, j)] ∧ l'.size = l.size := by
  have hpos := h.pos
  have hsmall := h.small
  obtain ⟨c', hc'⟩ := exists_slot_eq_zero hpos i
  have hne : seqOf j ≠ seqOf i ↔ i < j := by
    rw [Ne, seqOf_inj ⟨by omega, by omega⟩]
    omega
  have hempty : Holds l.size c' seqOf l.data1 l.data2 (links l.head l.next) [] :=
    Holds.of_nil (fun k => h.holds.dead k (by simp)) (leads_nil.mp h.holds.leads)
  rw [insert, if_pos (h.length_eq_zero_iff.mpr rfl)]
  refine ⟨_, c', rfl, of_parts hpos hsmall ?_ ?_ ?_, rfl⟩
  · refine Holds.edit [] [] [(i, j)] [] hempty (Ordered.singleton hij) ?_ ?_ (by simp) ?_ ?_
    · intro x hx y hy
      simp only [List.nil_append, List.append_nil, elems_cons, elems_nil, Finset.union_empty,
        Finset.mem_Icc] at hx hy
      omega
    · intro r hr
      obtain rfl := List.mem_singleton.mp hr
      rw [hc']
      refine ⟨Function.update_self .., ?_⟩
      by_cases hlt : i < j
      · rw [if_pos (hne.mpr hlt), Function.update_self, lastOf_of_lt hlt]
      · rw [if_neg (mt hne.mp hlt), lastOf, if_neg hlt]
        exact (h.holds.dead 0 (by simp)).2
    · intro k _ hk
      have hk0 : k ≠ 0 := by simpa [hc'] using hk
      refine ⟨Function.update_of_ne hk0 .., ?_⟩
      by_cases hlt : i < j
      · rw [if_pos (hne.mpr hlt), Function.update_of_ne hk0]
      · rw [if_neg (mt hne.mp hlt)]
    · simp [Leads, slots, hc']
  · intro _
    simp [Leads, slots, hc']
  · rw [total_cons, total_nil, ← seqlen_eq hij (by omega), h.length, total_nil]
    omega

theorem head_eq {f : Nat × Nat} (h : Represents l c (f :: runs)) :
    l.head = some (slot l.size c f.1) ∧ l.data1 (slot l.size c f.1) = some (seqOf f.1) :=
  ⟨h.holds.head, (h.holds.live f List.mem_cons_self).1⟩

/-- The new intervals of an insertion behind the last loss. -/
theorem insert_behind (h : Represents l c (p ++ [r])) (hij : i ≤ j) (hnew : r.2 < i)
    (hspan : ∀ x ∈ elems (p ++ [r]), j < x + l.size) :
    ∃ l' runs', l.insert (seqOf i) (seqOf j) = some l' ∧ Represents l' c runs' ∧
      elems runs' = elems (p ++ [r]) ∪ Finset.Icc i j ∧ l'.size = l.size := by
  have hpos := h.pos
  have hsmall := h.small
  have hord := h.holds.ordered
  have hrmem : r ∈ p ++ [r] := List.mem_append_right _ List.mem_cons_self
  have hrle := hord.le r hrmem
  have hr1 := hspan _ (hord.fst_mem hrmem)
  have hlast : ∀ s ∈ p, s.2 < r.1 := fun s hs =>
    (Ordered.append_iff.mp hord).2.2 s hs r List.mem_cons_self
  have hbound : ∀ x ∈ elems (p ++ [r]), x ≤ r.2 := by
    intro x hx
    obtain ⟨s, hs, -, hle⟩ := mem_elems.mp hx
    rcases List.mem_append.mp hs with hs | hs
    · have := hlast s hs
      omega
    · obtain rfl := List.mem_singleton.mp hs
      exact hle
  obtain ⟨f, rest, hf⟩ := List.exists_cons_of_ne_nil (show p ++ [r] ≠ [] by simp)
  obtain ⟨hhead, hfirst⟩ := (hf ▸ h).head_eq
  have hfmem : f.1 ∈ elems (p ++ [r]) := hord.fst_mem (by rw [hf]; exact List.mem_cons_self)
  have hlen : l.length ≠ 0 := fun h0 => by simp [h.length_eq_zero_iff] at h0
  have hlive := h.holds.live r hrmem
  have hsum : l.length + seqlen (seqOf i) (seqOf j) = total (p ++ [r]) + ((j : Int) - i + 1) := by
    rw [h.length, seqlen_eq hij (by omega)]
  have hsize : j < i + l.size := by omega
  have hspan' := span_union h.holds.span (fun x hx => (hbound x hx).trans_lt hnew) hspan hsize
  have hleads := h.holds.leads
  have hback := h.back (by simp)
  rw [hhead] at hleads
  rw [h.tail_eq] at hback
  unfold insert
  simp only [if_neg hlen, hhead, h.tail_eq, Option.bind_eq_bind, Option.bind_some, hlive.2]
  by_cases hjoin : r.1 < r.2 ∧ r.2 + 1 = i
  · -- the last interval grows
    obtain ⟨hr12, rfl⟩ := hjoin
    have helems : elems (p ++ [(r.1, j)]) = elems (p ++ [r]) ∪ Finset.Icc (r.2 + 1) j := by
      ext x
      simp only [elems_append, elems_cons, elems_nil, Finset.mem_union, Finset.mem_Icc,
        Finset.notMem_empty, or_false, or_assoc]
      refine or_congr_right ?_
      omega
    rw [lastOf, if_pos hr12, Option.map_some, incseq_seqOf, if_pos rfl]
    refine ⟨_, p ++ [(r.1, j)], rfl, of_parts hpos hsmall ?_ (fun _ => ?_) ?_, helems, rfl⟩
    · refine Holds.edit p [r] [(r.1, j)] [] h.holds ?_ (by rwa [List.append_nil, helems]) ?_ ?_ ?_ ?_
      · exact Ordered.append_iff.mpr ⟨(Ordered.append_iff.mp hord).1, Ordered.singleton (by omega),
          fun s hs t ht => by
            obtain rfl := List.mem_singleton.mp ht
            exact hlast s hs⟩
      · intro s hs
        obtain rfl := List.mem_singleton.mp hs
        exact ⟨hlive.1, by rw [Function.update_self, lastOf_of_lt (by omega)]⟩
      · intro s hs hout
        obtain rfl := List.mem_singleton.mp hs
        exact absurd rfl (hout (s.1, j) List.mem_cons_self)
      · intro k hk _
        exact ⟨rfl, Function.update_of_ne (hk r List.mem_cons_self) ..⟩
      · simpa using hleads
    · simpa using hback
    · rw [hsum]
      simp only [total_append, total_cons, total_nil]
      omega
  · -- a new node behind the last
    have hcond : (lastOf seqOf r).map incseq ≠ some (seqOf i) := by
      rw [lastOf]
      split
      · rw [Option.map_some, incseq_seqOf, Ne, Option.some.injEq, seqOf_inj ⟨by omega, by omega⟩]
        exact fun heq => hjoin ⟨by assumption, heq⟩
      · exact (Option.some_ne_none _).symm
    have hne : seqOf j ≠ seqOf i ↔ i < j := by
      rw [Ne, seqOf_inj ⟨by omega, by omega⟩]
      omega
    have hf1 := hbound _ hfmem
    have hf2 := hspan _ hfmem
    have hloc : index (slot l.size c f.1 + seqoff (seqOf f.1) (seqOf i)) l.size =
        some (slot l.size c i) := index_seqoff (by omega) (by omega)
    have helems : elems (p ++ [r] ++ [(i, j)]) = elems (p ++ [r]) ∪ Finset.Icc i j := by
      rw [elems_append, elems_cons, elems_nil, Finset.union_empty]
    have hord' : Ordered (p ++ [r] ++ [(i, j)]) := by
      refine Ordered.append_iff.mpr ⟨hord, Ordered.singleton hij, fun s hs t ht => ?_⟩
      obtain rfl := List.mem_singleton.mp ht
      have := hbound _ (hord.snd_mem hs)
      omega
    have hnodup' := nodup_slots (c := c) hord' (by rwa [helems])
    rw [slots_append, slots_cons, slots_nil] at hnodup'
    have hnodup := List.nodup_append.mp hnodup'
    -- the new slot is not in use
    have hfresh : ∀ k ∈ slots l.size c (p ++ [r]), k ≠ slot l.size c i := fun k hk =>
      hnodup.2.2 k hk _ List.mem_cons_self
    have hdead := h.holds.dead (slot l.size c i) fun hmem => hfresh _ hmem rfl
    have hrloc : slot l.size c r.1 ≠ slot l.size c i := hfresh _ (mem_slots.mpr ⟨r, hrmem, rfl⟩)
    simp only [if_neg hcond, hfirst, Option.bind_some, hloc]
    refine ⟨_, p ++ [r] ++ [(i, j)], rfl, of_parts hpos hsmall ?_ (fun _ => ?_) ?_, helems, rfl⟩
    · refine Holds.edit (p ++ [r]) [] [(i, j)] [] (by simpa using h.holds) hord'
        (by rw [List.append_nil, helems]; exact hspan') ?_ (by simp) ?_ ?_
      · intro s hs
        obtain rfl := List.mem_singleton.mp hs
        refine ⟨Function.update_self .., ?_⟩
        by_cases hlt : i < j
        · rw [if_pos (hne.mpr hlt), Function.update_self, lastOf_of_lt hlt]
        · rw [if_neg (mt hne.mp hlt), lastOf, if_neg hlt]
          exact hdead.2
      · intro k _ hk
        have hk' : k ≠ slot l.size c i := hk (i, j) List.mem_cons_self
        refine ⟨Function.update_of_ne hk' .., ?_⟩
        by_cases hlt : i < j
        · rw [if_pos (hne.mpr hlt), Function.update_of_ne hk']
        · rw [if_neg (mt hne.mp hlt)]
      · have key := Leads.relink _ [] [] (by simpa using hleads) (by simpa using hnodup.1) hnodup'
        rw [links_update_next, links_update_next, ← Function.update_comm (by simpa using hrloc.symm)]
        simpa using key
    · have hrev := List.nodup_reverse.mpr hnodup'
      rw [List.reverse_append, List.reverse_singleton] at hrev
      have key := Leads.relink [] [] _ hback (List.nodup_reverse.mpr hnodup.1) hrev
      rw [links_update_head (some (slot l.size c r.1)), links_update_next]
      simpa using key
    · rw [hsum, total_append, total_append, total_append, total_cons, total_cons, total_nil]
      omega

end Represents

end

end RcvLossList

end FusionFS.Udt
