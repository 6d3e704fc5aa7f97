import Mathlib.Data.List.Nodup
import Mathlib.Data.List.Flatten
import Mathlib.Logic.Function.Basic

/-!
# Logs of records with an index

A store appends the records it writes to a log and crosses out those that no longer hold. An index
keeps, for each address, the record that belongs to it and the offset at which that record begins.
-/

namespace RecordLog

universe u v

variable {α : Type u} {β : Type v} (enc : α → List β) {o n : Nat} {x y : α} {xs ys l r : List α}

/-- The records with the offsets at which they begin. -/
def offsets : Nat → List α → List (Nat × α)
  | _, [] => []
  | o, x :: xs => (o, x) :: offsets (o + (enc x).length) xs

theorem offsets_append (o : Nat) (xs ys : List α) :
    offsets enc o (xs ++ ys) = offsets enc o xs ++ offsets enc (o + (xs.flatMap enc).length) ys := by
  induction xs generalizing o with
  | nil => rfl
  | cons x xs ih =>
      rw [List.cons_append, offsets, ih, offsets, List.cons_append, List.flatMap_cons,
        List.length_append, Nat.add_assoc]

theorem offsets_map {γ : Type*} (f : γ → α) (o : Nat) (zs : List γ) :
    offsets enc o (zs.map f) = (offsets (fun z => enc (f z)) o zs).map fun e => (e.1, f e.2) := by
  induction zs generalizing o with
  | nil => rfl
  | cons z zs ih => rw [List.map_cons, offsets, ih, offsets, List.map_cons]

theorem mem_offsets : (n, x) ∈ offsets enc o xs ↔
    ∃ l r, xs = l ++ x :: r ∧ n = o + (l.flatMap enc).length := by
  induction xs generalizing o with
  | nil => exact ⟨nofun, fun ⟨l, r, h, _⟩ => by simp at h⟩
  | cons y xs ih =>
      rw [offsets, List.mem_cons, ih]
      constructor
      · rintro (h | ⟨l, r, rfl, rfl⟩)
        · obtain ⟨rfl, rfl⟩ := Prod.mk.inj h
          exact ⟨[], xs, rfl, rfl⟩
        · refine ⟨y :: l, r, rfl, ?_⟩
          rw [List.flatMap_cons, List.length_append, Nat.add_assoc]
      · rintro ⟨l, r, hsplit, rfl⟩
        cases l with
        | nil =>
            obtain ⟨rfl, -⟩ := List.cons.inj hsplit
            exact .inl rfl
        | cons z l =>
            obtain ⟨rfl, rfl⟩ := List.cons.inj hsplit
            refine .inr ⟨l, r, rfl, ?_⟩
            rw [List.flatMap_cons, List.length_append, Nat.add_assoc]

theorem map_snd_offsets (o : Nat) (xs : List α) : (offsets enc o xs).map Prod.snd = xs := by
  induction xs generalizing o with
  | nil => rfl
  | cons x xs ih => rw [offsets, List.map_cons, ih]

variable {enc}

theorem lt_of_mem_offsets (hne : ∀ x ∈ xs, enc x ≠ []) (h : (n, x) ∈ offsets enc o xs) :
    o ≤ n ∧ n < o + (xs.flatMap enc).length := by
  obtain ⟨l, r, rfl, rfl⟩ := (mem_offsets enc).mp h
  have hpos := List.length_pos_iff.mpr (hne x (List.mem_append_right l List.mem_cons_self))
  rw [List.flatMap_append, List.flatMap_cons, List.length_append, List.length_append]
  omega

theorem nodup_offsets (hne : ∀ x ∈ xs, enc x ≠ []) : ((offsets enc o xs).map Prod.fst).Nodup := by
  induction xs generalizing o with
  | nil => exact List.nodup_nil
  | cons x xs ih =>
      have htail : ∀ y ∈ xs, enc y ≠ [] := fun y hy => hne y (List.mem_cons_of_mem x hy)
      have hpos := List.length_pos_iff.mpr (hne x List.mem_cons_self)
      rw [offsets, List.map_cons, List.nodup_cons]
      refine ⟨?_, ih htail⟩
      intro hmem
      obtain ⟨⟨n, y⟩, hmem, hn⟩ := List.mem_map.mp hmem
      have hle := (lt_of_mem_offsets htail hmem).1
      dsimp only at hn
      omega

/-! ### Records that hold -/

variable (enc) (alive : α → Bool)

/-- The records of a log that are not crossed out. -/
def live (xs : List α) : List (Nat × α) := (offsets enc 0 xs).filter fun e => alive e.2

variable {alive}

theorem nodup_live (hne : ∀ x ∈ xs, enc x ≠ []) : (live enc alive xs).Nodup :=
  (nodup_offsets hne).of_map.filter _

theorem live_append_self (hx : alive x = true) :
    live enc alive (xs ++ [x]) = live enc alive xs ++ [((xs.flatMap enc).length, x)] := by
  rw [live, offsets_append, List.filter_append, Nat.zero_add, live]
  simp [offsets, hx]

/-- Crossing out a record takes it, and only it, out of the log. -/
theorem live_strike (hlen : (enc y).length = (enc x).length) (hx : alive x = true)
    (hy : alive y = false) : (live enc alive (l ++ x :: r)).Perm
      (((l.flatMap enc).length, x) :: live enc alive (l ++ y :: r)) := by
  have hcons : ∀ z, live enc alive (l ++ z :: r) = live enc alive l ++
      ((if alive z then [((l.flatMap enc).length, z)] else []) ++
        (offsets enc ((l.flatMap enc).length + (enc z).length) r).filter fun e => alive e.2) := by
    intro z
    rw [live, offsets_append, offsets, Nat.zero_add, List.filter_append, live, List.filter_cons]
    split <;> rfl
  rw [hcons x, hcons y, hlen, if_pos hx, if_neg (by simp [hy])]
  exact List.perm_middle

/-! ### The index -/

section Index

variable {κ ν ι : Type*} (enc : κ × ν → List β) (alive : κ × ν → Bool)

/-- Every address has its own live record, and together they are a map. -/
structure Index (log : List (κ × ν)) (c : ι → Option (Nat × κ × ν)) (st : κ → Option ν) : Prop where
  live : ∀ e, e ∈ live enc alive log ↔ ∃ a, c a = some e
  map : ∀ k v, st k = some v ↔ ∃ a o, c a = some (o, k, v)
  unique : ∀ {a b : ι} {o o' : Nat} {k : κ} {v v' : ν},
    c a = some (o, k, v) → c b = some (o', k, v') → a = b

variable {enc alive} {log : List (κ × ν)} {c : ι → Option (Nat × κ × ν)} {st : κ → Option ν} {a b : ι}
  {d e : Nat × κ × ν} {k k' : κ} {v v' : ν}

theorem Index.split (h : Index enc alive log c st) (ha : c a = some (o, k, v)) :
    alive (k, v) = true ∧ ∃ l r, log = l ++ (k, v) :: r ∧ o = (l.flatMap enc).length := by
  obtain ⟨hmem, halive⟩ := List.mem_filter.mp ((h.live _).mpr ⟨a, ha⟩)
  obtain ⟨l, r, hlog, ho⟩ := (mem_offsets enc).mp hmem
  rw [Nat.zero_add] at ho
  exact ⟨halive, l, r, hlog, ho⟩

/-- A log that is written anew, one record for each address of a list. -/
theorem Index.of_list {es : List (ι × κ × ν)} (hc : ∀ a e, c a = some e ↔
      (e.1, a, e.2) ∈ offsets (fun x : ι × κ × ν => enc x.2) 0 es)
    (hst : ∀ k v, st k = some v ↔ ∃ a, (a, k, v) ∈ es) (hkeys : (es.map fun e => e.2.1).Nodup)
    (halive : ∀ e ∈ es, alive e.2 = true) : Index enc alive (es.map Prod.snd) c st where
  live e := by
    have hall : RecordLog.live enc alive (es.map Prod.snd) = offsets enc 0 (es.map Prod.snd) := by
      rw [RecordLog.live, List.filter_eq_self]
      intro f hf
      have hmem := List.mem_map_of_mem (f := Prod.snd) hf
      rw [map_snd_offsets] at hmem
      obtain ⟨x, hx, heq⟩ := List.mem_map.mp hmem
      rw [← heq]
      exact halive x hx
    rw [hall, offsets_map, List.mem_map]
    constructor
    · rintro ⟨⟨o, a, x⟩, hmem, rfl⟩
      exact ⟨a, (hc a (o, x)).mpr hmem⟩
    · rintro ⟨a, ha⟩
      exact ⟨(e.1, a, e.2), (hc a e).mp ha, rfl⟩
  map k v := by
    rw [hst]
    constructor
    · rintro ⟨a, hmem⟩
      obtain ⟨l, r, hsplit⟩ := List.append_of_mem hmem
      exact ⟨a, _, (hc a (_, k, v)).mpr ((mem_offsets _).mpr ⟨l, r, hsplit, rfl⟩)⟩
    · rintro ⟨a, o, ha⟩
      obtain ⟨l, r, rfl, -⟩ := (mem_offsets _).mp ((hc a _).mp ha)
      exact ⟨a, List.mem_append_right l List.mem_cons_self⟩
  unique {a b o o' k v v'} ha hb := by
    have hmem : ∀ {a o v}, c a = some (o, k, v) → (a, k, v) ∈ es := by
      intro a o v ha
      obtain ⟨l, r, rfl, -⟩ := (mem_offsets _).mp ((hc a _).mp ha)
      exact List.mem_append_right l List.mem_cons_self
    have heq := List.inj_on_of_nodup_map hkeys (hmem ha) (hmem hb) rfl
    exact (Prod.mk.inj heq).1

variable [DecidableEq ι]

theorem update_none_eq_some : Function.update c a none b = some e ↔ b ≠ a ∧ c b = some e := by
  by_cases hb : b = a
  · subst hb
    simp
  · rw [Function.update_of_ne hb]
    exact ⟨fun h => ⟨hb, h⟩, fun h => h.2⟩

theorem update_some_eq_some :
    Function.update c a (some d) b = some e ↔ b = a ∧ d = e ∨ b ≠ a ∧ c b = some e := by
  by_cases hb : b = a
  · subst hb
    simp
  · rw [Function.update_of_ne hb]
    exact ⟨fun h => .inr ⟨hb, h⟩, fun h => h.elim (fun h => absurd h.1 hb) fun h => h.2⟩

/-- A record is crossed out, and its address and its key are free. -/
theorem Index.strike [DecidableEq κ] {l r : List (κ × ν)} (h : Index enc alive (l ++ (k, v) :: r) c st)
    (ha : c a = some ((l.flatMap enc).length, k, v)) (hne : ∀ x ∈ l ++ (k, v) :: r, enc x ≠ [])
    (halive : alive (k, v) = true) (hlen : (enc (k', v')).length = (enc (k, v)).length)
    (hdead : alive (k', v') = false) :
    Index enc alive (l ++ (k', v') :: r) (Function.update c a none) (Function.update st k none) where
  live e := by
    have hperm := live_strike enc (l := l) (r := r) hlen halive hdead
    have hnodup := hperm.nodup_iff.mp (nodup_live enc hne)
    have hmem := hperm.mem_iff (a := e)
    rw [h.live, List.mem_cons] at hmem
    simp only [update_none_eq_some]
    constructor
    · intro he
      obtain ⟨b, hb⟩ := hmem.mpr (.inr he)
      refine ⟨b, ?_, hb⟩
      rintro rfl
      obtain rfl := Option.some.inj (ha.symm.trans hb)
      exact (List.nodup_cons.mp hnodup).1 he
    · rintro ⟨b, hba, hb⟩
      rcases hmem.mp ⟨b, hb⟩ with rfl | he
      · exact absurd (h.unique hb ha) hba
      · exact he
  map k₁ v₁ := by
    simp only [update_none_eq_some]
    by_cases hk : k₁ = k
    · subst hk
      rw [Function.update_self]
      refine ⟨nofun, ?_⟩
      rintro ⟨b, o, hba, hb⟩
      exact absurd (h.unique hb ha) hba
    · rw [Function.update_of_ne hk, h.map]
      constructor
      · rintro ⟨b, o, hb⟩
        refine ⟨b, o, ?_, hb⟩
        rintro rfl
        rw [ha] at hb
        cases hb
        exact hk rfl
      · rintro ⟨b, o, -, hb⟩
        exact ⟨b, o, hb⟩
  unique hb hd := h.unique (update_none_eq_some.mp hb).2 (update_none_eq_some.mp hd).2

/-- A record of a key that was not there is appended for an address that was free. -/
theorem Index.append [DecidableEq κ] (h : Index enc alive log c st) (ha : c a = none) (hk : st k = none)
    (halive : alive (k, v) = true) :
    Index enc alive (log ++ [(k, v)]) (Function.update c a (some ((log.flatMap enc).length, k, v)))
      (Function.update st k (some v)) where
  live e := by
    rw [live_append_self enc halive, List.mem_append, List.mem_singleton, h.live]
    simp only [update_some_eq_some]
    constructor
    · rintro (⟨b, hb⟩ | rfl)
      · refine ⟨b, .inr ⟨?_, hb⟩⟩
        rintro rfl
        rw [ha] at hb
        cases hb
      · exact ⟨a, .inl ⟨rfl, rfl⟩⟩
    · rintro ⟨b, ⟨-, rfl⟩ | ⟨-, hb⟩⟩
      · exact .inr rfl
      · exact .inl ⟨b, hb⟩
  map k₁ v₁ := by
    simp only [update_some_eq_some]
    by_cases hk₁ : k₁ = k
    · subst hk₁
      rw [Function.update_self]
      constructor
      · rintro h'
        obtain rfl := Option.some.inj h'
        exact ⟨a, _, .inl ⟨rfl, rfl⟩⟩
      · rintro ⟨b, o, ⟨-, heq⟩ | ⟨-, hb⟩⟩
        · cases heq
          rfl
        · rw [(h.map k₁ v₁).mpr ⟨b, o, hb⟩] at hk
          cases hk
    · rw [Function.update_of_ne hk₁, h.map]
      constructor
      · rintro ⟨b, o, hb⟩
        refine ⟨b, o, .inr ⟨?_, hb⟩⟩
        rintro rfl
        rw [ha] at hb
        cases hb
      · rintro ⟨b, o, ⟨-, heq⟩ | ⟨-, hb⟩⟩
        · cases heq
          exact absurd rfl hk₁
        · exact ⟨b, o, hb⟩
  unique {b d o o' k₁ v₁ v₂} hb hd := by
    have hold : ∀ {b : ι} {o : Nat} {v : ν}, c b = some (o, k, v) → False := by
      intro b o v hb
      rw [(h.map k v).mpr ⟨b, o, hb⟩] at hk
      cases hk
    rcases update_some_eq_some.mp hb with ⟨hba, hnew⟩ | ⟨-, hb'⟩
    · rcases update_some_eq_some.mp hd with ⟨hda, -⟩ | ⟨-, hd'⟩
      · rw [hba, hda]
      · cases hnew
        exact (hold hd').elim
    · rcases update_some_eq_some.mp hd with ⟨-, hnew⟩ | ⟨-, hd'⟩
      · cases hnew
        exact (hold hb').elim
      · exact h.unique hb' hd'

end Index

end RecordLog
