import Mathlib.Algebra.Order.Ring.Int
import Mathlib.Data.List.Basic

/-!
# The protobuf wire format

A message is a sequence of fields, each a tag (a number and a wire type) followed by a varint or by a
length and as many bytes. Reading ends with the input, at a zero tag and at a malformed field; what
was read up to there counts.
-/

namespace Protobuf

abbrev Bytes := List UInt8

/-- The bytes of the longest varint. -/
def maxVarint : Nat := 10

/-- Seven bits a byte, the lowest first, with the top bit set on all bytes but the last. -/
def putVarint : Nat → Nat → Bytes
  | 0, _ => []
  | fuel + 1, n =>
      if n < 128 then [UInt8.ofNat n] else UInt8.ofNat (n % 128 + 128) :: putVarint fuel (n / 128)

def getVarint : Nat → Bytes → Option (Nat × Bytes)
  | 0, _ => none
  | _ + 1, [] => none
  | fuel + 1, b :: data =>
      if b.toNat < 128 then some (b.toNat, data)
      else (getVarint fuel data).map fun r => (b.toNat - 128 + 128 * r.1, r.2)

/-- Numbers in tags, lengths and `int32` fields are cut to 32 bits. -/
def word : Nat := 2 ^ 32

inductive Value where
  | varint (n : Nat)
  | bytes (payload : Bytes)
  deriving DecidableEq

def putField (field : Nat × Value) : Bytes :=
  match field.2 with
  | .varint n => putVarint maxVarint (8 * field.1) ++ putVarint maxVarint n
  | .bytes payload => putVarint maxVarint (8 * field.1 + 2) ++
      putVarint maxVarint payload.length ++ payload

/-- A message with these fields in this order. -/
def putFields (fields : List (Nat × Value)) : Bytes := fields.flatMap putField

def splitBytes (n : Nat) (data : Bytes) : Option (Bytes × Bytes) :=
  if n ≤ data.length then some (data.take n, data.drop n) else none

/-- Skip the fields of a group up to its end. -/
def skipGroup : Nat → Nat → Bytes → Option Bytes
  | 0, _, _ => none
  | fuel + 1, num, data => do
      let (tag, data) ← getVarint maxVarint data
      let tag := tag % word
      match tag % 8 with
      | 0 => if tag = 0 then none else
          let (_, data) ← getVarint maxVarint data
          skipGroup fuel num data
      | 1 =>
          let (_, data) ← splitBytes 8 data
          skipGroup fuel num data
      | 2 =>
          let (len, data) ← getVarint maxVarint data
          let (_, data) ← splitBytes (len % word) data
          skipGroup fuel num data
      | 3 =>
          let data ← skipGroup fuel (tag / 8) data
          skipGroup fuel num data
      | 4 => if tag / 8 = num then some data else none
      | 5 =>
          let (_, data) ← splitBytes 4 data
          skipGroup fuel num data
      | _ => none

/-- The next field and what comes behind it. Fixed-width fields and groups are skipped. -/
def getField (data : Bytes) : Option (Option (Nat × Value) × Bytes) := do
  let (tag, data) ← getVarint maxVarint data
  let tag := tag % word
  if tag = 0 then none
  else match tag % 8 with
    | 0 =>
        let (n, data) ← getVarint maxVarint data
        some (some (tag / 8, .varint n), data)
    | 1 =>
        let (_, data) ← splitBytes 8 data
        some (none, data)
    | 2 =>
        let (len, data) ← getVarint maxVarint data
        let (payload, data) ← splitBytes (len % word) data
        some (some (tag / 8, .bytes payload), data)
    | 3 =>
        let data ← skipGroup data.length (tag / 8) data
        some (none, data)
    | 5 =>
        let (_, data) ← splitBytes 4 data
        some (none, data)
    | _ => none

variable {σ : Type*}

/-- Read a message field by field into a state. -/
def readFields (set : σ → Nat × Value → σ) : Nat → σ → Bytes → σ
  | 0, s, _ => s
  | fuel + 1, s, data =>
      match getField data with
      | none => s
      | some (none, data) => readFields set fuel s data
      | some (some field, data) => readFields set fuel (set s field) data

/-! ### Reading what was written -/

theorem toNat_ofNat_of_lt {n : Nat} (h : n < 256) : (UInt8.ofNat n).toNat = n := by
  rw [UInt8.toNat_ofNat', Nat.mod_eq_of_lt h]

theorem getVarint_putVarint {fuel n : Nat} (h : n < 128 ^ (fuel + 1)) (rest : Bytes) :
    getVarint (fuel + 1) (putVarint (fuel + 1) n ++ rest) = some (n, rest) := by
  induction fuel generalizing n with
  | zero =>
      have hn : n < 128 := by simpa using h
      rw [putVarint, if_pos hn, List.singleton_append, getVarint, toNat_ofNat_of_lt (by omega),
        if_pos hn]
  | succ fuel ih =>
      rw [putVarint]
      by_cases hn : n < 128
      · rw [if_pos hn, List.singleton_append, getVarint, toNat_ofNat_of_lt (by omega), if_pos hn]
      · have hdiv : n / 128 < 128 ^ (fuel + 1) := by
          rw [Nat.div_lt_iff_lt_mul (by decide), ← Nat.pow_succ]
          exact h
        rw [if_neg hn, List.cons_append, getVarint, toNat_ofNat_of_lt (by omega), if_neg (by omega),
          ih hdiv, Option.map_some]
        congr 2
        omega

theorem zero_notMem_putVarint {fuel n : Nat} (hn : 0 < n) : 0 ∉ putVarint fuel n := by
  have hbyte : ∀ m, 0 < m → m < 256 → (0 : UInt8) ≠ UInt8.ofNat m := by
    intro m hpos hlt heq
    have hnat := toNat_ofNat_of_lt hlt
    rw [← heq, UInt8.toNat_zero] at hnat
    omega
  induction fuel generalizing n with
  | zero => exact List.not_mem_nil
  | succ fuel ih =>
      rw [putVarint]
      by_cases hlt : n < 128
      · rw [if_pos hlt, List.mem_singleton]
        exact hbyte n hn (by omega)
      · rw [if_neg hlt, List.mem_cons, not_or]
        exact ⟨hbyte _ (by omega) (by omega), ih (by omega)⟩

/-- Numbers that the encoding has room for. -/
def Fits (field : Nat × Value) : Prop :=
  0 < field.1 ∧ field.1 < 2 ^ 29 ∧ match field.2 with
    | .varint n => n < 128 ^ maxVarint
    | .bytes payload => payload.length < word

theorem splitBytes_append (payload rest : Bytes) :
    splitBytes payload.length (payload ++ rest) = some (payload, rest) := by
  rw [splitBytes, if_pos (by simp), List.take_left, List.drop_left]

theorem getField_putField {field : Nat × Value} (h : Fits field) (rest : Bytes) :
    getField (putField field ++ rest) = some (some field, rest) := by
  obtain ⟨num, v⟩ := field
  obtain ⟨hpos, hnum, hv⟩ := h
  simp only at hpos hnum hv
  have hroom : 2 ^ 32 < 128 ^ maxVarint := by decide
  have hword : word = 2 ^ 32 := rfl
  cases v with
  | varint n =>
      have htag : 8 * num % word = 8 * num := Nat.mod_eq_of_lt (by omega)
      have hget : getVarint maxVarint (putVarint maxVarint (8 * num) ++
          (putVarint maxVarint n ++ rest)) = some (8 * num, putVarint maxVarint n ++ rest) :=
        getVarint_putVarint (show 8 * num < 128 ^ maxVarint by omega) _
      have hgetn : getVarint maxVarint (putVarint maxVarint n ++ rest) = some (n, rest) :=
        getVarint_putVarint hv _
      have hne : 8 * num ≠ 0 := by omega
      have hdiv : 8 * num / 8 = num := by omega
      have hmod : 8 * num % 8 = 0 := by omega
      simp [getField, putField, hget, hgetn, htag, hne, hdiv, hmod]
  | bytes payload =>
      have htag : (8 * num + 2) % word = 8 * num + 2 := Nat.mod_eq_of_lt (by omega)
      have hget : getVarint maxVarint (putVarint maxVarint (8 * num + 2) ++
          (putVarint maxVarint payload.length ++ (payload ++ rest)))
            = some (8 * num + 2, putVarint maxVarint payload.length ++ (payload ++ rest)) :=
        getVarint_putVarint (show 8 * num + 2 < 128 ^ maxVarint by omega) _
      have hgetn : getVarint maxVarint (putVarint maxVarint payload.length ++ (payload ++ rest))
          = some (payload.length, payload ++ rest) :=
        getVarint_putVarint (show payload.length < 128 ^ maxVarint by omega) _
      have hlen : payload.length % word = payload.length := Nat.mod_eq_of_lt hv
      have hdiv : (8 * num + 2) / 8 = num := by omega
      have hmod : (8 * num + 2) % 8 = 2 := by omega
      simp [getField, putField, hget, hgetn, htag, hlen, hdiv, hmod, splitBytes_append]

theorem getField_end {tail : Bytes} (h : tail = [] ∨ tail.head? = some 0) : getField tail = none := by
  rcases h with rfl | h
  · rfl
  · obtain ⟨rest, rfl⟩ := List.head?_eq_some_iff.mp h
    simp [getField, getVarint, maxVarint]

/-- A written message reads as its fields, in order. -/
theorem readFields_putFields (set : σ → Nat × Value → σ) {fields : List (Nat × Value)}
    (hfields : ∀ field ∈ fields, Fits field) {tail : Bytes} (htail : tail = [] ∨ tail.head? = some 0)
    {fuel : Nat} (hfuel : fields.length < fuel) (s : σ) :
    readFields set fuel s (putFields fields ++ tail) = fields.foldl set s := by
  induction fields generalizing fuel s with
  | nil =>
      obtain ⟨fuel, rfl⟩ : ∃ k, fuel = k + 1 := ⟨fuel - 1, by simp at hfuel; omega⟩
      rw [putFields, List.flatMap_nil, List.nil_append, readFields, getField_end htail]
      rfl
  | cons field fields ih =>
      obtain ⟨fuel, rfl⟩ : ∃ k, fuel = k + 1 := ⟨fuel - 1, by simp at hfuel; omega⟩
      have hget := getField_putField (hfields field List.mem_cons_self) (putFields fields ++ tail)
      have hrest := ih (fun f hf => hfields f (List.mem_cons_of_mem _ hf))
        (show fields.length < fuel by simpa using hfuel) (set s field)
      rw [putFields, List.flatMap_cons, List.append_assoc, readFields]
      rw [putFields] at hget hrest
      simp only [hget, List.foldl_cons]
      exact hrest

theorem length_putVarint_le {fuel n m : Nat} (h : n ≤ m) :
    (putVarint fuel n).length ≤ (putVarint fuel m).length := by
  induction fuel generalizing n m with
  | zero => exact Nat.le_refl _
  | succ fuel ih =>
      rw [putVarint, putVarint]
      by_cases hn : n < 128
      · rw [if_pos hn]
        split <;> simp
      · have hrest := ih (Nat.div_le_div_right (c := 128) h)
        rw [if_neg hn, if_neg (by omega), List.length_cons, List.length_cons]
        omega

theorem length_putField_bytes_le {num : Nat} {v v' : Bytes} (h : v.length ≤ v'.length) :
    (putField (num, .bytes v)).length ≤ (putField (num, .bytes v')).length := by
  have := @length_putVarint_le maxVarint _ _ h
  simp only [putField, List.length_append]
  omega

theorem putVarint_ne_nil (fuel n : Nat) : putVarint (fuel + 1) n ≠ [] := by
  rw [putVarint]
  split <;> simp

theorem length_putField_pos (field : Nat × Value) : 0 < (putField field).length := by
  obtain ⟨num, v⟩ := field
  rw [List.length_pos_iff]
  cases v <;> simp [putField, putVarint_ne_nil, maxVarint]

theorem length_le_length_putFields (fields : List (Nat × Value)) :
    fields.length ≤ (putFields fields).length := by
  induction fields with
  | nil => exact Nat.zero_le _
  | cons field fields ih =>
      have := length_putField_pos field
      rw [putFields, List.flatMap_cons, List.length_append, List.length_cons]
      rw [putFields] at ih
      omega

theorem length_le_of_mem {fields : List (Nat × Value)} {num : Nat} {payload : Bytes}
    (h : (num, .bytes payload) ∈ fields) : payload.length ≤ (putFields fields).length := by
  have hfield : List.Sublist (putField (num, .bytes payload)) (putFields fields) :=
    List.sublist_flatten_of_mem (List.mem_map_of_mem h)
  have := hfield.length_le
  rw [putField, List.length_append] at this
  omega

theorem zero_notMem_putFields {fields : List (Nat × Value)}
    (h : ∀ field ∈ fields, 0 < field.1 ∧ match field.2 with
      | .varint n => 0 < n
      | .bytes payload => payload ≠ [] ∧ 0 ∉ payload) : 0 ∉ putFields fields := by
  intro hmem
  rw [putFields, List.mem_flatMap] at hmem
  obtain ⟨⟨num, v⟩, hin, hzero⟩ := hmem
  obtain ⟨hnum, hv⟩ := h _ hin
  simp only at hnum hv
  cases v with
  | varint n =>
      rw [putField, List.mem_append] at hzero
      rcases hzero with hzero | hzero
      · exact zero_notMem_putVarint (by omega) hzero
      · exact zero_notMem_putVarint hv hzero
  | bytes payload =>
      rw [putField, List.mem_append, List.mem_append] at hzero
      rcases hzero with (hzero | hzero) | hzero
      · exact zero_notMem_putVarint (by omega) hzero
      · exact zero_notMem_putVarint (List.length_pos_iff.mpr hv.1) hzero
      · exact hv.2 hzero

end Protobuf
