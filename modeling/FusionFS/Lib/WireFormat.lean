import FusionFS.Lib.Protobuf

/-!
# The wire format at any size

Tags, lengths and numbers take as many bytes as they need, and nothing is cut. As far as a varint of
ten bytes and a length of 32 bits go, a message is written as before.
-/

namespace Protobuf.Unbounded

/-- A varint of as many bytes as it takes. -/
def encodeNat (n : Nat) : Bytes := putVarint (n + 1) n

def decodeNat : Bytes → Option (Nat × Bytes)
  | [] => none
  | b :: data =>
      if b.toNat < 128 then some (b.toNat, data)
      else (decodeNat data).map fun r => (b.toNat - 128 + 128 * r.1, r.2)

def encodeField (field : Nat × Value) : Bytes :=
  match field.2 with
  | .varint n => encodeNat (8 * field.1) ++ encodeNat n
  | .bytes payload => encodeNat (8 * field.1 + 2) ++ encodeNat payload.length ++ payload

def encode (fields : List (Nat × Value)) : Bytes := fields.flatMap encodeField

/-- The next field and what comes behind it. A zero tag, and a type that is not known, end the
message. -/
def decodeField (data : Bytes) : Option (Option (Nat × Value) × Bytes) := do
  let (tag, data) ← decodeNat data
  if tag = 0 then none
  else match tag % 8 with
    | 0 =>
        let (n, data) ← decodeNat data
        some (some (tag / 8, .varint n), data)
    | 1 =>
        let (_, data) ← splitBytes 8 data
        some (none, data)
    | 2 =>
        let (len, data) ← decodeNat data
        let (payload, data) ← splitBytes len data
        some (some (tag / 8, .bytes payload), data)
    | 5 =>
        let (_, data) ← splitBytes 4 data
        some (none, data)
    | _ => none

variable {σ : Type*}

def decodeFields (set : σ → Nat × Value → σ) : Nat → σ → Bytes → σ
  | 0, s, _ => s
  | fuel + 1, s, data =>
      match decodeField data with
      | none => s
      | some (none, data) => decodeFields set fuel s data
      | some (some field, data) => decodeFields set fuel (set s field) data

/-! ### Reading what was written -/

theorem decodeNat_of_getVarint {fuel : Nat} {data : Bytes} {r : Nat × Bytes}
    (h : getVarint fuel data = some r) : decodeNat data = some r := by
  induction fuel generalizing data r with
  | zero => cases h
  | succ fuel ih =>
      cases data with
      | nil => cases h
      | cons b data =>
          rw [getVarint] at h
          rw [decodeNat]
          split at h
          · next hlast => rw [if_pos hlast, h]
          · next hmore =>
            obtain ⟨r', hr', rfl⟩ := Option.map_eq_some_iff.mp h
            rw [if_neg hmore, ih hr', Option.map_some]

theorem lt_room (n : Nat) : n < 128 ^ (n + 1) := by
  calc n < 128 ^ n := Nat.lt_pow_self (by decide)
    _ ≤ 128 ^ (n + 1) := Nat.pow_le_pow_right (by decide) (Nat.le_succ n)

theorem decodeNat_encodeNat (n : Nat) (rest : Bytes) :
    decodeNat (encodeNat n ++ rest) = some (n, rest) :=
  decodeNat_of_getVarint (getVarint_putVarint (lt_room n) rest)

theorem decodeField_encodeField {field : Nat × Value} (hpos : 0 < field.1) (rest : Bytes) :
    decodeField (encodeField field ++ rest) = some (some field, rest) := by
  obtain ⟨num, v⟩ := field
  dsimp only at hpos
  cases v with
  | varint n =>
      have hne : 8 * num ≠ 0 := by omega
      have hmod : 8 * num % 8 = 0 := by omega
      have hdiv : 8 * num / 8 = num := by omega
      simp [decodeField, encodeField, decodeNat_encodeNat, hne, hmod, hdiv]
  | bytes payload =>
      have hmod : (8 * num + 2) % 8 = 2 := by omega
      have hdiv : (8 * num + 2) / 8 = num := by omega
      simp [decodeField, encodeField, decodeNat_encodeNat, hmod, hdiv, splitBytes_append]

theorem decodeField_end {tail : Bytes} (h : tail = [] ∨ tail.head? = some 0) :
    decodeField tail = none := by
  rcases h with rfl | h
  · rfl
  · obtain ⟨rest, rfl⟩ := List.head?_eq_some_iff.mp h
    simp [decodeField, decodeNat]

/-- A message of any size reads as its fields, in order. -/
theorem decodeFields_encode (set : σ → Nat × Value → σ) {fields : List (Nat × Value)}
    (hfields : ∀ field ∈ fields, 0 < field.1) {tail : Bytes} (htail : tail = [] ∨ tail.head? = some 0)
    {fuel : Nat} (hfuel : fields.length < fuel) (s : σ) :
    decodeFields set fuel s (encode fields ++ tail) = fields.foldl set s := by
  induction fields generalizing fuel s with
  | nil =>
      obtain ⟨fuel, rfl⟩ : ∃ k, fuel = k + 1 := ⟨fuel - 1, by simp at hfuel; omega⟩
      rw [encode, List.flatMap_nil, List.nil_append, decodeFields, decodeField_end htail]
      rfl
  | cons field fields ih =>
      obtain ⟨fuel, rfl⟩ : ∃ k, fuel = k + 1 := ⟨fuel - 1, by simp at hfuel; omega⟩
      have hget := decodeField_encodeField (hfields field List.mem_cons_self) (encode fields ++ tail)
      have hrest := ih (fun f hf => hfields f (List.mem_cons_of_mem _ hf))
        (show fields.length < fuel by simpa using hfuel) (set s field)
      rw [encode, List.flatMap_cons, List.append_assoc, decodeFields]
      rw [encode] at hget hrest
      simp only [hget, List.foldl_cons]
      exact hrest

theorem length_le_length_encode (fields : List (Nat × Value)) :
    fields.length ≤ (encode fields).length := by
  induction fields with
  | nil => exact Nat.zero_le _
  | cons field fields ih =>
      have hpos : 0 < (encodeField field).length := by
        obtain ⟨num, v⟩ := field
        rw [List.length_pos_iff]
        cases v <;> simp [encodeField, encodeNat, putVarint_ne_nil]
      rw [encode, List.flatMap_cons, List.length_append, List.length_cons]
      rw [encode] at ih
      omega

theorem zero_notMem_encode {fields : List (Nat × Value)}
    (h : ∀ field ∈ fields, 0 < field.1 ∧ match field.2 with
      | .varint n => 0 < n
      | .bytes payload => payload ≠ [] ∧ 0 ∉ payload) : 0 ∉ encode fields := by
  intro hmem
  obtain ⟨⟨num, v⟩, hin, hzero⟩ := List.mem_flatMap.mp hmem
  obtain ⟨hnum, hv⟩ := h _ hin
  dsimp only at hnum hv
  cases v with
  | varint n =>
      rcases List.mem_append.mp hzero with hzero | hzero
      · exact zero_notMem_putVarint (by omega) hzero
      · exact zero_notMem_putVarint hv hzero
  | bytes payload =>
      rcases List.mem_append.mp hzero with hzero | hzero
      · rcases List.mem_append.mp hzero with hzero | hzero
        · exact zero_notMem_putVarint (by omega) hzero
        · exact zero_notMem_putVarint (List.length_pos_iff.mpr hv.1) hzero
      · exact hv.2 hzero

/-! ### Within the limits -/

theorem putVarint_eq {fuel more n : Nat} (h : n < 128 ^ fuel) (h' : n < 128 ^ more) (hpos : 0 < fuel)
    (hpos' : 0 < more) : putVarint fuel n = putVarint more n := by
  induction fuel generalizing more n with
  | zero => cases hpos
  | succ fuel ih =>
      obtain ⟨more, rfl⟩ : ∃ k, more = k + 1 := ⟨more - 1, by omega⟩
      rw [putVarint, putVarint]
      by_cases hn : n < 128
      · rw [if_pos hn, if_pos hn]
      · have hroom : ∀ f, n < 128 ^ (f + 1) → n / 128 < 128 ^ f ∧ 0 < f := by
          intro f hf
          constructor
          · rw [Nat.div_lt_iff_lt_mul (by decide), ← Nat.pow_succ]
            exact hf
          · cases f with
            | zero => omega
            | succ f => exact Nat.succ_pos f
        obtain ⟨hdiv, hf⟩ := hroom fuel h
        obtain ⟨hdiv', hf'⟩ := hroom more h'
        rw [if_neg hn, if_neg hn, ih hdiv hdiv' hf hf']

theorem encodeNat_eq {n : Nat} (h : n < 128 ^ maxVarint) : encodeNat n = putVarint maxVarint n :=
  putVarint_eq (lt_room n) h (Nat.succ_pos n) (by decide)

theorem encodeField_eq {field : Nat × Value} (h : Fits field) : encodeField field = putField field := by
  obtain ⟨num, v⟩ := field
  obtain ⟨-, hnum, hv⟩ := h
  have hroom : 2 ^ 32 < 128 ^ maxVarint := by decide
  have hword : word = 2 ^ 32 := rfl
  dsimp only at hnum hv
  cases v with
  | varint n =>
      have htag : 8 * num < 128 ^ maxVarint := by omega
      simp only [encodeField, putField, encodeNat_eq htag, encodeNat_eq hv]
  | bytes payload =>
      have htag : 8 * num + 2 < 128 ^ maxVarint := by omega
      have hlen : payload.length < 128 ^ maxVarint := by omega
      simp only [encodeField, putField, encodeNat_eq htag, encodeNat_eq hlen]

/-- Nothing is gained by more room than a message needs. -/
theorem encode_eq {fields : List (Nat × Value)} (h : ∀ field ∈ fields, Fits field) :
    encode fields = putFields fields := by
  induction fields with
  | nil => rfl
  | cons field fields ih =>
      have hrest := ih fun f hf => h f (List.mem_cons_of_mem _ hf)
      rw [encode, putFields] at hrest ⊢
      rw [List.flatMap_cons, List.flatMap_cons, encodeField_eq (h field List.mem_cons_self), hrest]

end Protobuf.Unbounded
