import FusionFS.CString
import Mathlib.Logic.Function.Basic

/-!
# The metadata store

One store holds, for a file path, the address of the node that owns the file and, for a directory
key, the names in the directory. A lookup that fails leaves the caller's zeroed buffer as it is.
-/

namespace FusionFS

abbrev Zht := Bytes → Option Bytes

/-- The caller's buffer behind a `zht_lookup`. -/
def zhtValue (z : Zht) (key : Bytes) : Bytes := (z key).getD []

def zhtInsert (z : Zht) (key val : Bytes) : Zht := Function.update z key (some val)

def zhtRemove (z : Zht) (key : Bytes) : Zht := Function.update z key none

/-- `zht_update`, with the lookup at its end left out: it only logs. -/
def zhtUpdate (z : Zht) (key val : Bytes) : Zht := zhtInsert (zhtRemove z key) key val

def zhtAppend (z : Zht) (key val : Bytes) : Zht :=
  zhtUpdate z key (zhtValue z key ++ val ++ [space])

/-- `zht_delete`. When `strstr` returns `NULL` the function goes on with that pointer. -/
def zhtDelete (z : Zht) (key val : Bytes) : Option Zht := do
  let oldval := zhtValue z key
  let search := [space] ++ val ++ [space]
  let pch ← strstr oldval search
  some (zhtUpdate z key (oldval.take pch ++ [space] ++ oldval.drop (pch + search.length)))

/-- What `main` puts into the store. -/
def zhtInit : Zht := zhtInsert (fun _ => none) [slash] [space]

section

variable {z : Zht} {key k val : Bytes}

@[simp]
theorem zhtInsert_self : zhtInsert z key val key = some val := Function.update_self ..

@[simp]
theorem zhtInsert_of_ne (h : k ≠ key) : zhtInsert z key val k = z k := Function.update_of_ne h ..

@[simp]
theorem zhtRemove_self : zhtRemove z key key = none := Function.update_self ..

@[simp]
theorem zhtRemove_of_ne (h : k ≠ key) : zhtRemove z key k = z k := Function.update_of_ne h ..

theorem zhtUpdate_eq_insert : zhtUpdate z key val = zhtInsert z key val :=
  Function.update_idem ..

theorem zhtValue_of_eq (h : z key = some val) : zhtValue z key = val := by
  rw [zhtValue, h, Option.getD_some]

theorem zhtDelete_eq {ws : List Bytes} {w : Bytes} (hz : z key = some (Delimited.enc space ws))
    (hws : ∀ v ∈ ws, space ∉ v) (hw : w ∈ ws) :
    zhtDelete z key w = some (zhtInsert z key (Delimited.enc space (ws.erase w))) := by
  have hsearch : [space] ++ w ++ [space] = Delimited.bracket space w := by simp [Delimited.bracket]
  have hfound : Delimited.find (Delimited.bracket space w) (Delimited.enc space ws) ≠ none := by
    rw [Ne, Delimited.find_bracket_enc_eq_none (hws w hw) hws]
    exact not_not_intro hw
  obtain ⟨i, hi⟩ := Option.ne_none_iff_exists'.mp hfound
  rw [zhtDelete, zhtValue_of_eq hz]
  simp only [hsearch, strstr, hi, Option.bind_eq_bind, Option.bind_some, zhtUpdate_eq_insert,
    Delimited.splice_bracket_enc (hws w hw) hws hi]

theorem mem_of_zhtDelete {ws : List Bytes} {w : Bytes} {z' : Zht}
    (hz : z key = some (Delimited.enc space ws)) (hws : ∀ v ∈ ws, space ∉ v) (hw : space ∉ w)
    (h : zhtDelete z key w = some z') : w ∈ ws := by
  by_contra hout
  have hsearch : [space] ++ w ++ [space] = Delimited.bracket space w := by simp [Delimited.bracket]
  have hnone := (Delimited.find_bracket_enc_eq_none hw hws).mpr hout
  rw [zhtDelete, zhtValue_of_eq hz] at h
  simp only [hsearch, strstr, hnone, Option.bind_eq_bind, Option.bind_none] at h
  cases h

theorem zhtDelete_self {z' : Zht} {w : Bytes} (h : zhtDelete z key w = some z') :
    z key ≠ none ∧ z' key ≠ none := by
  unfold zhtDelete at h
  simp only [Option.bind_eq_bind, Option.bind_eq_some_iff, Option.some.injEq] at h
  obtain ⟨pch, hpch, rfl⟩ := h
  refine ⟨fun hnone => ?_, by simp [zhtUpdate_eq_insert]⟩
  have hlen := Delimited.find_add_length_le hpch
  simp [zhtValue, hnone] at hlen

theorem zhtDelete_of_ne {z' : Zht} {w : Bytes} (h : zhtDelete z key w = some z') (hk : k ≠ key) :
    z' k = z k := by
  unfold zhtDelete at h
  simp only [Option.bind_eq_bind, Option.bind_eq_some_iff, Option.some.injEq] at h
  obtain ⟨pch, -, rfl⟩ := h
  rw [zhtUpdate_eq_insert, zhtInsert_of_ne hk]

end

end FusionFS
