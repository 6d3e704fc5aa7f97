import FusionFS.Zht
import FusionFS.Lib.Run
import Mathlib.Data.List.Nodup

/-!
# The namespace in the store

A directory is kept twice: as a key of its own, and as a name in its parent's value. Four operations
edit both. Here are the parts of them that read and write the store; what they do to the local disk
does not reach it.
-/

namespace FusionFS

open Transition

/-- `fusion_create` from the look at the parent directory on. -/
def createEntry (z : Zht) (path addr : Bytes) : Zht :=
  let dirname := dirOf path
  match z dirname with
  | none => z
  | some _ => zhtInsert (zhtAppend z dirname (baseOf path)) path addr

/-- `fusion_mkdir` from the ZHT update on. -/
def mkdirEntry (z : Zht) (path : Bytes) : Zht :=
  let parentpath := dirOf path
  let curpath := baseOf path ++ [slash]
  let fullpath := path ++ [slash]
  zhtAppend (zhtInsert z fullpath [space]) parentpath curpath

/-- `fusion_rmdir`: the check that the directory is empty, and the ZHT update. The number is what
the function returns. -/
def rmdirEntry (junk : Bytes) (z : Zht) (path : Bytes) : Option (Zht × Int) :=
  let dirname := path ++ [slash]
  match z dirname with
  | none => some (z, -1)
  | some val =>
      if (realIp junk val).2 = [space] then do
        let z ← zhtDelete z (dirOf path) (baseOf path ++ [slash])
        some (zhtRemove z dirname, 0)
      else some (z, -1)

/-- `fusion_unlink`: the check that the file exists, and the ZHT update. -/
def unlinkEntry (z : Zht) (path : Bytes) : Option (Zht × Int) :=
  match z path with
  | none => some (z, -1)
  | some _ => do
      let z ← zhtDelete z (dirOf path) (baseOf path)
      some (zhtRemove z path, 0)

/-! ### Names -/

/-- A name of a directory entry: no separator of paths or of listings in it. -/
def IsName (name : Bytes) : Prop := name ≠ [] ∧ slash ∉ name ∧ space ∉ name

instance (name : Bytes) : Decidable (IsName name) := inferInstanceAs (Decidable (_ ∧ _))

/-- What a listing holds for an entry: the name, and a slash behind it for a directory. -/
def IsToken (w : Bytes) : Prop := ∃ name, IsName name ∧ (w = name ∨ w = name ++ [slash])

namespace IsToken

variable {w : Bytes}

theorem ne_nil (h : IsToken w) : w ≠ [] := by
  obtain ⟨name, hname, rfl | rfl⟩ := h
  · exact hname.1
  · simp

theorem space_notMem (h : IsToken w) : space ∉ w := by
  obtain ⟨name, hname, rfl | rfl⟩ := h
  · exact hname.2.2
  · rw [List.mem_append, not_or]
    exact ⟨hname.2.2, by decide⟩

theorem isWord (h : IsToken w) : Delimited.IsWord space w := ⟨h.ne_nil, h.space_notMem⟩

theorem exists_cons (h : IsToken w) : ∃ c rest, w = c :: rest ∧ c ≠ slash := by
  obtain ⟨name, hname, hw⟩ := h
  cases name with
  | nil => exact absurd rfl hname.1
  | cons c rest =>
      have hc : c ≠ slash := fun heq => hname.2.1 (heq ▸ List.mem_cons_self)
      rcases hw with rfl | rfl
      · exact ⟨c, rest, rfl, hc⟩
      · exact ⟨c, rest ++ [slash], rfl, hc⟩

theorem append_ne_slash (h : IsToken w) {dir : Bytes} (hdir : dir.getLast? = some slash) :
    dir ++ w ≠ [slash] := by
  intro heq
  have hlen := congrArg List.length heq
  have hw : w.length ≠ 0 := fun h0 => h.ne_nil (List.length_eq_zero_iff.mp h0)
  have hd : dir.length ≠ 0 := by
    intro h0
    rw [List.length_eq_zero_iff.mp h0] at hdir
    cases hdir
  rw [List.length_append, List.length_singleton] at hlen
  omega

/-- A key is a directory key and a token behind it in one way only. -/
theorem split_unique {w' dir dir' : Bytes} (hw : IsToken w) (hw' : IsToken w')
    (hdir : dir.getLast? = some slash) (hdir' : dir'.getLast? = some slash)
    (heq : dir ++ w = dir' ++ w') : dir = dir' ∧ w = w' := by
  have hsplit : dir = dir' := by
    obtain ⟨name, hname, hform⟩ := hw
    obtain ⟨name', hname', hform'⟩ := hw'
    have hstrip : dir ++ name = dir' ++ name' := by
      have hend : ∀ {d n : Bytes}, IsName n → (d ++ n).getLast? ≠ some slash := by
        intro d n hn hlast
        rw [List.getLast?_append_of_ne_nil _ hn.1] at hlast
        exact hn.2.1 (List.mem_of_getLast? hlast)
      rcases hform with rfl | rfl <;> rcases hform' with rfl | rfl
      · exact heq
      · refine absurd ?_ (hend hname (d := dir))
        rw [heq, ← List.append_assoc, List.getLast?_concat]
      · refine absurd ?_ (hend hname' (d := dir'))
        rw [← heq, ← List.append_assoc, List.getLast?_concat]
      · rw [← List.append_assoc, ← List.append_assoc] at heq
        exact (List.append_inj_left' heq rfl)
    rw [← dirOf_append_of_notMem hdir hname.2.1, hstrip, dirOf_append_of_notMem hdir' hname'.2.1]
  subst hsplit
  exact ⟨rfl, List.append_cancel_left heq⟩

end IsToken

theorem strtok_enc {ws : List Bytes} (hws : ∀ w ∈ ws, IsToken w) :
    strtok (Delimited.enc space ws) = ws :=
  Delimited.words_enc fun w hw => (hws w hw).isWord

/-! ### The invariant -/

/-- The names a directory's value lists. -/
def listed (z : Zht) (dir : Bytes) : List Bytes := strtok (zhtValue z dir)

theorem listed_of_eq {z : Zht} {dir : Bytes} {ws : List Bytes} (hws : ∀ w ∈ ws, IsToken w)
    (hz : z dir = some (Delimited.enc space ws)) : listed z dir = ws := by
  rw [listed, zhtValue_of_eq hz, strtok_enc hws]

theorem listed_congr {z z' : Zht} {dir : Bytes} (h : z dir = z' dir) :
    listed z dir = listed z' dir := by
  rw [listed, listed, zhtValue, zhtValue, h]

theorem listed_of_none {z : Zht} {dir : Bytes} (h : z dir = none) : listed z dir = [] := by
  rw [listed, zhtValue, h]
  rfl

/-- Listings and keys agree: a directory's value lists tokens, each with a key of its own, and every
key but the root's is listed by its parent. -/
structure Tree (z : Zht) : Prop where
  root : (z [slash]).isSome
  listing : ∀ dir, dir.getLast? = some slash → (z dir).isSome →
    z dir = some (Delimited.enc space (listed z dir)) ∧ (listed z dir).Nodup ∧
      ∀ w ∈ listed z dir, IsToken w ∧ (z (dir ++ w)).isSome
  parent : ∀ key, key ≠ [slash] → (z key).isSome →
    ∃ dir w, key = dir ++ w ∧ dir.getLast? = some slash ∧ IsToken w ∧ w ∈ listed z dir

theorem Tree.init : Tree zhtInit where
  root := by simp [zhtInit]
  listing := by
    intro dir _ hsome
    by_cases hdir : dir = [slash]
    · subst hdir
      have hz : zhtInit [slash] = some (Delimited.enc space []) := zhtInsert_self
      rw [listed_of_eq (by simp) hz]
      exact ⟨hz, List.nodup_nil, by simp⟩
    · rw [zhtInit, zhtInsert_of_ne hdir] at hsome
      cases hsome
  parent := by
    intro key hkey hsome
    rw [zhtInit, zhtInsert_of_ne hkey] at hsome
    cases hsome

namespace Tree

variable {z : Zht} {dir w : Bytes}

theorem token (h : Tree z) (hdir : dir.getLast? = some slash) (hw : w ∈ listed z dir) :
    IsToken w ∧ (z dir).isSome ∧ (z (dir ++ w)).isSome := by
  cases hz : z dir with
  | none =>
      rw [listed_of_none hz] at hw
      cases hw
  | some val =>
      obtain ⟨-, -, hmem⟩ := h.listing dir hdir (by rw [hz]; rfl)
      exact ⟨(hmem w hw).1, rfl, (hmem w hw).2⟩

/-- Changing the listing of one directory and the key of one entry of it. -/
theorem relist (h : Tree z) (ws : List Bytes) {z' : Zht} (hdir : dir.getLast? = some slash)
    (hz : (z dir).isSome) (hw : IsToken w) (hws : ∀ u ∈ ws, IsToken u) (hnodup : ws.Nodup)
    (hlist : z' dir = some (Delimited.enc space ws))
    (hother : ∀ k, k ≠ dir ++ w → k ≠ dir → z' k = z k)
    (hkey : (z' (dir ++ w)).isSome ↔ w ∈ ws)
    (hkept : ∀ u, u ≠ w → (u ∈ ws ↔ u ∈ listed z dir))
    (hempty : (dir ++ w).getLast? = some slash → (z' (dir ++ w)).isSome →
      z' (dir ++ w) = some [space])
    (hleft : (dir ++ w).getLast? = some slash → listed z (dir ++ w) = []) : Tree z' := by
  have hne : ∀ u, IsToken u → dir ≠ dir ++ u := fun u hu heq =>
    hu.ne_nil (List.append_right_eq_self.mp heq.symm)
  have hlisted : listed z' dir = ws := listed_of_eq hws hlist
  -- an entry of any directory other than the one changed still has its key
  have hentry : ∀ d u, d.getLast? = some slash → IsToken u → d ≠ dir → (z (d ++ u)).isSome →
      (z' (d ++ u)).isSome := by
    intro d u hd hu hdd hsome
    by_cases hkd : d ++ u = dir
    · rw [hkd, hlist]
      rfl
    · have hkw : d ++ u ≠ dir ++ w := fun heq => hdd (hu.split_unique hw hd hdir heq).1
      rwa [hother _ hkw hkd]
  refine ⟨?_, ?_, ?_⟩
  · by_cases hroot : [slash] = dir
    · rw [hroot, hlist]
      rfl
    · rw [hother _ (hw.append_ne_slash hdir).symm hroot]
      exact h.root
  · intro d hd hsome
    by_cases hkw : d = dir ++ w
    · have hval := hempty (hkw ▸ hd) (hkw ▸ hsome)
      rw [← hkw] at hval
      have hnil : listed z' d = [] := listed_of_eq (by simp) hval
      rw [hnil]
      exact ⟨hval, List.nodup_nil, by simp⟩
    · by_cases hkd : d = dir
      · subst hkd
        rw [hlisted]
        refine ⟨hlist, hnodup, fun u hu => ⟨hws u hu, ?_⟩⟩
        by_cases huw : u = w
        · subst huw
          exact hkey.mpr hu
        · have hkeep : d ++ u ≠ d ++ w := fun heq => huw (List.append_cancel_left heq)
          rw [hother _ hkeep (hne u (hws u hu)).symm]
          exact (h.token hd ((hkept u huw).mp hu)).2.2
      · have hsame := hother d hkw hkd
        rw [hsame] at hsome
        obtain ⟨hval, hnd, hmem⟩ := h.listing d hd hsome
        rw [listed_congr hsame, hsame]
        exact ⟨hval, hnd, fun u hu => ⟨(hmem u hu).1, hentry d u hd (hmem u hu).1 hkd (hmem u hu).2⟩⟩
  · intro k hk hsome
    by_cases hkw : k = dir ++ w
    · exact ⟨dir, w, hkw, hdir, hw, hlisted ▸ hkey.mp (hkw ▸ hsome)⟩
    · have hold : (z k).isSome := by
        by_cases hkd : k = dir
        · exact hkd ▸ hz
        · rwa [hother k hkw hkd] at hsome
      obtain ⟨d, u, rfl, hd, hu, hmem⟩ := h.parent k hk hold
      refine ⟨d, u, rfl, hd, hu, ?_⟩
      by_cases hdd : d = dir
      · subst hdd
        have huw : u ≠ w := fun heq => hkw (by rw [heq])
        rw [hlisted]
        exact (hkept u huw).mpr hmem
      · have hdw : d ≠ dir ++ w := by
          intro heq
          rw [heq, hleft (heq ▸ hd)] at hmem
          cases hmem
        rwa [listed_congr (hother d hdw hdd)]

theorem attach (h : Tree z) (hdir : dir.getLast? = some slash) (hz : (z dir).isSome) (hw : IsToken w)
    (hnew : z (dir ++ w) = none) (val : Bytes)
    (hval : (dir ++ w).getLast? = some slash → val = [space]) :
    Tree (zhtInsert (zhtAppend z dir w) (dir ++ w) val) := by
  obtain ⟨hlist, hnodup, hmem⟩ := h.listing dir hdir hz
  have hne : dir ≠ dir ++ w := fun heq => hw.ne_nil (List.append_right_eq_self.mp heq.symm)
  have hout : w ∉ listed z dir := by
    intro hin
    have := (hmem w hin).2
    rw [hnew] at this
    cases this
  have happend : zhtAppend z dir w
      = zhtInsert z dir (Delimited.enc space (listed z dir ++ [w])) := by
    rw [zhtAppend, zhtUpdate_eq_insert, zhtValue_of_eq hlist, Delimited.enc_append_singleton]
  rw [happend]
  refine h.relist (listed z dir ++ [w]) hdir hz hw ?_ ?_ ?_ ?_ ?_ ?_ ?_ ?_
  · intro u hu
    rcases List.mem_append.mp hu with hu | hu
    · exact (hmem u hu).1
    · rwa [List.mem_singleton.mp hu]
  · rw [List.nodup_append]
    refine ⟨hnodup, by simp, fun a ha b hb hab => hout ?_⟩
    rwa [← List.mem_singleton.mp hb, ← hab]
  · rw [zhtInsert_of_ne hne, zhtInsert_self]
  · intro k hk hkd
    rw [zhtInsert_of_ne hk, zhtInsert_of_ne hkd]
  · simp
  · intro u hu
    simp [hu]
  · intro hslash _
    rw [zhtInsert_self, hval hslash]
  · exact fun _ => listed_of_none hnew

theorem zhtDelete_listed (h : Tree z) (hdir : dir.getLast? = some slash) (hin : w ∈ listed z dir) :
    zhtDelete z dir w = some (zhtInsert z dir (Delimited.enc space ((listed z dir).erase w))) := by
  obtain ⟨hlist, -, hmem⟩ := h.listing dir hdir (h.token hdir hin).2.1
  exact zhtDelete_eq hlist (fun u hu => (hmem u hu).1.space_notMem) hin

theorem detach (h : Tree z) (hdir : dir.getLast? = some slash) (hin : w ∈ listed z dir)
    (hempty : (dir ++ w).getLast? = some slash → z (dir ++ w) = some [space]) :
    ∃ z', zhtDelete z dir w = some z' ∧ Tree (zhtRemove z' (dir ++ w)) := by
  obtain ⟨hw, hz, -⟩ := h.token hdir hin
  obtain ⟨hlist, hnodup, hmem⟩ := h.listing dir hdir hz
  have hne : dir ≠ dir ++ w := fun heq => hw.ne_nil (List.append_right_eq_self.mp heq.symm)
  refine ⟨_, h.zhtDelete_listed hdir hin, ?_⟩
  refine h.relist ((listed z dir).erase w) hdir hz hw ?_ ?_ ?_ ?_ ?_ ?_ ?_ ?_
  · exact fun u hu => (hmem u (List.mem_of_mem_erase hu)).1
  · exact hnodup.erase w
  · rw [zhtRemove_of_ne hne, zhtInsert_self]
  · intro k hk hkd
    rw [zhtRemove_of_ne hk, zhtInsert_of_ne hkd]
  · rw [zhtRemove_self]
    simp [hnodup.not_mem_erase]
  · exact fun u hu => List.mem_erase_of_ne hu
  · intro _ hsome
    rw [zhtRemove_self] at hsome
    cases hsome
  · intro hslash
    have hval : z (dir ++ w) = some (Delimited.enc space []) := hempty hslash
    exact listed_of_eq (by simp) hval

theorem nothing_below (h : Tree z) (hdir : dir.getLast? = some slash) (hnil : listed z dir = [])
    {key : Bytes} (hsome : (z key).isSome) (hpre : dir <+: key) : key = dir := by
  induction hlen : key.length using Nat.strong_induction_on generalizing key with
  | _ n ih =>
  subst hlen
  by_contra hne
  have hroot : key ≠ [slash] := by
    rintro rfl
    obtain ⟨init, rfl⟩ := List.getLast?_eq_some_iff.mp hdir
    have hle := hpre.length_le
    rw [List.length_append, List.length_singleton] at hle
    have hinit : init = [] := List.length_eq_zero_iff.mp (by omega)
    exact hne (by rw [hinit, List.nil_append])
  obtain ⟨d, u, rfl, hd, hu, hmem⟩ := h.parent key hroot hsome
  have hunil : u.length ≠ 0 := fun h0 => hu.ne_nil (List.length_eq_zero_iff.mp h0)
  rcases List.prefix_or_prefix_of_prefix hpre (List.prefix_append d u) with hle | ⟨t, rfl⟩
  · -- the parent is the directory itself or lies below it
    have hup := ih d.length (by rw [List.length_append]; omega) (h.token hd hmem).2.1 hle rfl
    rw [hup, hnil] at hmem
    cases hmem
  · -- the directory would end inside the last component
    obtain ⟨rest, hrest⟩ := hpre
    rw [List.append_assoc, List.append_cancel_left_eq] at hrest
    obtain ⟨name, hname, hform⟩ := hu
    cases ht : t.getLast? with
    | none =>
        rw [List.getLast?_eq_none_iff] at ht
        subst ht
        rw [List.append_nil] at hnil
        rw [hnil] at hmem
        cases hmem
    | some c =>
        obtain ⟨init, rfl⟩ := List.getLast?_eq_some_iff.mp ht
        rw [← List.append_assoc, List.getLast?_concat, Option.some.injEq] at hdir
        subst hdir
        rcases hform with rfl | rfl
        · exact hname.2.1 (by rw [← hrest]; simp)
        · cases hr : rest.getLast? with
          | none =>
              rw [List.getLast?_eq_none_iff] at hr
              subst hr
              exact hne (by rw [← hrest, List.append_nil])
          | some c' =>
              obtain ⟨init', rfl⟩ := List.getLast?_eq_some_iff.mp hr
              rw [← List.append_assoc] at hrest
              have := List.append_inj_left' hrest rfl
              exact hname.2.1 (by rw [← this]; simp)

theorem head?_key (h : Tree z) {key : Bytes} (hsome : (z key).isSome) : key.head? = some slash := by
  induction hlen : key.length using Nat.strong_induction_on generalizing key with
  | _ n ih =>
  subst hlen
  by_cases hroot : key = [slash]
  · rw [hroot]
    rfl
  · obtain ⟨d, u, rfl, hd, hu, hmem⟩ := h.parent key hroot hsome
    have hunil : u.length ≠ 0 := fun h0 => hu.ne_nil (List.length_eq_zero_iff.mp h0)
    have hup := ih d.length (by rw [List.length_append]; omega) (h.token hd hmem).2.1 rfl
    rw [List.head?_append, hup]
    rfl

theorem key_form (h : Tree z) {key : Bytes} (hsome : (z key).isSome) :
    key = [slash] ∨ ∃ p : FilePath, key = p.bytes ∨ key = p.bytes ++ [slash] := by
  by_cases hroot : key = [slash]
  · exact Or.inl hroot
  · obtain ⟨d, u, rfl, hd, ⟨name, hname, hform⟩, hmem⟩ := h.parent key hroot hsome
    have hhead : (d ++ name).head? = some slash := by
      have := h.head?_key (h.token hd hmem).2.1
      rw [List.head?_append, this]
      rfl
    have hleaf : (d ++ name).getLast? ≠ some slash := by
      rw [List.getLast?_append_of_ne_nil _ hname.1]
      exact fun hlast => hname.2.1 (List.mem_of_getLast? hlast)
    refine Or.inr ⟨⟨d ++ name, hhead, hleaf⟩, ?_⟩
    rcases hform with rfl | rfl
    · exact Or.inl rfl
    · exact Or.inr (List.append_assoc ..).symm

/-- The entry of a file path is listed under the path's own parent and name. -/
theorem parent_file (h : Tree z) (p : FilePath) (hsome : (z p.bytes).isSome) :
    p.fname ∈ listed z p.dirname ∧ IsToken p.fname := by
  have hroot : p.bytes ≠ [slash] := p.ne_of_getLast?_slash rfl
  obtain ⟨d, u, heq, hd, hu, hmem⟩ := h.parent p.bytes hroot hsome
  have hslash : slash ∉ u := by
    obtain ⟨name, hname, rfl | rfl⟩ := hu
    · exact hname.2.1
    · refine absurd ?_ p.leaf
      rw [heq, ← List.append_assoc, List.getLast?_concat]
  rw [FilePath.fname, FilePath.dirname, heq, dirOf_append_of_notMem hd hslash,
    baseOf_append_of_notMem hd hslash]
  exact ⟨hmem, hu⟩

/-- The entry of a directory is listed with a slash behind its name. -/
theorem parent_dir (h : Tree z) (p : FilePath) (hsome : (z (p.bytes ++ [slash])).isSome) :
    p.fname ++ [slash] ∈ listed z p.dirname ∧ IsToken (p.fname ++ [slash]) := by
  have hne : p.bytes ≠ [] := by
    intro hnil
    have := p.absolute
    rw [hnil] at this
    cases this
  have hroot : p.bytes ++ [slash] ≠ [slash] := fun heq => hne (List.append_left_eq_self.mp heq)
  obtain ⟨d, u, heq, hd, hu, hmem⟩ := h.parent _ hroot hsome
  obtain ⟨name, hname, hform⟩ := id hu
  rcases hform with rfl | rfl
  · have hlast : (d ++ u).getLast? = some slash := by rw [← heq, List.getLast?_concat]
    rw [List.getLast?_append_of_ne_nil _ hname.1] at hlast
    exact absurd (List.mem_of_getLast? hlast) hname.2.1
  · rw [← List.append_assoc] at heq
    have hpath := List.append_inj_left' heq rfl
    rw [FilePath.fname, FilePath.dirname, hpath, dirOf_append_of_notMem hd hname.2.1,
      baseOf_append_of_notMem hd hname.2.1]
    exact ⟨hmem, hu⟩

end Tree

/-! ### Runs -/

/-- An operation on the namespace. `create` carries the address of the node that issues it, `rmdir`
what `real_ip` finds in its buffer. -/
inductive NsOp where
  | create (path : FilePath) (addr : Bytes)
  | mkdir (path : FilePath)
  | unlink (path : FilePath)
  | rmdir (path : FilePath) (junk : Bytes)

def nsStep (z : Zht) : NsOp → Option Zht
  | .create path addr => some (createEntry z path.bytes addr)
  | .mkdir path => some (mkdirEntry z path.bytes)
  | .unlink path => (unlinkEntry z path.bytes).map Prod.fst
  | .rmdir path junk => (rmdirEntry junk z path.bytes).map Prod.fst

/-- New entries are absent, have a parent, and have no space in their names. -/
def NsLegal (z : Zht) : NsOp → Prop
  | .create path _ => space ∉ path.fname ∧ (z path.bytes).isNone ∧ (z path.dirname).isSome
  | .mkdir path => space ∉ path.fname ∧ (z (path.bytes ++ [slash])).isNone ∧ (z path.dirname).isSome
  | .unlink _ => True
  | .rmdir _ _ => True

instance (z : Zht) (op : NsOp) : Decidable (NsLegal z op) :=
  match op with
  | .create .. => inferInstanceAs (Decidable (_ ∧ _))
  | .mkdir _ => inferInstanceAs (Decidable (_ ∧ _))
  | .unlink _ => .isTrue trivial
  | .rmdir .. => .isTrue trivial

theorem isName_fname {p : FilePath} (h : space ∉ p.fname) : IsName p.fname :=
  ⟨p.fname_ne_nil, p.slash_notMem_fname, h⟩

theorem createEntry_eq {z : Zht} {addr : Bytes} (p : FilePath) (h : (z p.dirname).isSome) :
    createEntry z p.bytes addr = zhtInsert (zhtAppend z p.dirname p.fname) p.bytes addr := by
  obtain ⟨val, hval⟩ := Option.isSome_iff_exists.mp h
  rw [FilePath.dirname] at hval
  simp only [createEntry, hval]
  rfl

/-- The new directory's own key may as well come last. -/
theorem mkdirEntry_eq {z : Zht} (p : FilePath) : mkdirEntry z p.bytes
    = zhtInsert (zhtAppend z p.dirname (p.fname ++ [slash])) (p.bytes ++ [slash]) [space] := by
  have hne := p.dirname_ne_append_slash
  have hvalue : zhtValue (zhtInsert z (p.bytes ++ [slash]) [space]) p.dirname
      = zhtValue z p.dirname := by rw [zhtValue, zhtInsert_of_ne hne, zhtValue]
  change zhtAppend _ p.dirname (p.fname ++ [slash]) = _
  rw [zhtAppend, zhtAppend, zhtUpdate_eq_insert, zhtUpdate_eq_insert, hvalue]
  exact Function.update_comm hne.symm _ _ _

/-- The value of a directory that is not empty is not cut down to a single space. -/
theorem realIp_listing {junk : Bytes} {ws : List Bytes} (hws : ∀ w ∈ ws, IsToken w)
    (h : (realIp junk (Delimited.enc space ws)).2 = [space]) : ws = [] := by
  cases ws with
  | nil => rfl
  | cons w ws =>
      obtain ⟨c, rest, rfl, hc⟩ := (hws w List.mem_cons_self).exists_cons
      rw [realIp] at h
      split at h
      · have hcut : (Delimited.enc space ((c :: rest) :: ws)).takeWhile (· != slash)
            = space :: c :: (rest ++ Delimited.enc space ws).takeWhile (· != slash) := by
          rw [Delimited.enc_cons, List.takeWhile_cons_of_pos (by decide), List.cons_append,
            List.takeWhile_cons_of_pos (by rwa [bne_iff_ne])]
        rw [hcut] at h
        simp at h
      · rw [Delimited.enc_cons] at h
        simp at h

/-- One operation keeps the tree, and the name it deletes is found. -/
theorem Tree.step {z : Zht} (h : Tree z) {op : NsOp} (hop : NsLegal z op) :
    ∃ z', nsStep z op = some z' ∧ Tree z' := by
  cases op with
  | create path addr =>
      obtain ⟨hspace, hnew, hparent⟩ := hop
      refine ⟨_, rfl, ?_⟩
      rw [createEntry_eq path hparent]
      have hkey : path.dirname ++ path.fname = path.bytes := path.dirname_append_fname
      rw [Option.isNone_iff_eq_none, ← hkey] at hnew
      have htree := h.attach path.getLast?_dirname hparent
        ⟨path.fname, isName_fname hspace, Or.inl rfl⟩ hnew addr
        fun hslash => absurd (hkey ▸ hslash) path.leaf
      rwa [hkey] at htree
  | mkdir path =>
      obtain ⟨hspace, hnew, hparent⟩ := hop
      refine ⟨_, rfl, ?_⟩
      have hkey : path.dirname ++ (path.fname ++ [slash]) = path.bytes ++ [slash] := by
        rw [← List.append_assoc, path.dirname_append_fname]
      rw [Option.isNone_iff_eq_none, ← hkey] at hnew
      have htree := h.attach path.getLast?_dirname hparent
        ⟨path.fname, isName_fname hspace, Or.inr rfl⟩ hnew [space] fun _ => rfl
      rwa [hkey, ← mkdirEntry_eq] at htree
  | unlink path =>
      cases hz : z path.bytes with
      | none => exact ⟨z, by simp [nsStep, unlinkEntry, hz], h⟩
      | some val =>
          obtain ⟨hin, -⟩ := h.parent_file path (by rw [hz]; rfl)
          obtain ⟨z', hz', htree⟩ := h.detach path.getLast?_dirname hin
            fun hslash => absurd (path.dirname_append_fname ▸ hslash) path.leaf
          rw [path.dirname_append_fname] at htree
          rw [FilePath.dirname, FilePath.fname] at hz'
          exact ⟨_, by simp [nsStep, unlinkEntry, hz, hz'], htree⟩
  | rmdir path junk =>
      cases hz : z (path.bytes ++ [slash]) with
      | none => exact ⟨z, by simp [nsStep, rmdirEntry, hz], h⟩
      | some val =>
          by_cases hempty : (realIp junk val).2 = [space]
          · obtain ⟨hin, -⟩ := h.parent_dir path (by rw [hz]; rfl)
            have hslash : (path.bytes ++ [slash]).getLast? = some slash := List.getLast?_concat
            obtain ⟨hval, -, hmem⟩ := h.listing _ hslash (by rw [hz]; rfl)
            rw [hz, Option.some.injEq] at hval
            rw [hval] at hempty
            have hnil := realIp_listing (fun w hw => (hmem w hw).1) hempty
            rw [hnil, Delimited.enc_nil] at hval
            obtain ⟨z', hz', htree⟩ := h.detach path.getLast?_dirname hin
              fun _ => by rw [← List.append_assoc, path.dirname_append_fname, hz, hval]
            rw [← List.append_assoc, path.dirname_append_fname] at htree
            rw [FilePath.dirname, FilePath.fname] at hz'
            refine ⟨_, ?_, htree⟩
            rw [hval] at hz
            have hcut : (realIp junk [space]).2 = [space] := rfl
            simp [nsStep, rmdirEntry, hz, hcut, hz']
          · exact ⟨z, by simp [nsStep, rmdirEntry, hz, hempty], h⟩

theorem Tree.run {z : Zht} (h : Tree z) {ops : List NsOp} (hops : Guarded nsStep NsLegal z ops) :
    ∃ z', Transition.run nsStep z ops = some z' ∧ Tree z' := by
  induction ops generalizing z with
  | nil => exact ⟨z, rfl, h⟩
  | cons op ops ih =>
      obtain ⟨z₁, hstep, htree⟩ := h.step hops.1
      obtain ⟨z', hrun, htree'⟩ := ih htree (hops.tail hstep)
      exact ⟨z', by rw [run_cons, hstep, Option.bind_some, hrun], htree'⟩

/-- Keys and listings of the store, read as `strtok` reads them. -/
structure NamespaceInvariant (z : Zht) : Prop where
  keys : ∀ key, (z key).isSome →
    key = [slash] ∨ ∃ p : FilePath, key = p.bytes ∨ key = p.bytes ++ [slash]
  file : ∀ p : FilePath, (z p.bytes).isSome ↔ p.fname ∈ strtok (zhtValue z p.dirname)
  dir : ∀ p : FilePath,
    (z (p.bytes ++ [slash])).isSome ↔ p.fname ++ [slash] ∈ strtok (zhtValue z p.dirname)
  once : ∀ key w, key.getLast? = some slash → w ∈ strtok (zhtValue z key) →
    (strtok (zhtValue z key)).count w = 1
  value : ∀ key, key.getLast? = some slash → (z key).isSome →
    zhtValue z key = space :: (strtok (zhtValue z key)).flatMap (fun w => w ++ [space]) ∧
      ∀ w ∈ strtok (zhtValue z key), w ≠ [] ∧ space ∉ w
  rmdir : ∀ junk (p : FilePath) z', rmdirEntry junk z p.bytes = some (z', 0) →
    ∀ key, (z key).isSome → p.bytes ++ [slash] <+: key → key = p.bytes ++ [slash]

theorem Tree.namespaceInvariant {z : Zht} (h : Tree z) : NamespaceInvariant z where
  keys := fun _ => h.key_form
  file := by
    intro p
    refine ⟨fun hsome => (h.parent_file p hsome).1, fun hin => ?_⟩
    have hkey := (h.token p.getLast?_dirname hin).2.2
    rwa [p.dirname_append_fname] at hkey
  dir := by
    intro p
    refine ⟨fun hsome => (h.parent_dir p hsome).1, fun hin => ?_⟩
    have hkey := (h.token p.getLast?_dirname hin).2.2
    rwa [← List.append_assoc, p.dirname_append_fname] at hkey
  once := by
    intro key w hkey hin
    exact List.count_eq_one_of_mem (h.listing key hkey (h.token hkey hin).2.1).2.1 hin
  value := by
    intro key hkey hsome
    obtain ⟨hval, -, hmem⟩ := h.listing key hkey hsome
    refine ⟨?_, fun w hw => (hmem w hw).1.isWord⟩
    have := zhtValue_of_eq hval
    rwa [Delimited.enc_eq_flatMap] at this
  rmdir := by
    intro junk p z' hremoved key hsome hpre
    have hslash : (p.bytes ++ [slash]).getLast? = some slash := List.getLast?_concat
    refine h.nothing_below hslash ?_ hsome hpre
    cases hz : z (p.bytes ++ [slash]) with
    | none => exact listed_of_none hz
    | some val =>
        by_cases hempty : (realIp junk val).2 = [space]
        · obtain ⟨hval, -, hmem⟩ := h.listing _ hslash (by rw [hz]; rfl)
          rw [hz, Option.some.injEq] at hval
          rw [hval] at hempty
          exact realIp_listing (fun w hw => (hmem w hw).1) hempty
        · simp [rmdirEntry, hz, hempty] at hremoved

/-- **The namespace is a tree.** Any legal run of the four operations, from the store `main` sets up,
finds every name it deletes and ends with keys and listings in agreement. -/
theorem namespace_tree (ops : List NsOp) (hlegal : Guarded nsStep NsLegal zhtInit ops) :
    ∃ z, run nsStep zhtInit ops = some z ∧ NamespaceInvariant z := by
  obtain ⟨z, hrun, htree⟩ := Tree.init.run hlegal
  exact ⟨z, hrun, htree.namespaceInvariant⟩

def filePath (s : String) (h : (cstr s).head? = some slash ∧ (cstr s).getLast? ≠ some slash) :
    FilePath := ⟨cstr s, h.1, h.2⟩

theorem path_d : (cstr "/d").head? = some slash ∧ (cstr "/d").getLast? ≠ some slash := by decide

theorem path_f : (cstr "/f").head? = some slash ∧ (cstr "/f").getLast? ≠ some slash := by decide

theorem path_g : (cstr "/g").head? = some slash ∧ (cstr "/g").getLast? ≠ some slash := by decide

/-- A directory with two files, one a prefix of the other, and a directory of a file's name. -/
def siblingOps : List NsOp :=
  [.mkdir (filePath "/d" path_d), .create (filePath "/d/a" (by decide)) (cstr "10.0.0.1"),
    .create (filePath "/d/aa" (by decide)) (cstr "10.0.0.2"), .mkdir (filePath "/d/a" (by decide)),
    .rmdir (filePath "/d" path_d) [], .unlink (filePath "/d/a" (by decide)),
    .rmdir (filePath "/d/a" (by decide)) []]

theorem namespace_tree_siblings :
    ∃ z, run nsStep zhtInit siblingOps = some z ∧ NamespaceInvariant z :=
  namespace_tree siblingOps (by decide)

end FusionFS
