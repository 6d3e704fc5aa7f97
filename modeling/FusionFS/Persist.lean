import FusionFS.NoVoHTRefinement

/-!
# Closing a table and opening it again

Closing rewrites the file from the chains. Opening puts each record it reads, and every `put` writes
its own record at the end of the file that is being read, and leaves the position there.
-/

namespace FusionFS

open Chained

namespace Stream

theorem puts_seekEnd (f : Stream) (s : Bytes) :
    f.seekEnd.puts s = ⟨f.content ++ s, (f.content ++ s).length⟩ := by
  simp [puts, seekEnd]

theorem fgetc_of_drop {f : Stream} {c : UInt8} {rest : Bytes} (h : f.content.drop f.pos = c :: rest) :
    f.fgetc = (some c, { f with pos := f.pos + 1 }) ∧ f.content.drop (f.pos + 1) = rest := by
  have hget : f.content[f.pos]? = some c := by
    rw [← List.head?_drop, h, List.head?_cons]
  constructor
  · rw [fgetc, hget]
  · rw [← List.tail_drop, h, List.tail_cons]

def AtEnd (f : Stream) : Prop := f.pos = f.content.length

theorem AtEnd.fgetc {f : Stream} (h : f.AtEnd) : f.fgetc = (none, f) := by
  have hget : f.content[f.pos]? = none := List.getElem?_eq_none_iff.mpr h.ge
  rw [Stream.fgetc, hget]

end Stream

namespace NoVoHT

/-- `~NoVoHT`: what it leaves in the file. The chains it frees are not used again. -/
def destroy (t : NoVoHT) : Option (Option Bytes) :=
  match t.dbfile with
  | none => some none
  | some _ => t.writeFile.map fun s => s.1.dbfile.map Stream.content

variable {t : NoVoHT} {rows : Nat → List Entry} {st : Store} {f : Stream}

/-! ### Reading -/

theorem readTabString_of_atEnd (hf : f.AtEnd) (room : Nat) : readTabString room [] f = (none, f) := by
  unfold readTabString
  rw [hf.fgetc]
  rfl

theorem readTabString_eq {s buf rest : Bytes} {room : Nat}
    (hdrop : f.content.drop f.pos = s ++ tab :: rest) (htab : tab ∉ s) (heof : 255 ∉ s)
    (hroom : s.length < room) :
    readTabString room buf f = (some (buf ++ s), { f with pos := f.pos + (s.length + 1) }) := by
  induction s generalizing f buf room with
  | nil =>
      obtain ⟨hget, -⟩ := Stream.fgetc_of_drop hdrop
      cases room with
      | zero => cases hroom
      | succ room =>
          unfold readTabString
          rw [hget, List.append_nil]
          rfl
  | cons c s ih =>
      obtain ⟨hget, hrest⟩ := Stream.fgetc_of_drop hdrop
      have hc : c ≠ 255 := fun heq => heof (heq ▸ List.mem_cons_self)
      have hc' : c ≠ tab := fun heq => htab (heq ▸ List.mem_cons_self)
      cases room with
      | zero => cases hroom
      | succ room =>
          have hread := @ih { f with pos := f.pos + 1 } (buf ++ [c]) room hrest
            (fun h => htab (List.mem_cons_of_mem _ h)) (fun h => heof (List.mem_cons_of_mem _ h))
            (Nat.lt_of_succ_lt_succ hroom)
          rw [readTabString, hget]
          dsimp only
          rw [if_neg hc, if_neg hc', hread, List.append_assoc, List.singleton_append,
            List.length_cons, Nat.add_right_comm f.pos 1]
          rfl

theorem drop_word (s rest : Bytes) (c : UInt8) : (s ++ c :: rest).drop (s.length + 1) = rest := by
  rw [← List.drop_drop, List.drop_left, List.drop_one, List.tail_cons]

theorem readTabString_of_word {s buf rest : Bytes} {room : Nat}
    (hdrop : f.content.drop f.pos = s ++ tab :: rest) (htab : tab ∉ s) (heof : 255 ∉ s)
    (hroom : s.length < room) : ∃ f', readTabString room buf f = (some (buf ++ s), f') ∧
      f'.content = f.content ∧ f'.content.drop f'.pos = rest := by
  refine ⟨_, readTabString_eq hdrop htab heof hroom, rfl, ?_⟩
  rw [← List.drop_drop, hdrop, drop_word]

/-! ### The position behind a `put` -/

theorem write_atEnd {a : Nat} {s : NoVoHT × Int} (hwrite : t.write a = some s)
    (hopen : t.dbfile.isSome) : ∃ f, s.1.dbfile = some f ∧ f.AtEnd := by
  obtain ⟨f, hf⟩ := Option.isSome_iff_exists.mp hopen
  rw [write, hf] at hwrite
  obtain ⟨node, -, rfl⟩ := Option.map_eq_some_iff.mp hwrite
  refine ⟨_, rfl, ?_⟩
  rw [Stream.puts_seekEnd]
  rfl

theorem insert_atEnd {k v : Bytes} {s : NoVoHT × Int} (hinsert : t.insert k v = some s)
    (hopen : t.dbfile.isSome) : ∃ f, s.1.dbfile = some f ∧ f.AtEnd := by
  unfold insert at hinsert
  dsimp only at hinsert
  cases hslot : t.kvpairs (bucketOf k t.size) with
  | none =>
      rw [hslot] at hinsert
      exact write_atEnd hinsert hopen
  | some first =>
      rw [hslot] at hinsert
      obtain ⟨⟨hit, cur⟩, -, hfound⟩ := Option.bind_eq_some_iff.mp hinsert
      cases hit with
      | true =>
          obtain ⟨node, -, hwrite⟩ := Option.bind_eq_some_iff.mp hfound
          obtain ⟨f, hf⟩ := Option.isSome_iff_exists.mp hopen
          refine write_atEnd hwrite ?_
          rw [mark, hf]
          rfl
      | false =>
          obtain ⟨node, -, hwrite⟩ := Option.bind_eq_some_iff.mp hfound
          exact write_atEnd hwrite hopen

theorem put_atEnd {grow : Bool} {k v : Bytes} {s : NoVoHT × Int} (hput : t.put grow k v = some s)
    (hopen : t.dbfile.isSome) : ∃ f, s.1.dbfile = some f ∧ f.AtEnd := by
  obtain ⟨t₁, hgrow, hinsert⟩ := Option.bind_eq_some_iff.mp hput
  refine insert_atEnd hinsert ?_
  cases grow with
  | false =>
      cases hgrow
      exact hopen
  | true =>
      obtain ⟨-, s', -, rfl⟩ := resize_cases hgrow
      exact hopen

/-! ### Opening -/

/-- What a file can keep of a key or a value. -/
def Text (s : Bytes) : Prop := tab ∉ s ∧ 255 ∉ s ∧ s.length < 300

instance (s : Bytes) : Decidable (Text s) := inferInstanceAs (Decidable (_ ∧ _))

theorem cString_sublist (s : Bytes) : (cString s).Sublist s := List.takeWhile_sublist _

theorem Text.cString {s : Bytes} (h : Text s) : Text (cString s) :=
  ⟨fun hmem => h.1 ((cString_sublist s).subset hmem),
    fun hmem => h.2.1 ((cString_sublist s).subset hmem),
    (cString_sublist s).length_le.trans_lt h.2.2⟩

theorem cString_cString (s : Bytes) : FusionFS.cString (FusionFS.cString s) = FusionFS.cString s :=
  cString_eq_self.mpr (zero_notMem_cString s)

theorem models_start (full : Int → Nat → Bool) {name disk : Bytes} {s : Nat} (hs : 0 < s) (m : Int) :
    ∃ t, t.Models (fun _ => none) ∧ (∀ a, t.heap a = none) ∧ t.dbfile = fopen name disk ∧
      construct full name disk s m = readFile full t ∧ t.size = s ∧ t.numEl = 0 :=
  ⟨_, models_empty (t := {
    size := s
    kvpairs := fun _ => none
    heap := fun _ => none
    fresh := 0
    numEl := 0
    dbfile := fopen name disk
    filename := name
    nRem := 0
    magicNumber := m })
    (fun h => by by_contra hne; rw [fopen, if_neg hne] at h; cases h) hs fun _ => rfl, fun _ => rfl, rfl,
    rfl, rfl, rfl⟩

theorem Models.setFile (hm : t.Models st) (hopen : t.dbfile.isSome) (f : Stream) :
    Models { t with dbfile := some f } st :=
  (hm.filed (r := ({ t with dbfile := some f }, 0)) ⟨t.heap, some f, rfl, rfl, hopen.symm⟩).1

theorem readLoop_of_atEnd (full : Int → Nat → Bool) (fuel : Nat) (hf : t.dbfile = some f)
    (hend : f.AtEnd) : readLoop full (fuel + 1) t = some t := by
  rw [readLoop, hf]
  dsimp only
  rw [readTabString_of_atEnd hend]
  dsimp only
  rw [← hf]

theorem readFile_models {full : Int → Nat → Bool} (hf : t.dbfile = some f) {t₁ : NoVoHT}
    (hloop : readLoop full (f.content.length + 2) t = some t₁) (hm : t₁.Models st)
    (hopen : t₁.dbfile.isSome) :
    ∃ t', readFile full t = some t' ∧ t'.Models st ∧ t'.dbfile.isSome ∧ t'.size = t₁.size := by
  have hwf := hm
  obtain ⟨hb, rows, hT, -⟩ := hwf
  obtain ⟨s, hwrite, hfiled⟩ := writeFile_filed hT hb
  obtain ⟨hs, -, hopen'⟩ := hm.filed hfiled
  refine ⟨s.1, ?_, hs, hopen'.trans hopen, ?_⟩
  · rw [readFile, hf]
    dsimp only
    rw [hloop, Option.bind_some, hwrite, Option.map_some]
  · obtain ⟨h, f', rfl, -⟩ := hfiled
    rfl

theorem construct_of_empty (full : Int → Nat → Bool) {name : Bytes} (hname : name ≠ []) {s : Nat}
    (hs : 0 < s) (m : Int) : ∃ t, construct full name [] s m = some t ∧
      t.Models (fun _ => none) ∧ t.dbfile.isSome ∧ t.size = s := by
  obtain ⟨t, hm, -, hfile, hconstruct, hsize, -⟩ := @models_start full name [] s hs m
  rw [fopen, if_neg hname] at hfile
  rw [hconstruct, ← hsize]
  exact readFile_models hfile (readLoop_of_atEnd full _ hfile rfl) hm (by rw [hfile]; rfl)

/-- **Only the first record is loaded.** -/
theorem construct_record_eq (full : Int → Nat → Bool) {name : Bytes} (hname : name ≠ []) {s : Nat}
    (hs : 0 < s) (m : Int) {k v rest : Bytes} (hk : Text k) (hv : Text v)
    (htilde : (cString k).head? ≠ some tilde) :
    ∃ t : NoVoHT, t.Models (fun _ => none) ∧ t.size = s ∧ t.dbfile.isSome ∧
      construct full name (record k v ++ rest) s m =
        (t.put (full 0 s) (cString k) (cString v)).bind fun u => u.1.writeFile.map Prod.fst := by
  obtain ⟨t, hm, -, hfile, hconstruct, hsize, hnum⟩ :=
    @models_start full name (record k v ++ rest) s hs m
  rw [fopen, if_neg hname] at hfile
  obtain ⟨f₁, hread₁, hcontent₁, hdrop₁⟩ := @readTabString_of_word
    ⟨record k v ++ rest, 0⟩ (cString k) [] (cString v ++ tab :: rest) 300
    (by simp [record]) hk.cString.1 hk.cString.2.1 hk.cString.2.2
  obtain ⟨f₂, hread₂, -, -⟩ := @readTabString_of_word
    f₁ (cString v) [] rest 300 hdrop₁ hv.cString.1 hv.cString.2.1 hv.cString.2.2
  subst hsize
  refine ⟨{ t with dbfile := some f₂ }, hm.setFile (by rw [hfile]; rfl) f₂, rfl, rfl, ?_⟩
  rw [← hnum, hconstruct, readFile, hfile]
  dsimp only
  rw [readLoop, hfile]
  dsimp only
  rw [hread₁]
  dsimp only
  rw [hread₂]
  dsimp only
  rw [List.nil_append, List.nil_append, cString_cString, cString_cString, if_neg htilde]
  cases hput : put (full t.numEl t.size) { t with dbfile := some f₂ } (cString k) (cString v) with
  | none => rfl
  | some u =>
      obtain ⟨f₃, hf₃, hend⟩ := put_atEnd hput rfl
      rw [Option.bind_some, readLoop_of_atEnd full _ hf₃ hend]
      rfl

theorem construct_of_record {full : Int → Nat → Bool} {name : Bytes} (hname : name ≠ []) {s : Nat}
    (hs : 0 < s) (hfits : full 0 s = true → s * 2 < 2 ^ 31) (m : Int) {k v : Bytes} (rest : Bytes)
    (hk : Text k) (hv : Text v) (htilde : (cString k).head? ≠ some tilde) :
    ∃ t, construct full name (record k v ++ rest) s m = some t ∧
      t.Models (Function.update (fun _ => none) (cString k) (some (cString v))) := by
  obtain ⟨t, hm, hsize, hopen, hconstruct⟩ := construct_record_eq full hname hs m hk hv htilde
  rw [← hsize] at hfits
  obtain ⟨u, hput, hu, -, -⟩ := put_models hm hfits (cString k) (cString v)
  have hwf := hu
  obtain ⟨hb, rows, hT, -⟩ := hwf
  obtain ⟨w, hwrite, hfiled⟩ := writeFile_filed hT hb
  refine ⟨w.1, ?_, (hu.filed hfiled).1⟩
  rw [hconstruct, ← hsize, hput, Option.bind_some, hwrite, Option.map_some]

/-- Opening a file with a record in it may grow the table. -/
theorem fits_of_construct {full : Int → Nat → Bool} {name : Bytes} (hname : name ≠ []) {s : Nat}
    (hs : 0 < s) {m : Int} {k v rest : Bytes} (hk : Text k) (hv : Text v)
    (htilde : (cString k).head? ≠ some tilde) {t' : NoVoHT}
    (h : construct full name (record k v ++ rest) s m = some t') :
    full 0 s = true → s * 2 < 2 ^ 31 := by
  obtain ⟨t, -, hsize, -, hconstruct⟩ := construct_record_eq full hname hs m hk hv htilde
  rw [hconstruct] at h
  obtain ⟨u, hput, -⟩ := Option.bind_eq_some_iff.mp h
  rw [← hsize] at hput ⊢
  exact (put_size hput).1

/-! ### Closing -/

def written (es : List Entry) : List Entry := es.filter fun e => e.2.1 ≠ [] ∧ e.2.2 ≠ []

theorem foldl_save (es : List Entry) (hf : f.AtEnd) :
    (es.foldl save f).content = f.content ++ (written es).flatMap fun e => record e.2.1 e.2.2 := by
  induction es generalizing f with
  | nil => simp [written]
  | cons e es ih =>
      by_cases he : e.2.1 ≠ [] ∧ e.2.2 ≠ []
      · have hputs : f.puts (record e.2.1 e.2.2) = ⟨f.content ++ record e.2.1 e.2.2,
            (f.content ++ record e.2.1 e.2.2).length⟩ := by
          rw [← f.puts_seekEnd]
          congr 1
          exact congrArg (Stream.mk f.content) hf
        have hend : Stream.AtEnd ⟨f.content ++ record e.2.1 e.2.2,
            (f.content ++ record e.2.1 e.2.2).length⟩ := rfl
        rw [List.foldl_cons, save, if_pos he, hputs, ih hend, written, written,
          List.filter_cons_of_pos (by simpa using he), List.flatMap_cons, List.append_assoc]
      · rw [List.foldl_cons, save, if_neg he, ih hf, written, written,
          List.filter_cons_of_neg (by simpa using he)]

theorem destroy_of_file (hT : t.Table rows) (hf : t.dbfile.isSome) :
    t.destroy = some (some ((written (Table.all t rows)).flatMap fun e => record e.2.1 e.2.2)) := by
  obtain ⟨h, hwrite, -⟩ := writeFile_of_file hT hf
  obtain ⟨f, hf⟩ := Option.isSome_iff_exists.mp hf
  rw [destroy, hf]
  dsimp only
  have hend : Stream.AtEnd ⟨[], 0⟩ := rfl
  rw [hwrite, Option.map_some, Option.map_some, foldl_save _ hend, List.nil_append]

theorem Holds.mem_all (hH : t.Holds rows st) (hT : t.Table rows) {k v : Bytes} :
    st k = some v ↔ ∃ a, (a, k, v) ∈ Table.all t rows := by
  rw [hH k v]
  exact exists_congr fun a => hT.mem_all.symm

/-! ### What comes back -/

/-- Keys and values that a text file can keep, none of them taken for a crossed out record. -/
def Request.Legal : Request → Prop
  | .put _ k v => k ≠ [] ∧ Text k ∧ k.head? ≠ some tilde ∧ Text v
  | .get k => k ≠ []
  | .remove k => k ≠ []

instance (r : Request) : Decidable r.Legal := by
  cases r <;> unfold Request.Legal <;> infer_instance

theorem Request.Legal.key_ne_nil {r : Request} (h : r.Legal) : r.key ≠ [] := by
  cases r with
  | put grow k v => exact h.1
  | get k => exact h
  | remove k => exact h

/-- At most one key is left, and neither it nor its value is cut short on the way. -/
def Survives (st : Store) : Prop :=
  ∀ k v, st k = some v → v ≠ [] ∧ 0 ∉ k ∧ 0 ∉ v ∧ ∀ k', (st k').isSome → k' = k

theorem mapAnswerAll_live {P : Bytes → Bytes → Prop} {rs : List Request}
    (hst : ∀ k v, st k = some v → P k v) (hrs : ∀ grow k v, .put grow k v ∈ rs → P k v) :
    ∀ k v, (mapAnswerAll st rs).1 k = some v → P k v := by
  induction rs generalizing st with
  | nil => exact hst
  | cons r rs ih =>
      refine ih ?_ fun grow k v hmem => hrs grow k v (List.mem_cons_of_mem _ hmem)
      intro k' v' hv'
      cases r with
      | put grow k v =>
          rw [mapAnswer] at hv'
          dsimp only at hv'
          by_cases hk : k' = k
          · subst hk
            rw [Function.update_self, Option.some.injEq] at hv'
            exact hv' ▸ hrs grow k' v List.mem_cons_self
          · rw [Function.update_of_ne hk] at hv'
            exact hst k' v' hv'
      | get k => exact hst k' v' hv'
      | remove k =>
          rw [mapAnswer] at hv'
          dsimp only at hv'
          by_cases hk : k' = k
          · subst hk
            rw [Function.update_self] at hv'
            cases hv'
          · rw [Function.update_of_ne hk] at hv'
            exact hst k' v' hv'

theorem live_of_legal {rs : List Request} (h : ∀ r ∈ rs, r.Legal) (k v : Bytes)
    (hv : (mapAnswerAll (fun _ => none) rs).1 k = some v) :
    k ≠ [] ∧ Text k ∧ k.head? ≠ some tilde ∧ Text v :=
  mapAnswerAll_live (P := fun k v => k ≠ [] ∧ Text k ∧ k.head? ≠ some tilde ∧ Text v)
    (fun _ _ hnone => absurd hnone (Option.some_ne_none _).symm) (fun _ _ _ hmem => h _ hmem) k v hv

theorem get_nil (t : NoVoHT) : t.get [] = some none := if_pos rfl

theorem get_eq_iff {t' : NoVoHT} {st' : Store} (hm : t.Models st) (hm' : t'.Models st') :
    (∀ k, t'.get k = t.get k) ↔ ∀ k, k ≠ [] → st' k = st k := by
  constructor
  · intro h k hk
    have hget := h k
    rw [get_models hm hk, get_models hm' hk] at hget
    exact Option.some.inj hget
  · intro h k
    by_cases hk : k = []
    · subst hk
      rw [get_nil, get_nil]
    · rw [get_models hm hk, get_models hm' hk, h k hk]

/-- The first record of a file is all of a store exactly when nothing else is in it. -/
theorem survives_iff {k v : Bytes} (hk : k ≠ []) (hv : v ≠ []) (hst : st k = some v)
    (hne : ∀ k' v', st k' = some v' → k' ≠ []) :
    (∀ k', k' ≠ [] → Function.update (fun _ => none) (cString k) (some (cString v)) k' = st k') ↔
      Survives st := by
  constructor
  · intro h
    have hself := h k hk
    have hkey : cString k = k := by
      by_contra hcut
      rw [Function.update_of_ne (Ne.symm hcut), hst] at hself
      cases hself
    have hval : cString v = v := by
      rw [hkey, Function.update_self, hst] at hself
      exact Option.some.inj hself
    have honly : ∀ k', (st k').isSome → k' = k := by
      intro k' hsome
      obtain ⟨v', hv'⟩ := Option.isSome_iff_exists.mp hsome
      by_contra hother
      have hk' := h k' (hne k' v' hv')
      rw [hkey, Function.update_of_ne hother, hv'] at hk'
      cases hk'
    intro k' v' hv'
    obtain rfl := honly k' (by rw [hv']; rfl)
    obtain rfl : v' = v := Option.some.inj (hv'.symm.trans hst)
    exact ⟨hv, cString_eq_self.mp hkey, cString_eq_self.mp hval, honly⟩
  · intro h k' _
    obtain ⟨-, hkey, hval, honly⟩ := h k v hst
    rw [cString_eq_self.mpr hkey, cString_eq_self.mpr hval]
    by_cases hk' : k' = k
    · rw [hk', Function.update_self, hst]
    · rw [Function.update_of_ne hk']
      by_contra hsome
      exact hk' (honly k' (Option.isSome_iff_ne_none.mpr fun hnone => hsome hnone.symm))

theorem survives_iff_of_empty (hempty : ∀ k v, st k = some v → v = [])
    (hne : ∀ k v, st k = some v → k ≠ []) :
    (∀ k, k ≠ [] → (none : Option Bytes) = st k) ↔ Survives st := by
  constructor
  · intro h k v hv
    have hnone := h k (hne k v hv)
    rw [hv] at hnone
    cases hnone
  · intro h k _
    cases hv : st k with
    | none => rfl
    | some v => exact absurd (hempty k v hv) (h k v hv).1

theorem head?_cString_ne {k : Bytes} {c : UInt8} (h : k.head? ≠ some c) :
    (cString k).head? ≠ some c := by
  cases k with
  | nil => exact nofun
  | cons b k =>
      rw [FusionFS.cString, List.takeWhile_cons]
      split
      · exact h
      · exact nofun

/-- A table on an empty file after some calls, and the one that is opened on its file once it is
closed. -/
def reopen (full full' : Int → Nat → Bool) (name : Bytes) (s s' : Nat) (m m' : Int)
    (rs : List Request) : Option (NoVoHT × NoVoHT) :=
  (construct full name [] s m).bind fun t₀ => (t₀.answerAll rs).bind fun u =>
    u.1.destroy.bind fun file => file.bind fun disk =>
      (construct full' name disk s' m').map fun t' => (u.1, t')

/-- The calls end in a table of what is still there, and what it leaves in its file is nothing, or the
record of the first pair and what follows. -/
theorem answerAll_destroy (full : Int → Nat → Bool) {name : Bytes} (hname : name ≠ []) {s : Nat}
    (hs : 0 < s) (m : Int) {rs : List Request} (hlegal : ∀ r ∈ rs, r.Legal)
    (hfits : sizeAfter s rs < 2 ^ 31) :
    ∃ t disk, (∀ (full' : Int → Nat → Bool) s' m', reopen full full' name s s' m m' rs =
        (construct full' name disk s' m').map fun t' => (t, t')) ∧
      t.Models (mapAnswerAll (fun _ => none) rs).1 ∧
      (disk = [] ∧ (∀ k v, (mapAnswerAll (fun _ => none) rs).1 k = some v → v = []) ∨
        ∃ k v rest, disk = record k v ++ rest ∧ v ≠ [] ∧
          (mapAnswerAll (fun _ => none) rs).1 k = some v) := by
  obtain ⟨t₀, hopen, hm₀, hfile₀, hsize₀⟩ := construct_of_empty full hname hs m
  rw [← hsize₀] at hfits
  obtain ⟨t, hrun, hm, hfile⟩ := answerAll_models hm₀ (fun r hr => (hlegal r hr).key_ne_nil) hfits
  have hlive := live_of_legal hlegal
  generalize (mapAnswerAll (fun _ => none) rs).1 = st at hm hlive ⊢
  have hwf := hm
  obtain ⟨-, rows, hT, hH⟩ := hwf
  have hdestroy := destroy_of_file hT (by rw [hfile]; exact hfile₀)
  refine ⟨t, (written (Table.all t rows)).flatMap fun e => record e.2.1 e.2.2,
    fun full' s' m' => ?_, hm, ?_⟩
  · rw [reopen, hopen, Option.bind_some, hrun, Option.bind_some, hdestroy, Option.bind_some,
      Option.bind_some]
  · cases hw : written (Table.all t rows) with
    | nil =>
        refine .inl ⟨rfl, fun k v hv => ?_⟩
        obtain ⟨a, hmem⟩ := (hH.mem_all hT).mp hv
        by_contra hne
        have hin : (a, k, v) ∈ written (Table.all t rows) :=
          List.mem_filter.mpr ⟨hmem, by simpa using ⟨(hlive k v hv).1, hne⟩⟩
        rw [hw] at hin
        cases hin
    | cons e es =>
        obtain ⟨a, k, v⟩ := e
        have hmem : (a, k, v) ∈ written (Table.all t rows) := by
          rw [hw]
          exact List.mem_cons_self
        obtain ⟨hin, hne⟩ := List.mem_filter.mp hmem
        exact .inr ⟨k, v, _, List.flatMap_cons, (of_decide_eq_true hne).2,
          (hH.mem_all hT).mpr ⟨a, hin⟩⟩

/-- **Reopening keeps what survives, and no more**: of every table that is closed and opened again,
which is every one that no `put` doubles past the range of an `int`. -/
theorem reopened_iff_survives (full full' : Int → Nat → Bool) {name : Bytes} (hname : name ≠ [])
    {s s' : Nat} (hs : 0 < s) (hint : s < 2 ^ 31) (hs' : 0 < s') (m m' : Int) (rs : List Request)
    (hlegal : ∀ r ∈ rs, r.Legal) :
    (∀ t t', reopen full full' name s s' m m' rs = some (t, t') →
      ((∀ k, t'.get k = t.get k) ↔ Survives (mapAnswerAll (fun _ => none) rs).1)) ∧
    (sizeAfter s rs < 2 ^ 31 → (full' 0 s' = true → s' * 2 < 2 ^ 31) →
      ∃ t t', reopen full full' name s s' m m' rs = some (t, t')) := by
  have hlive := live_of_legal hlegal
  constructor
  · intro t t' hreopen
    have hfits : sizeAfter s rs < 2 ^ 31 := by
      obtain ⟨t₀, hopen, hrest⟩ := Option.bind_eq_some_iff.mp hreopen
      obtain ⟨u, hrun, -⟩ := Option.bind_eq_some_iff.mp hrest
      obtain ⟨t₁, hopen₁, -, -, hsize⟩ := construct_of_empty full hname hs m
      obtain rfl := Option.some.inj (hopen.symm.trans hopen₁)
      rw [← hsize] at hint ⊢
      exact sizeAfter_lt hint hrun
    obtain ⟨t₁, disk, heq, hm, hdisk⟩ := answerAll_destroy full hname hs m hlegal hfits
    rw [heq] at hreopen
    obtain ⟨t₂, hconstruct, hpair⟩ := Option.map_eq_some_iff.mp hreopen
    obtain ⟨rfl, rfl⟩ := Prod.mk.inj hpair
    generalize (mapAnswerAll (fun _ => none) rs).1 = st at hm hlive hdisk ⊢
    rcases hdisk with ⟨rfl, hempty⟩ | ⟨k, v, rest, rfl, hne, hv⟩
    · obtain ⟨t₃, hopen', hm', -⟩ := construct_of_empty full' hname hs' m'
      obtain rfl := Option.some.inj (hconstruct.symm.trans hopen')
      rw [get_eq_iff hm hm']
      exact survives_iff_of_empty hempty fun k v hv => (hlive k v hv).1
    · obtain ⟨hk, htext, htilde, hval⟩ := hlive k v hv
      have htilde' := head?_cString_ne htilde
      have hfits' := fits_of_construct hname hs' htext hval htilde' hconstruct
      obtain ⟨t₃, hopen', hm'⟩ :=
        construct_of_record hname hs' hfits' m' rest htext hval htilde'
      obtain rfl := Option.some.inj (hconstruct.symm.trans hopen')
      rw [get_eq_iff hm hm']
      exact survives_iff hk hne hv fun k' v' h => (hlive k' v' h).1
  · intro hfits hfits'
    obtain ⟨t, disk, heq, -, hdisk⟩ := answerAll_destroy full hname hs m hlegal hfits
    rcases hdisk with ⟨rfl, -⟩ | ⟨k, v, rest, rfl, -, hv⟩
    · obtain ⟨t', hopen', -⟩ := construct_of_empty full' hname hs' m'
      exact ⟨t, t', by rw [heq, hopen', Option.map_some]⟩
    · obtain ⟨-, htext, htilde, hval⟩ := hlive k v hv
      obtain ⟨t', hopen', -⟩ := construct_of_record hname hs' hfits' m' rest htext hval
        (head?_cString_ne htilde)
      exact ⟨t, t', by rw [heq, hopen', Option.map_some]⟩

/-- One key, updated and still there at the end. -/
theorem reopened_iff_survives_update : ∃ t t',
    reopen (fun _ _ => false) (fun _ _ => true) (cstr "db") 2 3 100 1
      [.put false (cstr "a") (cstr "1"), .put true (cstr "b") (cstr "2"), .remove (cstr "a"),
        .put false (cstr "b") (cstr "3")] = some (t, t') ∧
      ((∀ k, t'.get k = t.get k) ↔ Survives (mapAnswerAll (fun _ => none)
        [.put false (cstr "a") (cstr "1"), .put true (cstr "b") (cstr "2"), .remove (cstr "a"),
          .put false (cstr "b") (cstr "3")]).1) := by
  obtain ⟨hiff, hopen⟩ := reopened_iff_survives (fun _ _ => false) (fun _ _ => true)
    (show cstr "db" ≠ [] by decide) (show 0 < 2 by decide) (by decide) (show 0 < 3 by decide) 100 1
    [.put false (cstr "a") (cstr "1"), .put true (cstr "b") (cstr "2"), .remove (cstr "a"),
      .put false (cstr "b") (cstr "3")] (by decide)
  obtain ⟨t, t', hreopen⟩ := hopen (by decide) (by decide)
  exact ⟨t, t', hreopen, hiff t t' hreopen⟩

/-- Of two keys, only the one whose record comes first is there again. -/
theorem not_reopened : (∀ r ∈ [Request.put false (cstr "a") (cstr "1"),
      .put false (cstr "b") (cstr "2")], r.Legal) ∧
    ∃ p, reopen (fun _ _ => false) (fun _ _ => false) (cstr "db") 2 2 100 100
      [.put false (cstr "a") (cstr "1"), .put false (cstr "b") (cstr "2")] = some p ∧
      p.1.get (cstr "b") = some (some (cstr "2")) ∧ p.2.get (cstr "b") = some none := by
  refine ⟨by decide, ?_⟩
  have htest : (reopen (fun _ _ => false) (fun _ _ => false) (cstr "db") 2 2 100 100
      [.put false (cstr "a") (cstr "1"), .put false (cstr "b") (cstr "2")]).any (fun p =>
        p.1.get (cstr "b") = some (some (cstr "2")) ∧ p.2.get (cstr "b") = some none) = true := by
    decide +kernel
  obtain ⟨p, hp, hget⟩ := (Option.any_eq_true _ _).mp htest
  exact ⟨p, hp, of_decide_eq_true hget⟩

end NoVoHT

end FusionFS
