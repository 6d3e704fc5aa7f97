import Mathlib.Algebra.Order.Ring.Int
import Mathlib.Data.List.Nodup

/-!
# The words of a shell command line

How a POSIX shell splits a line into words and expands them. A line has words only if it is one
simple command: no operator, no newline, and nothing that is expanded by its value. The first word is
taken for a program, neither reserved nor an assignment.
-/

namespace Shell

abbrev Bytes := List UInt8

/-- A byte of a word. Quoting it takes its special meaning away. -/
inductive Letter where
  | plain (b : UInt8)
  | quoted (b : UInt8)
  deriving DecidableEq

def Letter.byte : Letter → UInt8
  | .plain b => b
  | .quoted b => b

abbrev Word := List Letter

/-- A word without its quotes. -/
def Word.text (w : Word) : Bytes := w.map Letter.byte

def backslash : UInt8 := 92
def singleQuote : UInt8 := 39
def doubleQuote : UInt8 := 34
def hash : UInt8 := 35
def tilde : UInt8 := 126
def newline : UInt8 := 10
def slash : UInt8 := 47
def dot : UInt8 := 46

/-- Space and tab. -/
def blanks : List UInt8 := [32, 9]

/-- The dollar sign and the grave accent. -/
def values : List UInt8 := [36, 96]

/-- Newline, `&`, `(`, `)`, `;`, `<`, `>` and `|`. -/
def operators : List UInt8 := [newline, 38, 40, 41, 59, 60, 62, 124]

/-- `*`, `?` and `[`. -/
def wildcards : List UInt8 := [42, 63, 91]

/-- The bytes that do not stand for themselves inside a word. -/
def Special (b : UInt8) : Prop :=
  b ∈ blanks ∨ b ∈ values ∨ b ∈ operators ∨ b = backslash ∨ b = singleQuote ∨ b = doubleQuote

instance (b : UInt8) : Decidable (Special b) := inferInstanceAs (Decidable (_ ∨ _))

/-- Where the scan is: outside of quotes, and in a word or not; behind a backslash; in quotes; in a
comment. -/
inductive Mode where
  | bare (inWord : Bool)
  | escape (inWord : Bool)
  | single
  | double
  | doubleEscape
  | comment
  deriving DecidableEq

/-- Scan a line, with the word so far. -/
def lex : Mode → Word → Bytes → Option (List Word)
  | .bare inWord, cur, [] => some (if inWord then [cur] else [])
  | .bare inWord, cur, b :: s =>
      if b ∈ blanks then (lex (.bare false) [] s).map fun ws => (if inWord then [cur] else []) ++ ws
      else if inWord = false ∧ b = hash then lex .comment [] s
      else if b ∈ values ∨ b ∈ operators ∨ (inWord = false ∧ b = tilde) then none
      else if b = backslash then lex (.escape inWord) cur s
      else if b = singleQuote then lex .single cur s
      else if b = doubleQuote then lex .double cur s
      else lex (.bare true) (cur ++ [.plain b]) s
  | .escape _, _, [] => none
  | .escape inWord, cur, b :: s =>
      -- a newline behind a backslash is no part of the line
      if b = newline then lex (.bare inWord) cur s
      else lex (.bare true) (cur ++ [.quoted b]) s
  | .single, _, [] => none
  | .single, cur, b :: s =>
      if b = singleQuote then lex (.bare true) cur s else lex .single (cur ++ [.quoted b]) s
  | .double, _, [] => none
  | .double, cur, b :: s =>
      if b = doubleQuote then lex (.bare true) cur s
      else if b = backslash then lex .doubleEscape cur s
      else if b ∈ values then none
      else lex .double (cur ++ [.quoted b]) s
  | .doubleEscape, _, [] => none
  | .doubleEscape, cur, b :: s =>
      if b = newline then lex .double cur s
      else if b ∈ values ∨ b = doubleQuote ∨ b = backslash then lex .double (cur ++ [.quoted b]) s
      else lex .double (cur ++ [.quoted backslash, .quoted b]) s
  | .comment, _, [] => some []
  | .comment, cur, b :: s => if b = newline then none else lex .comment cur s

/-- What the locale makes of the letters behind a `[`: the bytes the bracket expression stands for and
the letters behind it, if it is one. -/
structure Brackets where
  bracket : Word → Option ((UInt8 → Bool) × Word)

/-- A word as a pattern for pathnames. The flag says that a component starts; a dot there is matched
by a dot only. -/
inductive Matches (loc : Brackets) : Bool → Word → Bytes → Prop
  | nil {start} : Matches loc start [] []
  | quoted {start b p name} (h : Matches loc (b == slash) p name) :
      Matches loc start (.quoted b :: p) (b :: name)
  | plain {start b p name} (hb : b ∉ wildcards) (h : Matches loc (b == slash) p name) :
      Matches loc start (.plain b :: p) (b :: name)
  | any {start b p name} (hb : b ≠ slash) (hdot : start = true → b ≠ dot)
      (h : Matches loc false p name) : Matches loc start (.plain 63 :: p) (b :: name)
  | skip {start p name} (hdot : start = true → name.head? ≠ some dot)
      (h : Matches loc start p name) : Matches loc start (.plain 42 :: p) name
  | star {start b p name} (hb : b ≠ slash) (hdot : start = true → b ≠ dot)
      (h : Matches loc false (.plain 42 :: p) name) : Matches loc start (.plain 42 :: p) (b :: name)
  | bracket {start b p mem rest name} (hp : loc.bracket p = some (mem, rest)) (hmem : mem b = true)
      (hb : b ≠ slash) (hdot : start = true → b ≠ dot) (h : Matches loc false rest name) :
      Matches loc start (.plain 91 :: p) (b :: name)
  | unclosed {start p name} (hp : loc.bracket p = none) (h : Matches loc false p name) :
      Matches loc start (.plain 91 :: p) (91 :: name)

open Classical in
/-- Pathname expansion, where these are the pathnames there are. -/
noncomputable def expand (loc : Brackets) (files : List Bytes) (w : Word) : List Bytes :=
  if files.filter (Matches loc true w) = [] then [w.text] else files.filter (Matches loc true w)

/-- The arguments of a simple command. -/
noncomputable def arguments (loc : Brackets) (files : List Bytes) (line : Bytes) :
    Option (List Bytes) :=
  (lex (.bare false) [] line).map fun ws => ws.flatMap (expand loc files)

/-- The argument that a word written without quotes stands for, whatever files there are, is the word
itself. -/
structure Ordinary (loc : Brackets) (w : Bytes) : Prop where
  unquoted : ∀ b ∈ w, ¬ Special b
  alone : ∀ name, Matches loc true (w.map .plain) name → name = w

/-- Words with one blank between them. -/
def line (ws : List Bytes) : Bytes := List.intercalate [32] ws

/-- A word that starts neither a comment nor with a home directory. -/
def Starts (w : Bytes) : Prop := ∃ b, w.head? = some b ∧ b ≠ hash ∧ b ≠ tilde

/-! ### Words without quotes -/

section Plain

variable {loc : Brackets} {w name s : Bytes} {ws : List Bytes} {cur : Word} {b : UInt8}

@[simp]
theorem text_plain (w : Bytes) : Word.text (w.map .plain) = w := by
  rw [Word.text, List.map_map]
  exact List.map_id w

theorem lex_plain (hb : ¬ Special b) {inWord : Bool}
    (hstart : inWord = true ∨ (b ≠ hash ∧ b ≠ tilde)) :
    lex (.bare inWord) cur (b :: s) = lex (.bare true) (cur ++ [.plain b]) s := by
  simp only [Special, not_or] at hb
  obtain ⟨hblank, hvalue, hoperator, hback, hsingle, hdouble⟩ := hb
  rw [lex, if_neg hblank, if_neg, if_neg, if_neg hback, if_neg hsingle, if_neg hdouble]
  · rintro (hmem | hmem | ⟨hout, htilde⟩)
    · exact hvalue hmem
    · exact hoperator hmem
    · rcases hstart with hin | ⟨-, hne⟩
      · rw [hout] at hin
        cases hin
      · exact hne htilde
  · rintro ⟨hout, hhash⟩
    rcases hstart with hin | ⟨hne, -⟩
    · rw [hout] at hin
      cases hin
    · exact hne hhash

theorem lex_word (hw : ∀ b ∈ w, ¬ Special b) :
    lex (.bare true) cur (w ++ s) = lex (.bare true) (cur ++ w.map .plain) s := by
  induction w generalizing cur with
  | nil => simp
  | cons b w ih =>
      rw [List.cons_append, lex_plain (hw b List.mem_cons_self) (Or.inl rfl),
        ih fun c hc => hw c (List.mem_cons_of_mem b hc)]
      simp

theorem lex_start (hw : ∀ b ∈ w, ¬ Special b) (hstart : Starts w) :
    lex (.bare false) [] (w ++ s) = lex (.bare true) (w.map .plain) s := by
  obtain ⟨b, hhead, hne⟩ := hstart
  obtain ⟨w, rfl⟩ := List.head?_eq_some_iff.mp hhead
  rw [List.cons_append, lex_plain (hw b List.mem_cons_self) (Or.inr hne),
    lex_word fun c hc => hw c (List.mem_cons_of_mem b hc)]
  rfl

theorem line_cons_cons (v w : Bytes) (ws : List Bytes) :
    line (v :: w :: ws) = v ++ 32 :: line (w :: ws) := by
  simp [line, List.intercalate]

theorem lex_line (hne : ws ≠ []) (hws : ∀ w ∈ ws, ∀ b ∈ w, ¬ Special b)
    (hstart : ∀ w ∈ ws, Starts w) :
    lex (.bare false) [] (line ws) = some (ws.map fun w => w.map .plain) := by
  induction ws with
  | nil => exact absurd rfl hne
  | cons v ws ih =>
      have hv := hws v List.mem_cons_self
      have hv' := hstart v List.mem_cons_self
      cases ws with
      | nil =>
          have hline : line [v] = v ++ [] := by simp [line, List.intercalate]
          rw [hline, lex_start hv hv']
          rfl
      | cons w ws =>
          have hrest := ih (by simp) (fun x hx => hws x (List.mem_cons_of_mem v hx))
            fun x hx => hstart x (List.mem_cons_of_mem v hx)
          rw [line_cons_cons, lex_start hv hv', lex, if_pos (by decide), hrest]
          rfl

end Plain

/-! ### Nothing else gives the same words -/

section Weight

variable {cur : Word} {s : Bytes} {ws : List Word} {mode : Mode}

/-- What the words take up on a line with a blank behind each of them. -/
def weight (ws : List Word) : Nat := (ws.map fun w => w.length + 1).sum

theorem weight_cons (w : Word) (ws : List Word) : weight (w :: ws) = w.length + 1 + weight ws := by
  rw [weight, List.map_cons, List.sum_cons, weight]

/-- One byte outside of quotes: a blank, the start of something that is dropped, or a byte that stands
for itself. -/
theorem lex_bare_cases {inWord : Bool} {b : UInt8}
    (h : lex (.bare inWord) cur (b :: s) = some ws) :
    (∃ vs, lex (.bare false) [] s = some vs ∧ ws = (if inWord then [cur] else []) ++ vs) ∨
    (∃ mode, lex mode [] s = some ws ∧ mode = .comment) ∨
    (∃ mode, lex mode cur s = some ws ∧ (mode = .escape inWord ∨ mode = .single ∨ mode = .double)) ∨
    (¬ Special b ∧ lex (.bare true) (cur ++ [.plain b]) s = some ws) := by
  rw [lex] at h
  by_cases hblank : b ∈ blanks
  · rw [if_pos hblank] at h
    obtain ⟨vs, hvs, rfl⟩ := Option.map_eq_some_iff.mp h
    exact Or.inl ⟨vs, hvs, rfl⟩
  · rw [if_neg hblank] at h
    split_ifs at h with hhash hstop hback hsingle hdouble
    · exact Or.inr (Or.inl ⟨_, h, rfl⟩)
    · exact Or.inr (Or.inr (Or.inl ⟨_, h, Or.inl rfl⟩))
    · exact Or.inr (Or.inr (Or.inl ⟨_, h, Or.inr (Or.inl rfl)⟩))
    · exact Or.inr (Or.inr (Or.inl ⟨_, h, Or.inr (Or.inr rfl)⟩))
    · refine Or.inr (Or.inr (Or.inr ⟨?_, h⟩))
      rintro (hmem | hmem | hmem | hmem | hmem | hmem)
      · exact hblank hmem
      · exact hstop (Or.inl hmem)
      · exact hstop (Or.inr (Or.inl hmem))
      · exact hback hmem
      · exact hsingle hmem
      · exact hdouble hmem

theorem weight_le (h : lex mode cur s = some ws) :
    weight ws ≤ cur.length + s.length + (if mode = .doubleEscape then 2 else 1) := by
  induction s generalizing mode cur ws with
  | nil =>
      cases mode with
      | bare inWord =>
          rw [lex, Option.some.injEq] at h
          subst h
          cases inWord <;> simp [weight]
      | comment =>
          rw [lex, Option.some.injEq] at h
          subst h
          simp [weight]
      | escape | single | double | doubleEscape => cases h
  | cons b s ih =>
      rw [List.length_cons]
      cases mode with
      | bare inWord =>
          rcases lex_bare_cases h with ⟨vs, hscan, rfl⟩ | ⟨mode, hscan, rfl⟩ |
            ⟨mode, hscan, rfl | rfl | rfl⟩ | ⟨-, hscan⟩
          · have hle := ih hscan
            cases inWord with
            | false =>
                simp at hle ⊢
                omega
            | true =>
                simp [weight_cons] at hle ⊢
                omega
          all_goals
            have hle := ih hscan
            simp at hle ⊢
            omega
      | escape | single | double | doubleEscape | comment =>
          rw [lex] at h
          split_ifs at h
          all_goals
            have hle := ih h
            simp at hle ⊢
            omega

/-- A scan that keeps all there is has met nothing special. -/
theorem unquoted_of_weight {inWord : Bool} (h : lex (.bare inWord) cur s = some ws)
    (hcur : inWord = false → cur = []) (hplain : ∀ l ∈ cur, ∃ b, l = .plain b ∧ ¬ Special b)
    (hweight : weight ws = cur.length + s.length + 1) :
    ∀ w ∈ ws, ∀ l ∈ w, ∃ b, l = .plain b ∧ ¬ Special b := by
  induction s generalizing inWord cur ws with
  | nil =>
      rw [lex, Option.some.injEq] at h
      subst h
      cases inWord with
      | false => simp
      | true =>
          intro w hw
          obtain rfl : w = cur := by simpa using hw
          exact hplain
  | cons b s ih =>
      rw [List.length_cons] at hweight
      rcases lex_bare_cases h with ⟨vs, hvs, rfl⟩ | ⟨mode, hm, rfl⟩ | ⟨mode, hm, hmode⟩ | ⟨hb, hb'⟩
      · have hle := weight_le hvs
        simp only [List.length_nil, reduceCtorEq, if_false] at hle
        cases inWord with
        | false =>
            simp only [Bool.false_eq_true, if_false, List.nil_append] at hweight
            omega
        | true =>
            simp only [if_true, List.singleton_append, weight_cons] at hweight
            intro w hw
            simp only [if_true, List.singleton_append, List.mem_cons] at hw
            rcases hw with rfl | hw
            · exact hplain
            · exact ih hvs (fun _ => rfl) (by simp) (by simp; omega) w hw
      · have hle := weight_le hm
        simp only [List.length_nil, reduceCtorEq, if_false] at hle
        omega
      · have hle := weight_le hm
        have hone : ¬ mode = .doubleEscape := by
          rcases hmode with rfl | rfl | rfl <;> simp
        rw [if_neg hone] at hle
        omega
      · apply ih hb' (fun hout => by cases hout)
        · intro l hl
          rw [List.mem_append, List.mem_singleton] at hl
          rcases hl with hl | rfl
          · exact hplain l hl
          · exact ⟨b, rfl, hb⟩
        · simp only [List.length_append, List.length_singleton]
          omega

theorem weight_eq_length_line {vs : List Bytes} (hne : vs ≠ []) :
    (vs.map fun w => w.length + 1).sum = (line vs).length + 1 := by
  induction vs with
  | nil => exact absurd rfl hne
  | cons v vs ih =>
      cases vs with
      | nil => simp [line, List.intercalate]
      | cons w vs =>
          have hrest := ih (by simp)
          rw [line_cons_cons, List.map_cons, List.sum_cons, hrest, List.length_append,
            List.length_cons]
          omega

end Weight

/-- A line is read as the words it was written with exactly if these hold nothing special. -/
theorem lex_text_iff {ws : List Bytes} (hne : ws ≠ []) (hstart : ∀ w ∈ ws, Starts w) :
    (lex (.bare false) [] (line ws)).map (List.map Word.text) = some ws ↔
      ∀ w ∈ ws, ∀ b ∈ w, ¬ Special b := by
  constructor
  · intro h
    obtain ⟨vs, hvs, rfl⟩ := Option.map_eq_some_iff.mp h
    have hweight : weight vs = (line (vs.map Word.text)).length + 1 := by
      rw [← weight_eq_length_line hne, weight, List.map_map]
      congr 1
      apply List.map_congr_left
      intro w _
      simp [Word.text]
    have hplain := unquoted_of_weight hvs (fun _ => rfl) (by simp) (by simpa using hweight)
    intro w hw b hb
    obtain ⟨v, hv, rfl⟩ := List.mem_map.mp hw
    obtain ⟨l, hl, rfl⟩ := List.mem_map.mp hb
    obtain ⟨c, rfl, hc⟩ := hplain v hv l hl
    exact hc
  · intro h
    rw [lex_line hne h hstart, Option.map_some, List.map_map]
    congr 1
    calc ws.map (Word.text ∘ fun w => w.map .plain) = ws.map id := by
          apply List.map_congr_left
          intro w _
          exact text_plain w
      _ = ws := List.map_id ws

/-! ### Pathnames -/

section Pathnames

variable {loc : Brackets} {start : Bool} {w name : Bytes} {files : List Bytes}

theorem eq_of_matches (hw : ∀ b ∈ w, b ∉ wildcards) (h : Matches loc start (w.map .plain) name) :
    name = w := by
  induction w generalizing start name with
  | nil =>
      cases h
      rfl
  | cons b w ih =>
      have hb := hw b List.mem_cons_self
      have hrest := fun c hc => hw c (List.mem_cons_of_mem b hc)
      rw [List.map_cons] at h
      cases h with
      | plain _ h => rw [ih hrest h]
      | any | skip | star | bracket | unclosed => exact absurd hb (by decide)

theorem Ordinary.of_plain (hw : w.all (fun b => decide (¬ Special b ∧ b ∉ wildcards)) = true) :
    Ordinary loc w := by
  have hall : ∀ b ∈ w, ¬ Special b ∧ b ∉ wildcards := fun b hb =>
    of_decide_eq_true (List.all_eq_true.mp hw b hb)
  exact ⟨fun b hb => (hall b hb).1, fun _ h => eq_of_matches (fun b hb => (hall b hb).2) h⟩

theorem expand_nil (w : Word) : expand loc [] w = [w.text] := by
  simp [expand]

theorem arguments_nil (loc : Brackets) (s : Bytes) :
    arguments loc [] s = (lex (.bare false) [] s).map (List.map Word.text) := by
  rw [arguments]
  congr 1
  funext words
  rw [List.map_eq_flatMap]
  apply List.flatMap_congr
  intro w _
  exact expand_nil w

open Classical in
theorem expand_singleton (loc : Brackets) (name : Bytes) (w : Word) :
    expand loc [name] w = [if Matches loc true w name then name else w.text] := by
  unfold expand
  by_cases h : Matches loc true w name <;> simp [h]

theorem expand_ordinary (hw : Ordinary loc w) (hfiles : files.Nodup) :
    expand loc files (w.map .plain) = [w] := by
  classical
  unfold expand
  split
  · rw [text_plain]
  · next hsome =>
      have hall : ∀ f ∈ files.filter (Matches loc true (w.map .plain)), f = w := by
        intro f hf
        exact hw.alone f (of_decide_eq_true (List.mem_filter.mp hf).2)
      have hnodup := hfiles.filter (Matches loc true (w.map .plain))
      obtain ⟨f, hf⟩ := List.exists_mem_of_ne_nil _ hsome
      obtain rfl := hall f hf
      -- what is found is the word, once
      generalize files.filter (Matches loc true (f.map .plain)) = found at *
      cases found with
      | nil => cases hf
      | cons g gs =>
          obtain rfl := hall g List.mem_cons_self
          cases gs with
          | nil => rfl
          | cons k gs =>
              obtain rfl := hall k (by simp)
              simp at hnodup

end Pathnames

/-- **The arguments are the words as written**, whatever files there are, exactly if every word is
ordinary. -/
theorem arguments_iff (loc : Brackets) {ws : List Bytes} (hne : ws ≠ [])
    (hstart : ∀ w ∈ ws, Starts w) :
    (∀ files, files.Nodup → arguments loc files (line ws) = some ws) ↔
      ∀ w ∈ ws, Ordinary loc w := by
  constructor
  · intro h
    have hplain : ∀ w ∈ ws, ∀ b ∈ w, ¬ Special b := by
      apply (lex_text_iff hne hstart).mp
      rw [← arguments_nil loc]
      exact h [] List.nodup_nil
    intro w hw
    refine ⟨hplain w hw, fun name hname => ?_⟩
    classical
    have hone := h [name] (List.nodup_singleton name)
    simp only [arguments, lex_line hne hplain hstart, expand_singleton, Option.map_some,
      Option.some.injEq, List.flatMap_map, text_plain, ← List.map_eq_flatMap] at hone
    have hsame : ∀ v ∈ ws, (if Matches loc true (v.map .plain) name then name else v) = id v := by
      apply List.map_inj_left.mp
      rw [hone, List.map_id]
    have hself := hsame w hw
    rwa [if_pos hname] at hself
  · intro h files hfiles
    rw [arguments, lex_line hne (fun w hw => (h w hw).unquoted) hstart, Option.map_some]
    congr 1
    rw [List.flatMap_map]
    calc ws.flatMap (fun w => expand loc files (w.map .plain)) = ws.flatMap fun w => [w] := by
          apply List.flatMap_congr
          intro w hw
          exact expand_ordinary (h w hw) hfiles
      _ = ws := List.flatMap_singleton' ws

end Shell
