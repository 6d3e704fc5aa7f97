import Mathlib.Data.Option.Basic

/-!
# Runs of a partial transition system

A step is a partial function of a state and an input: `none` means that the input cannot be taken in
that state. A run is a list of inputs, and what is said of it is said of every state it visits or of
every step it takes.
-/

namespace Transition

universe u v

variable {σ : Type u} {ι : Type v} (step : σ → ι → Option σ)

/-- The state after a list of inputs, when all of them can be taken. -/
def run : σ → List ι → Option σ
  | s, [] => some s
  | s, i :: is => (step s i).bind fun s' => run s' is

/-- `P` holds in every state the run visits, the first and the last included. -/
def Always (P : σ → Prop) : σ → List ι → Prop
  | s, [] => P s
  | s, i :: is => P s ∧ ∀ s', step s i = some s' → Always P s' is

/-- `G` holds of every step the run takes, as a relation of the state before it and its input. -/
def EachStep (G : σ → ι → Prop) : σ → List ι → Prop
  | _, [] => True
  | s, i :: is => ∀ s', step s i = some s' → G s i ∧ EachStep G s' is

/-- `G` holds of the state and the input at every point of the run, up to the first input that
cannot be taken. -/
def Guarded (G : σ → ι → Prop) : σ → List ι → Prop
  | _, [] => True
  | s, i :: is => G s i ∧ match step s i with
    | some s' => Guarded G s' is
    | none => True

/-- Every input can be taken, and `P` holds in every state visited. -/
def Safe (P : σ → Prop) : σ → List ι → Prop
  | s, [] => P s
  | s, i :: is => P s ∧ ∃ s', step s i = some s' ∧ Safe P s' is

variable {step}

instance decidableGuarded {G : σ → ι → Prop} [∀ s i, Decidable (G s i)] :
    ∀ s is, Decidable (Guarded step G s is)
  | _, [] => .isTrue trivial
  | s, i :: is =>
      haveI : Decidable (match step s i with
          | some s' => Guarded step G s' is
          | none => True) :=
        match step s i with
        | some s' => decidableGuarded s' is
        | none => .isTrue trivial
      inferInstanceAs (Decidable (_ ∧ _))

@[simp]
theorem run_nil (s : σ) : run step s [] = some s := rfl

theorem run_cons (s : σ) (i : ι) (is : List ι) :
    run step s (i :: is) = (step s i).bind fun s' => run step s' is := rfl

theorem run_append (s : σ) (is js : List ι) :
    run step s (is ++ js) = (run step s is).bind fun s' => run step s' js := by
  induction is generalizing s with
  | nil => rfl
  | cons i is ih =>
      simp only [List.cons_append, run_cons, Option.bind_assoc]
      cases step s i with
      | none => rfl
      | some s' => exact ih s'

theorem exists_run_of_any {P : σ → Bool} {s : σ} {is : List ι}
    (h : (run step s is).any P = true) : ∃ s', run step s is = some s' ∧ P s' = true := by
  cases hrun : run step s is with
  | none => simp [hrun] at h
  | some s' => exact ⟨s', rfl, by simpa [hrun] using h⟩

theorem Always.head {P : σ → Prop} {s : σ} {is : List ι} (h : Always step P s is) : P s := by
  cases is with
  | nil => exact h
  | cons i is => exact h.1

theorem Always.of_append {P : σ → Prop} {s : σ} {is js : List ι}
    (h : Always step P s (is ++ js)) : Always step P s is := by
  induction is generalizing s with
  | nil => exact h.head
  | cons i is ih => exact ⟨h.1, fun s' hs' => ih (h.2 s' hs')⟩

theorem Always.reached {P : σ → Prop} {s s' : σ} {is js : List ι}
    (h : Always step P s (is ++ js)) (hrun : run step s is = some s') : P s' := by
  induction is generalizing s with
  | nil =>
      cases hrun
      exact h.head
  | cons i is ih =>
      rw [run_cons, Option.bind_eq_some_iff] at hrun
      obtain ⟨mid, hstep, hrest⟩ := hrun
      exact ih (h.2 mid hstep) hrest

/-- The invariant rule: what the first state has and every step keeps holds along the whole run,
where a step may rely on what every step of the run is known to satisfy. -/
theorem always_of_invariant {I P : σ → Prop} {G : σ → ι → Prop}
    (hpost : ∀ s, I s → P s)
    (hstep : ∀ s i s', I s → step s i = some s' → G s i → I s')
    {s : σ} {is : List ι} (hinit : I s) (hguard : EachStep step G s is) : Always step P s is := by
  induction is generalizing s with
  | nil => exact hpost s hinit
  | cons i is ih =>
      refine ⟨hpost s hinit, fun s' hs' => ?_⟩
      obtain ⟨hg, hrest⟩ := hguard s' hs'
      exact ih (hstep s i s' hinit hs' hg) hrest

/-- The invariant rule for the last state of a run. -/
theorem run_of_invariant {I : σ → Prop} {G : σ → ι → Prop}
    (hstep : ∀ s i s', I s → step s i = some s' → G s i → I s')
    {s s' : σ} {is : List ι} (hinit : I s) (hguard : EachStep step G s is)
    (hrun : run step s is = some s') : I s' := by
  have hall : Always step I s is := always_of_invariant (fun _ h => h) hstep hinit hguard
  rw [← List.append_nil is] at hall
  exact hall.reached hrun

theorem eachStep_true (s : σ) (is : List ι) : EachStep step (fun _ _ => True) s is := by
  induction is generalizing s with
  | nil => trivial
  | cons i is ih => exact fun s' _ => ⟨trivial, ih s'⟩

/-- The step at which a run breaks a guard. -/
theorem exists_unguarded {G : σ → ι → Prop} {s s' : σ} {is : List ι} (hrun : run step s is = some s')
    (h : ¬EachStep step G s is) : ∃ is₁ i is₂ m m', run step s is₁ = some m ∧ step m i = some m' ∧
      run step m' is₂ = some s' ∧ ¬G m i := by
  induction is generalizing s with
  | nil => exact absurd trivial h
  | cons i is ih =>
      rw [run_cons, Option.bind_eq_some_iff] at hrun
      obtain ⟨m, hm, hrest⟩ := hrun
      by_cases hg : G s i
      · have htail : ¬EachStep step G m is := by
          intro htail
          apply h
          intro m' hm'
          obtain rfl := Option.some.inj (hm.symm.trans hm')
          exact ⟨hg, htail⟩
        obtain ⟨is₁, j, is₂, m₁, m₂, hrun₁, hj, hrun₂, hbad⟩ := ih hrest htail
        exact ⟨i :: is₁, j, is₂, m₁, m₂, by rw [run_cons, hm, Option.bind_some, hrun₁], hj, hrun₂, hbad⟩
      · exact ⟨[], i, is, s, m, rfl, hm, hrest, hg⟩

/-- **Exact guard.** When every guarded step keeps the invariant and does what it should, and every
other one breaks the property of states or that of steps at once, both hold along a run exactly when
each of its steps is guarded. -/
theorem always_and_eachStep_iff {I P : σ → Prop} {Q G : σ → ι → Prop}
    (hpost : ∀ s, I s → P s)
    (hstep : ∀ s i s', I s → step s i = some s' → G s i → I s' ∧ Q s i)
    (hbreak : ∀ s i s', I s → step s i = some s' → P s' → Q s i → G s i)
    {s : σ} (hinit : I s) (is : List ι) :
    (Always step P s is ∧ EachStep step Q s is) ↔ EachStep step G s is := by
  induction is generalizing s with
  | nil => exact iff_of_true ⟨hpost s hinit, trivial⟩ trivial
  | cons i is ih =>
      constructor
      · rintro ⟨hall, hsteps⟩ s' hs'
        have hrest := hall.2 s' hs'
        obtain ⟨hq, hqs⟩ := hsteps s' hs'
        have hg := hbreak s i s' hinit hs' hrest.head hq
        exact ⟨hg, (ih (hstep s i s' hinit hs' hg).1).mp ⟨hrest, hqs⟩⟩
      · intro hg
        refine ⟨⟨hpost s hinit, fun s' hs' => ?_⟩, fun s' hs' => ?_⟩
        · obtain ⟨hg', hrest⟩ := hg s' hs'
          exact ((ih (hstep s i s' hinit hs' hg').1).mpr hrest).1
        · obtain ⟨hg', hrest⟩ := hg s' hs'
          exact ⟨(hstep s i s' hinit hs' hg').2, ((ih (hstep s i s' hinit hs' hg').1).mpr hrest).2⟩

/-- The same for a property of states alone. -/
theorem always_iff_eachStep {I P : σ → Prop} {G : σ → ι → Prop}
    (hpost : ∀ s, I s → P s)
    (hstep : ∀ s i s', I s → step s i = some s' → G s i → I s')
    (hbreak : ∀ s i s', I s → step s i = some s' → P s' → G s i)
    {s : σ} (hinit : I s) (is : List ι) : Always step P s is ↔ EachStep step G s is := by
  rw [← always_and_eachStep_iff (Q := fun _ _ => True) hpost
    (fun s i s' hi hs hg => ⟨hstep s i s' hi hs hg, trivial⟩)
    (fun s i s' hi hs hp _ => hbreak s i s' hi hs hp) hinit is]
  exact ⟨fun h => ⟨h, eachStep_true s is⟩, fun h => h.1⟩

theorem Guarded.mono {G H : σ → ι → Prop} {s : σ} {is : List ι} (h : Guarded step G s is)
    (hle : ∀ s i, G s i → H s i) : Guarded step H s is := by
  induction is generalizing s with
  | nil => trivial
  | cons i is ih =>
      refine ⟨hle s i h.1, ?_⟩
      have htail := h.2
      cases hs : step s i with
      | none => trivial
      | some s' =>
          rw [hs] at htail
          exact ih htail

theorem Guarded.and {G H : σ → ι → Prop} {s : σ} {is : List ι} (hG : Guarded step G s is)
    (hH : Guarded step H s is) : Guarded step (fun s i => G s i ∧ H s i) s is := by
  induction is generalizing s with
  | nil => trivial
  | cons i is ih =>
      refine ⟨⟨hG.1, hH.1⟩, ?_⟩
      have hGtail := hG.2
      have hHtail := hH.2
      cases hs : step s i with
      | none => trivial
      | some s' =>
          rw [hs] at hGtail hHtail
          exact ih hGtail hHtail

theorem Guarded.tail {G : σ → ι → Prop} {s s' : σ} {i : ι} {is : List ι}
    (h : Guarded step G s (i :: is)) (hstep : step s i = some s') : Guarded step G s' is := by
  have hrest := h.2
  rw [hstep] at hrest
  exact hrest

theorem Guarded.of_append {G : σ → ι → Prop} {s : σ} {is js : List ι}
    (h : Guarded step G s (is ++ js)) : Guarded step G s is := by
  induction is generalizing s with
  | nil => trivial
  | cons i is ih =>
      refine ⟨h.1, ?_⟩
      cases hs : step s i with
      | none => trivial
      | some s' => exact ih (h.tail hs)

theorem Guarded.reached {G : σ → ι → Prop} {s s' : σ} {is js : List ι}
    (h : Guarded step G s (is ++ js)) (hrun : run step s is = some s') : Guarded step G s' js := by
  induction is generalizing s with
  | nil =>
      cases hrun
      exact h
  | cons i is ih =>
      rw [run_cons, Option.bind_eq_some_iff] at hrun
      obtain ⟨mid, hstep, hrest⟩ := hrun
      exact ih (h.tail hstep) hrest

theorem Guarded.eachStep {G : σ → ι → Prop} {s : σ} {is : List ι} (h : Guarded step G s is) :
    EachStep step G s is := by
  induction is generalizing s with
  | nil => trivial
  | cons i is ih => exact fun s' hs' => ⟨h.1, ih (h.tail hs')⟩

/-- The invariant rule where nothing gets stuck: a guarded input can be taken and keeps the invariant. -/
theorem safe_of_invariant {I P : σ → Prop} {G : σ → ι → Prop} (hpost : ∀ s, I s → P s)
    (hstep : ∀ s i, I s → G s i → ∃ s', step s i = some s' ∧ I s')
    {s : σ} (hinit : I s) {is : List ι} (hguard : Guarded step G s is) : Safe step P s is := by
  induction is generalizing s with
  | nil => exact hpost s hinit
  | cons i is ih =>
      obtain ⟨s', hs', hI⟩ := hstep s i hinit hguard.1
      exact ⟨hpost s hinit, s', hs', ih hI (hguard.tail hs')⟩

/-- **Exact guard, of whole runs.** Among the runs whose inputs are legal, those that never get stuck
and keep the property are the guarded ones. -/
theorem safe_iff_guarded {I P : σ → Prop} {L G : σ → ι → Prop}
    (hpost : ∀ s, I s → P s)
    (hstep : ∀ s i, I s → L s i → G s i → ∃ s', step s i = some s' ∧ I s')
    (hbreak : ∀ s i s', I s → L s i → step s i = some s' → P s' → G s i)
    {s : σ} (hinit : I s) {is : List ι} (hlegal : Guarded step L s is) :
    Safe step P s is ↔ Guarded step G s is := by
  induction is generalizing s with
  | nil => exact iff_of_true (hpost s hinit) trivial
  | cons i is ih =>
      constructor
      · rintro ⟨-, s', hs', hsafe⟩
        have hlater : P s' := by
          cases is with
          | nil => exact hsafe
          | cons j js => exact hsafe.1
        have hg := hbreak s i s' hinit hlegal.1 hs' hlater
        obtain ⟨s'', hs'', hI⟩ := hstep s i hinit hlegal.1 hg
        obtain rfl := Option.some.inj (hs'.symm.trans hs'')
        refine ⟨hg, ?_⟩
        rw [hs']
        exact (ih hI (hlegal.tail hs')).mp hsafe
      · intro hguard
        obtain ⟨s', hs', hI⟩ := hstep s i hinit hlegal.1 hguard.1
        exact ⟨hpost s hinit, s', hs', (ih hI (hlegal.tail hs')).mpr (hguard.tail hs')⟩

theorem guarded_true (s : σ) (is : List ι) : Guarded step (fun _ _ => True) s is := by
  induction is generalizing s with
  | nil => trivial
  | cons i is ih =>
      refine ⟨trivial, ?_⟩
      split
      · exact ih _
      · trivial

/-- The simulation rule: a second system that follows every step follows the whole run, as long as the
guard `G` holds of the first one and `H` of the second. -/
theorem run_simulates_guarded {τ : Type*} {step' : τ → ι → Option τ} {R : σ → τ → Prop}
    {G : σ → ι → Prop} {H : τ → ι → Prop}
    (hstep : ∀ s t i s', R s t → step s i = some s' → G s i → H t i →
      ∃ t', step' t i = some t' ∧ R s' t')
    {s s' : σ} {t : τ} {is : List ι} (hinit : R s t) (hguard : EachStep step G s is)
    (hguard' : Guarded step' H t is) (hrun : run step s is = some s') :
    ∃ t', run step' t is = some t' ∧ R s' t' := by
  induction is generalizing s t with
  | nil =>
      cases hrun
      exact ⟨t, rfl, hinit⟩
  | cons i is ih =>
      rw [run_cons, Option.bind_eq_some_iff] at hrun
      obtain ⟨mid, hmid, hrest⟩ := hrun
      obtain ⟨hg, hgs⟩ := hguard mid hmid
      obtain ⟨t₁, ht₁, hR⟩ := hstep s t i mid hinit hmid hg hguard'.1
      obtain ⟨t', ht', hR'⟩ := ih hR hgs (hguard'.tail ht₁) hrest
      exact ⟨t', by rw [run_cons, ht₁, Option.bind_some, ht'], hR'⟩

theorem run_simulates {τ : Type*} {step' : τ → ι → Option τ} {R : σ → τ → Prop} {G : σ → ι → Prop}
    (hstep : ∀ s t i s', R s t → step s i = some s' → G s i → ∃ t', step' t i = some t' ∧ R s' t')
    {s s' : σ} {t : τ} {is : List ι} (hinit : R s t) (hguard : EachStep step G s is)
    (hrun : run step s is = some s') : ∃ t', run step' t is = some t' ∧ R s' t' :=
  run_simulates_guarded (fun s t i s' hR hs hg _ => hstep s t i s' hR hs hg) hinit hguard
    (guarded_true t is) hrun

variable {ω : Type*}

/-- The state after a list of inputs, and what each of them gave. -/
def runOut (step : σ → ι → Option (σ × ω)) : σ → List ι → Option (σ × List ω)
  | s, [] => some (s, [])
  | s, i :: is => (step s i).bind fun out => (runOut step out.1 is).map fun rest => (rest.1, out.2 :: rest.2)

/-- The simulation rule for answers: a second system that answers every step as the first gives the same
answers along the whole run. -/
theorem runOut_simulates {τ : Type*} {step : σ → ι → Option (σ × ω)} {step' : τ → ι → Option (τ × ω)}
    {R : σ → τ → Prop}
    (hstep : ∀ s t i s' o, R s t → step s i = some (s', o) → ∃ t', step' t i = some (t', o) ∧ R s' t')
    {s s' : σ} {t : τ} {is : List ι} {os : List ω} (hinit : R s t)
    (hrun : runOut step s is = some (s', os)) : ∃ t', runOut step' t is = some (t', os) ∧ R s' t' := by
  induction is generalizing s t os with
  | nil =>
      cases hrun
      exact ⟨t, rfl, hinit⟩
  | cons i is ih =>
      rw [runOut, Option.bind_eq_some_iff] at hrun
      obtain ⟨⟨mid, o⟩, hmid, hrest⟩ := hrun
      obtain ⟨⟨last, outs⟩, hlast, heq⟩ := Option.map_eq_some_iff.mp hrest
      cases heq
      obtain ⟨t₁, ht₁, hR⟩ := hstep s t i mid o hinit hmid
      obtain ⟨t', ht', hR'⟩ := ih hR hlast
      exact ⟨t', by rw [runOut, ht₁, Option.bind_some, ht', Option.map_some], hR'⟩

end Transition
