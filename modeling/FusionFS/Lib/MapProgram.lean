import Mathlib.Logic.Function.Basic

/-!
# Programs over a map

A program sends requests for single keys and goes on with the answers. The map itself can answer
them, and so can any service that keeps one. What a program does with the map, alone or in turns with
other programs, it then does with the service.
-/

namespace MapProgram

variable {κ ν α β σ τ : Type*}

inductive Request (κ ν : Type*) where
  | lookup (key : κ)
  | insert (key : κ) (val : ν)
  | remove (key : κ)

inductive Prog (κ ν α : Type*) where
  | ret (result : α)
  | fault
  | lookup (key : κ) (next : Option ν → Prog κ ν α)
  | insert (key : κ) (val : ν) (next : Prog κ ν α)
  | remove (key : κ) (next : Prog κ ν α)

structure Service (σ κ ν : Type*) where
  lookup : σ → κ → Option (σ × Option ν)
  insert : σ → κ → ν → Option σ
  remove : σ → κ → Option σ

namespace Prog

def bind (f : α → Prog κ ν β) : Prog κ ν α → Prog κ ν β
  | ret a => f a
  | fault => fault
  | lookup key next => lookup key fun v => (next v).bind f
  | insert key val next => insert key val (next.bind f)
  | remove key next => remove key (next.bind f)

/-- The request a program sends next. -/
def request : Prog κ ν α → Option (Request κ ν)
  | ret _ => none
  | fault => none
  | lookup key _ => some (.lookup key)
  | insert key val _ => some (.insert key val)
  | remove key _ => some (.remove key)

end Prog

namespace Service

variable (S : Service σ κ ν)

/-- One request of a program. -/
def step (s : σ) : Prog κ ν α → Option (σ × Prog κ ν α)
  | .ret _ => none
  | .fault => none
  | .lookup key next => (S.lookup s key).map fun r => (r.1, next r.2)
  | .insert key val next => (S.insert s key val).map fun s' => (s', next)
  | .remove key next => (S.remove s key).map fun s' => (s', next)

/-- All requests of a program, with no other program in between. -/
def eval : Prog κ ν α → σ → Option (σ × α)
  | .ret a, s => some (s, a)
  | .fault, _ => none
  | .lookup key next, s => (S.lookup s key).bind fun r => eval (next r.2) r.1
  | .insert key val next, s => (S.insert s key val).bind fun s' => eval next s'
  | .remove key next, s => (S.remove s key).bind fun s' => eval next s'

theorem eval_bind (p : Prog κ ν α) (f : α → Prog κ ν β) (s : σ) :
    S.eval (p.bind f) s = (S.eval p s).bind fun r => S.eval (f r.2) r.1 := by
  induction p generalizing s with
  | ret a => rfl
  | fault => rfl
  | lookup key next ih =>
      simp only [Prog.bind, eval, Option.bind_assoc]
      congr 1
      funext r
      exact ih r.2 r.1
  | insert key val next ih =>
      simp only [Prog.bind, eval, Option.bind_assoc]
      congr 1
      funext s'
      exact ih s'
  | remove key next ih =>
      simp only [Prog.bind, eval, Option.bind_assoc]
      congr 1
      funext s'
      exact ih s'

end Service

/-- What must hold of the service and a request whenever a program sends one. -/
def Service.Along (S : Service σ κ ν) (P : σ → Request κ ν → Prop) : Prog κ ν α → σ → Prop
  | .ret _, _ => True
  | .fault, _ => True
  | .lookup key next, s => P s (.lookup key) ∧ ∀ r ∈ S.lookup s key, S.Along P (next r.2) r.1
  | .insert key val next, s => P s (.insert key val) ∧ ∀ s' ∈ S.insert s key val, S.Along P next s'
  | .remove key next, s => P s (.remove key) ∧ ∀ s' ∈ S.remove s key, S.Along P next s'

instance decidableAlong {S : Service σ κ ν} {P : σ → Request κ ν → Prop} [∀ s, DecidablePred (P s)] :
    ∀ (p : Prog κ ν α) s, Decidable (S.Along P p s)
  | .ret _, _ => .isTrue trivial
  | .fault, _ => .isTrue trivial
  | .lookup key next, s =>
      haveI : ∀ r : σ × Option ν, Decidable (S.Along P (next r.2) r.1) := fun _ => decidableAlong _ _
      inferInstanceAs (Decidable (_ ∧ ∀ r ∈ S.lookup s key, S.Along P (next r.2) r.1))
  | .insert key val next, s =>
      haveI : DecidablePred (S.Along P next) := decidableAlong next
      inferInstanceAs (Decidable (_ ∧ ∀ s' ∈ S.insert s key val, S.Along P next s'))
  | .remove key next, s =>
      haveI : DecidablePred (S.Along P next) := decidableAlong next
      inferInstanceAs (Decidable (_ ∧ ∀ s' ∈ S.remove s key, S.Along P next s'))

theorem Service.along_of_forall {S : Service σ κ ν} {P : σ → Request κ ν → Prop} (h : ∀ s r, P s r)
    (p : Prog κ ν α) (s : σ) : S.Along P p s := by
  induction p generalizing s with
  | ret a => trivial
  | fault => trivial
  | lookup key next ih => exact ⟨h s _, fun r _ => ih r.2 r.1⟩
  | insert key val next ih => exact ⟨h s _, fun s' _ => ih s'⟩
  | remove key next ih => exact ⟨h s _, fun s' _ => ih s'⟩

theorem Service.step_bind {S : Service σ κ ν} {s s' : σ} {p p' : Prog κ ν α}
    (h : S.step s p = some (s', p')) (f : α → Prog κ ν β) :
    S.step s (p.bind f) = some (s', p'.bind f) := by
  cases p with
  | ret a => cases h
  | fault => cases h
  | lookup key next =>
      obtain ⟨r, hr, heq⟩ := Option.map_eq_some_iff.mp h
      obtain ⟨rfl, rfl⟩ := Prod.mk.inj heq
      rw [Prog.bind, Service.step, hr, Option.map_some]
  | insert key val next =>
      obtain ⟨r, hr, heq⟩ := Option.map_eq_some_iff.mp h
      obtain ⟨rfl, rfl⟩ := Prod.mk.inj heq
      rw [Prog.bind, Service.step, hr, Option.map_some]
  | remove key next =>
      obtain ⟨r, hr, heq⟩ := Option.map_eq_some_iff.mp h
      obtain ⟨rfl, rfl⟩ := Prod.mk.inj heq
      rw [Prog.bind, Service.step, hr, Option.map_some]

/-! ### One service for another -/

/-- A second service gives the answers of the first, as long as `P`. -/
structure Follows (S : Service σ κ ν) (S' : Service τ κ ν) (P : τ → Request κ ν → Prop)
    (Q : σ → τ → Prop) : Prop where
  lookup : ∀ s t key r, Q s t → P t (.lookup key) → S.lookup s key = some r →
    ∃ t', S'.lookup t key = some (t', r.2) ∧ Q r.1 t'
  insert : ∀ s t key val s', Q s t → P t (.insert key val) → S.insert s key val = some s' →
    ∃ t', S'.insert t key val = some t' ∧ Q s' t'
  remove : ∀ s t key s', Q s t → P t (.remove key) → S.remove s key = some s' →
    ∃ t', S'.remove t key = some t' ∧ Q s' t'

section

variable {S : Service σ κ ν} {S' : Service τ κ ν} {P : τ → Request κ ν → Prop} {Q : σ → τ → Prop}
  {s s' : σ} {t : τ}

theorem Follows.step (h : Follows S S' P Q) (hP : ∀ t r, P t r) (hQ : Q s t) {p p' : Prog κ ν α}
    (hstep : S.step s p = some (s', p')) : ∃ t', S'.step t p = some (t', p') ∧ Q s' t' := by
  cases p with
  | ret a => cases hstep
  | fault => cases hstep
  | lookup key next =>
      obtain ⟨r, hr, heq⟩ := Option.map_eq_some_iff.mp hstep
      cases heq
      obtain ⟨t', ht', hQ'⟩ := h.lookup s t key r hQ (hP t _) hr
      exact ⟨t', by rw [Service.step, ht', Option.map_some], hQ'⟩
  | insert key val next =>
      obtain ⟨r, hr, heq⟩ := Option.map_eq_some_iff.mp hstep
      cases heq
      obtain ⟨t', ht', hQ'⟩ := h.insert s t key val s' hQ (hP t _) hr
      exact ⟨t', by rw [Service.step, ht', Option.map_some], hQ'⟩
  | remove key next =>
      obtain ⟨r, hr, heq⟩ := Option.map_eq_some_iff.mp hstep
      cases heq
      obtain ⟨t', ht', hQ'⟩ := h.remove s t key s' hQ (hP t _) hr
      exact ⟨t', by rw [Service.step, ht', Option.map_some], hQ'⟩

theorem Follows.eval (h : Follows S S' P Q) (hP : ∀ t r, P t r) (hQ : Q s t) {p : Prog κ ν α} {a : α}
    (heval : S.eval p s = some (s', a)) : ∃ t', S'.eval p t = some (t', a) ∧ Q s' t' := by
  induction p generalizing s t with
  | ret b =>
      cases heval
      exact ⟨t, rfl, hQ⟩
  | fault => cases heval
  | lookup key next ih =>
      obtain ⟨r, hr, hrest⟩ := Option.bind_eq_some_iff.mp heval
      obtain ⟨t₁, ht₁, hQ₁⟩ := h.lookup s t key r hQ (hP t _) hr
      obtain ⟨t', ht', hQ'⟩ := ih r.2 hQ₁ hrest
      exact ⟨t', by rw [Service.eval, ht₁, Option.bind_some, ht'], hQ'⟩
  | insert key val next ih =>
      obtain ⟨s₁, hs₁, hrest⟩ := Option.bind_eq_some_iff.mp heval
      obtain ⟨t₁, ht₁, hQ₁⟩ := h.insert s t key val s₁ hQ (hP t _) hs₁
      obtain ⟨t', ht', hQ'⟩ := ih hQ₁ hrest
      exact ⟨t', by rw [Service.eval, ht₁, Option.bind_some, ht'], hQ'⟩
  | remove key next ih =>
      obtain ⟨s₁, hs₁, hrest⟩ := Option.bind_eq_some_iff.mp heval
      obtain ⟨t₁, ht₁, hQ₁⟩ := h.remove s t key s₁ hQ (hP t _) hs₁
      obtain ⟨t', ht', hQ'⟩ := ih hQ₁ hrest
      exact ⟨t', by rw [Service.eval, ht₁, Option.bind_some, ht'], hQ'⟩

end

/-! ### The map -/

section

variable [DecidableEq κ]

/-- The map as the service. -/
def map : Service (κ → Option ν) κ ν where
  lookup z key := some (z, z key)
  insert z key val := some (Function.update z key (some val))
  remove z key := some (Function.update z key none)

/-- What the requests of a program must satisfy, each on the map it finds, when the map answers
them. -/
def Prog.Within (G : (κ → Option ν) → Request κ ν → Prop) : Prog κ ν α → (κ → Option ν) → Prop
  | .ret _, _ => True
  | .fault, _ => True
  | .lookup key next, z => G z (.lookup key) ∧ (next (z key)).Within G z
  | .insert key val next, z =>
      G z (.insert key val) ∧ next.Within G (Function.update z key (some val))
  | .remove key next, z => G z (.remove key) ∧ next.Within G (Function.update z key none)

instance decidableWithin {G : (κ → Option ν) → Request κ ν → Prop} [∀ z, DecidablePred (G z)] :
    ∀ (p : Prog κ ν α) z, Decidable (p.Within G z)
  | .ret _, _ => .isTrue trivial
  | .fault, _ => .isTrue trivial
  | .lookup key next, z =>
      haveI : Decidable ((next (z key)).Within G z) := decidableWithin _ _
      inferInstanceAs (Decidable (_ ∧ _))
  | .insert key val next, z =>
      haveI : Decidable (next.Within G (Function.update z key (some val))) := decidableWithin _ _
      inferInstanceAs (Decidable (_ ∧ _))
  | .remove key next, z =>
      haveI : Decidable (next.Within G (Function.update z key none)) := decidableWithin _ _
      inferInstanceAs (Decidable (_ ∧ _))

theorem Prog.within_bind {G : (κ → Option ν) → Request κ ν → Prop} {p : Prog κ ν α} {f : α → Prog κ ν β}
    {z : κ → Option ν} (hp : p.Within G z)
    (hf : ∀ z' a, map.eval p z = some (z', a) → (f a).Within G z') : (p.bind f).Within G z := by
  induction p generalizing z with
  | ret a => exact hf z a rfl
  | fault => trivial
  | lookup key next ih => exact ⟨hp.1, ih (z key) hp.2 hf⟩
  | insert key val next ih => exact ⟨hp.1, ih hp.2 hf⟩
  | remove key next ih => exact ⟨hp.1, ih hp.2 hf⟩

theorem Prog.Within.and {G H : (κ → Option ν) → Request κ ν → Prop} {p : Prog κ ν α}
    {z : κ → Option ν} (hG : p.Within G z) (hH : p.Within H z) :
    p.Within (fun z r => G z r ∧ H z r) z := by
  induction p generalizing z with
  | ret a => trivial
  | fault => trivial
  | lookup key next ih => exact ⟨⟨hG.1, hH.1⟩, ih (z key) hG.2 hH.2⟩
  | insert key val next ih => exact ⟨⟨hG.1, hH.1⟩, ih hG.2 hH.2⟩
  | remove key next ih => exact ⟨⟨hG.1, hH.1⟩, ih hG.2 hH.2⟩

/-- A service keeps a map, for requests `G` and as long as `P`: it answers them as the map it keeps
does. -/
structure Keeps (S : Service σ κ ν) (G : (κ → Option ν) → Request κ ν → Prop)
    (P : σ → Request κ ν → Prop) (R : (κ → Option ν) → σ → Prop) : Prop where
  lookup : ∀ z s key, R z s → G z (.lookup key) → P s (.lookup key) →
    ∃ s', S.lookup s key = some (s', z key) ∧ R z s'
  insert : ∀ z s key val, R z s → G z (.insert key val) → P s (.insert key val) →
    ∃ s', S.insert s key val = some s' ∧ R (Function.update z key (some val)) s'
  remove : ∀ z s key, R z s → G z (.remove key) → P s (.remove key) →
    ∃ s', S.remove s key = some s' ∧ R (Function.update z key none) s'

/-- Among the requests `C`, a service takes none but the requests `G`. -/
structure Refuses (S : Service σ κ ν) (C G : (κ → Option ν) → Request κ ν → Prop)
    (R : (κ → Option ν) → σ → Prop) : Prop where
  lookup : ∀ z s key, R z s → C z (.lookup key) → (S.lookup s key).isSome → G z (.lookup key)
  insert : ∀ z s key val, R z s → C z (.insert key val) → (S.insert s key val).isSome →
    G z (.insert key val)
  remove : ∀ z s key, R z s → C z (.remove key) → (S.remove s key).isSome → G z (.remove key)

section

variable {S : Service σ κ ν} {C G : (κ → Option ν) → Request κ ν → Prop} {P : σ → Request κ ν → Prop}
  {R : (κ → Option ν) → σ → Prop} {z z' : κ → Option ν} {s : σ}

theorem Keeps.step (h : Keeps S G P R) (hR : R z s) {p p' : Prog κ ν α} (hG : ∀ r ∈ p.request, G z r)
    (hP : ∀ r ∈ p.request, P s r) (hstep : map.step z p = some (z', p')) :
    ∃ s', S.step s p = some (s', p') ∧ R z' s' := by
  cases p with
  | ret a => cases hstep
  | fault => cases hstep
  | lookup key next =>
      cases hstep
      obtain ⟨s', hs', hR'⟩ := h.lookup z s key hR (hG _ rfl) (hP _ rfl)
      exact ⟨s', by rw [Service.step, hs', Option.map_some], hR'⟩
  | insert key val next =>
      cases hstep
      obtain ⟨s', hs', hR'⟩ := h.insert z s key val hR (hG _ rfl) (hP _ rfl)
      exact ⟨s', by rw [Service.step, hs', Option.map_some], hR'⟩
  | remove key next =>
      cases hstep
      obtain ⟨s', hs', hR'⟩ := h.remove z s key hR (hG _ rfl) (hP _ rfl)
      exact ⟨s', by rw [Service.step, hs', Option.map_some], hR'⟩

/-- A program alone: the service follows it to its end, with the same result. -/
theorem Keeps.eval (h : Keeps S G P R) (hR : R z s) {p : Prog κ ν α} {a : α} (hG : p.Within G z)
    (hP : S.Along P p s) (heval : map.eval p z = some (z', a)) :
    ∃ s', S.eval p s = some (s', a) ∧ R z' s' := by
  induction p generalizing z s with
  | ret b =>
      cases heval
      exact ⟨s, rfl, hR⟩
  | fault => cases heval
  | lookup key next ih =>
      obtain ⟨s₁, hs₁, hR₁⟩ := h.lookup z s key hR hG.1 hP.1
      obtain ⟨s', hs', hR'⟩ := ih (z key) hR₁ hG.2 (hP.2 _ hs₁) heval
      exact ⟨s', by rw [Service.eval, hs₁, Option.bind_some, hs'], hR'⟩
  | insert key val next ih =>
      obtain ⟨s₁, hs₁, hR₁⟩ := h.insert z s key val hR hG.1 hP.1
      obtain ⟨s', hs', hR'⟩ := ih hR₁ hG.2 (hP.2 _ hs₁) heval
      exact ⟨s', by rw [Service.eval, hs₁, Option.bind_some, hs'], hR'⟩
  | remove key next ih =>
      obtain ⟨s₁, hs₁, hR₁⟩ := h.remove z s key hR hG.1 hP.1
      obtain ⟨s', hs', hR'⟩ := ih hR₁ hG.2 (hP.2 _ hs₁) heval
      exact ⟨s', by rw [Service.eval, hs₁, Option.bind_some, hs'], hR'⟩

/-- A program that a service follows to its end has sent requests that the service takes, and ends on
the map. -/
theorem Refuses.within (h : Refuses S C G R) {K : (κ → Option ν) → Request κ ν → Prop}
    (hkeeps : Keeps S K P R) (hK : ∀ z r, C z r → G z r → K z r) (hP : ∀ s r, P s r) (hR : R z s)
    {p : Prog κ ν α} (hC : p.Within C z) (heval : (S.eval p s).isSome) :
    p.Within G z ∧ (map.eval p z).isSome := by
  induction p generalizing z s with
  | ret b => exact ⟨trivial, rfl⟩
  | fault => cases heval
  | lookup key next ih =>
      rw [Service.eval] at heval
      have hG := h.lookup z s key hR hC.1 (Option.isSome_of_isSome_bind heval)
      obtain ⟨s₁, hs₁, hR₁⟩ := hkeeps.lookup z s key hR (hK z _ hC.1 hG) (hP s _)
      rw [hs₁, Option.bind_some] at heval
      obtain ⟨hrest, hmap⟩ := ih (z key) hR₁ hC.2 heval
      exact ⟨⟨hG, hrest⟩, hmap⟩
  | insert key val next ih =>
      rw [Service.eval] at heval
      have hG := h.insert z s key val hR hC.1 (Option.isSome_of_isSome_bind heval)
      obtain ⟨s₁, hs₁, hR₁⟩ := hkeeps.insert z s key val hR (hK z _ hC.1 hG) (hP s _)
      rw [hs₁, Option.bind_some] at heval
      obtain ⟨hrest, hmap⟩ := ih hR₁ hC.2 heval
      exact ⟨⟨hG, hrest⟩, hmap⟩
  | remove key next ih =>
      rw [Service.eval] at heval
      have hG := h.remove z s key hR hC.1 (Option.isSome_of_isSome_bind heval)
      obtain ⟨s₁, hs₁, hR₁⟩ := hkeeps.remove z s key hR (hK z _ hC.1 hG) (hP s _)
      rw [hs₁, Option.bind_some] at heval
      obtain ⟨hrest, hmap⟩ := ih hR₁ hC.2 heval
      exact ⟨⟨hG, hrest⟩, hmap⟩

variable {S' : Service τ κ ν} {P' : τ → Request κ ν → Prop} {Q : σ → τ → Prop} {s' : σ} {t : τ}

/-- What follows a service that keeps a map keeps it, too. -/
theorem Keeps.follows (h : Keeps S G P R) (hP : ∀ s r, P s r) (hfollows : Follows S S' P' Q)
    {P₁ : τ → Request κ ν → Prop} (hP' : ∀ z s t r, R z s → Q s t → G z r → P₁ t r → P' t r) :
    Keeps S' G P₁ fun z t => ∃ s, R z s ∧ Q s t where
  lookup z t key hR hG ht := by
    obtain ⟨s, hR, hQ⟩ := hR
    obtain ⟨s', hs', hR'⟩ := h.lookup z s key hR hG (hP s _)
    obtain ⟨t', ht', hQ'⟩ := hfollows.lookup s t key _ hQ (hP' z s t _ hR hQ hG ht) hs'
    exact ⟨t', ht', s', hR', hQ'⟩
  insert z t key val hR hG ht := by
    obtain ⟨s, hR, hQ⟩ := hR
    obtain ⟨s', hs', hR'⟩ := h.insert z s key val hR hG (hP s _)
    obtain ⟨t', ht', hQ'⟩ := hfollows.insert s t key val s' hQ (hP' z s t _ hR hQ hG ht) hs'
    exact ⟨t', ht', s', hR', hQ'⟩
  remove z t key hR hG ht := by
    obtain ⟨s, hR, hQ⟩ := hR
    obtain ⟨s', hs', hR'⟩ := h.remove z s key hR hG (hP s _)
    obtain ⟨t', ht', hQ'⟩ := hfollows.remove s t key s' hQ (hP' z s t _ hR hQ hG ht) hs'
    exact ⟨t', ht', s', hR', hQ'⟩

/-- Where a service goes on at all that a keeper of a map follows, it goes on as the map does. -/
theorem Follows.step_agrees {K : τ → Request κ ν → Prop} {R' : (κ → Option ν) → τ → Prop}
    (hfollows : Follows S S' P' Q) (hP' : ∀ t r, P' t r) (h : Keeps S' G K R') (hK : ∀ t r, K t r)
    (hR : R' z t) (hQ : Q s t) {p p₁ p₂ : Prog κ ν α} (hG : ∀ r ∈ p.request, G z r)
    (hmap : map.step z p = some (z', p₁)) (hstep : S.step s p = some (s', p₂)) :
    p₂ = p₁ ∧ ∃ t', R' z' t' ∧ Q s' t' := by
  obtain ⟨t₁, ht₁, hR'⟩ := h.step hR hG (fun r _ => hK t r) hmap
  obtain ⟨t₂, ht₂, hQ'⟩ := hfollows.step hP' hQ hstep
  obtain ⟨rfl, rfl⟩ := Prod.mk.inj (Option.some.inj (ht₁.symm.trans ht₂))
  exact ⟨rfl, t₁, hR', hQ'⟩

theorem Follows.eval_agrees {K : τ → Request κ ν → Prop} {R' : (κ → Option ν) → τ → Prop}
    (hfollows : Follows S S' P' Q) (hP' : ∀ t r, P' t r) (h : Keeps S' G K R') (hK : ∀ t r, K t r)
    (hR : R' z t) (hQ : Q s t) {p : Prog κ ν α} {a b : α} (hG : p.Within G z)
    (hmap : map.eval p z = some (z', a)) (heval : S.eval p s = some (s', b)) :
    b = a ∧ ∃ t', R' z' t' ∧ Q s' t' := by
  obtain ⟨t₁, ht₁, hR'⟩ := h.eval hR hG (Service.along_of_forall hK p t) hmap
  obtain ⟨t₂, ht₂, hQ'⟩ := hfollows.eval hP' hQ heval
  obtain ⟨rfl, rfl⟩ := Prod.mk.inj (Option.some.inj (ht₁.symm.trans ht₂))
  exact ⟨rfl, t₁, hR', hQ'⟩

end

end

end MapProgram
