import Mathlib.Data.List.Basic

/-!
# Runs of a partial step function

A system is a partial function `step : S → E → Option S`; `none` means that the event cannot happen
in that state. A run is a list of events, executed by `exec`.

Two kinds of statement about runs recur:

* what every state satisfies — `exec_invariant`, and `exec_simulation` when the invariant relates
  the state to that of another system;
* what every step satisfies — `EachStep P s es` says that each event of the run meets `P` in the
  state it finds, `EachPoint C h es` that it meets `C` given only the events before it. Two such
  conditions are the same on runs whenever an invariant makes them agree on steps:
  `eachStep_iff_eachPoint`, `eachStep_congr`.
-/

namespace InuOs.Run

universe u v

variable {S : Type u} {E : Type v} {step : S → E → Option S}

/-- Execute a list of events. -/
def exec (step : S → E → Option S) : S → List E → Option S
  | s, [] => some s
  | s, e :: es => (step s e).bind fun s' => exec step s' es

@[simp] theorem exec_nil (s : S) : exec step s [] = some s := rfl

theorem exec_cons (s : S) (e : E) (es : List E) :
    exec step s (e :: es) = (step s e).bind fun s' => exec step s' es := rfl

variable {s s' : S} {e : E} {es : List E}

/-- Inversion for a run that starts with an event. -/
theorem exec_cons_eq_some {t : S} (h : exec step s (e :: es) = some t) :
    ∃ s', step s e = some s' ∧ exec step s' es = some t :=
  Option.bind_eq_some_iff.mp h

theorem exec_append (s : S) (es fs : List E) :
    exec step s (es ++ fs) = (exec step s es).bind fun t => exec step t fs := by
  induction es generalizing s with
  | nil => rfl
  | cons e es ih =>
    rw [List.cons_append, exec_cons, exec_cons]
    rcases step s e with _ | s'
    · rfl
    · exact ih s'

/-! ## Invariants -/

/-- The invariant rule for runs whose events all meet a condition. -/
theorem exec_invariant_of_forall {I : S → Prop} {P : E → Prop}
    (hstep : ∀ s e s', I s → P e → step s e = some s' → I s') {t : S}
    (hs : I s) (hP : ∀ e ∈ es, P e)
    (h : exec step s es = some t) : I t := by
  induction es generalizing s with
  | nil =>
    obtain rfl := Option.some.inj h
    exact hs
  | cons e es ih =>
    obtain ⟨s', hs', ht⟩ := exec_cons_eq_some h
    exact ih (hstep s e s' hs (hP e List.mem_cons_self) hs')
      (fun e' he' => hP e' (List.mem_cons_of_mem e he')) ht

/-- **The invariant rule**: what one step preserves, a run preserves. -/
theorem exec_invariant {I : S → Prop} (hstep : ∀ s e s', I s → step s e = some s' → I s') {t : S}
    (hs : I s) (h : exec step s es = some t) : I t :=
  exec_invariant_of_forall (P := fun _ => True) (fun s e s' hs _ => hstep s e s' hs) hs
    (fun _ _ => True.intro) h

/-! ## Conditions on every step -/

/-- Every event of the run satisfies `P` in the state it finds. -/
def EachStep (step : S → E → Option S) (P : S → E → Prop) : S → List E → Prop
  | _, [] => True
  | s, e :: es => P s e ∧ ∀ s', step s e = some s' → EachStep step P s' es

theorem EachStep.cons {P : S → E → Prop} (h : step s e = some s') (he : P s e)
    (hes : EachStep step P s' es) : EachStep step P s (e :: es) := by
  refine ⟨he, fun t ht => ?_⟩
  obtain rfl := Option.some.inj (h.symm.trans ht)
  exact hes

instance EachStep.decidable (P : S → E → Prop) [∀ s e, Decidable (P s e)] :
    ∀ (s : S) (es : List E), Decidable (EachStep step P s es)
  | _, [] => isTrue trivial
  | s, e :: es =>
    have : Decidable (∀ s', step s e = some s' → EachStep step P s' es) :=
      match step s e with
      | none => isTrue nofun
      | some s' =>
        have := EachStep.decidable P s' es
        decidable_of_iff (EachStep step P s' es)
          ⟨fun h _ hs => Option.some.inj hs ▸ h, fun h => h s' rfl⟩
    inferInstanceAs (Decidable (_ ∧ _))

/-- Every event of the run satisfies `C`, given the events before it. -/
def EachPoint (C : List E → E → Prop) : List E → List E → Prop
  | _, [] => True
  | hist, e :: es => C hist e ∧ EachPoint C (hist ++ [e]) es

/-- The invariant rule for runs whose steps all meet a condition. -/
theorem exec_invariant_of_eachStep {I : S → Prop} {P : S → E → Prop}
    (hstep : ∀ s e s', I s → P s e → step s e = some s' → I s') {t : S} (hs : I s)
    (hP : EachStep step P s es) (h : exec step s es = some t) : I t := by
  induction es generalizing s with
  | nil =>
    obtain rfl := Option.some.inj h
    exact hs
  | cons e es ih =>
    obtain ⟨s', hs', ht⟩ := exec_cons_eq_some h
    exact ih (hstep s e s' hs hP.1 hs') (hP.2 s' hs') ht

/-- **The simulation rule**, for runs whose steps all meet a condition: a relation that every such
step of one system keeps, with a step of the other for the same event, is kept by runs. -/
theorem exec_simulation_of_eachStep {T : Type u} {step' : T → E → Option T} {R : S → T → Prop}
    {P : S → E → Prop}
    (hstep : ∀ s t e s', R s t → P s e → step s e = some s' → ∃ t', step' t e = some t' ∧ R s' t')
    {t : T} (hR : R s t) (hP : EachStep step P s es) (h : exec step s es = some s') :
    ∃ t', exec step' t es = some t' ∧ R s' t' := by
  induction es generalizing s t with
  | nil =>
    obtain rfl := Option.some.inj h
    exact ⟨t, rfl, hR⟩
  | cons e es ih =>
    obtain ⟨m, hm, hrest⟩ := exec_cons_eq_some h
    obtain ⟨n, hn, hR'⟩ := hstep s t e m hR hP.1 hm
    obtain ⟨t', ht', hR''⟩ := ih hR' (hP.2 m hm) hrest
    exact ⟨t', by rw [exec_cons, hn]; exact ht', hR''⟩

theorem EachStep.of_forall {P : S → E → Prop} (h : ∀ s e, P s e) (s : S) (es : List E) :
    EachStep step P s es := by
  induction es generalizing s with
  | nil => trivial
  | cons e es ih => exact ⟨h s e, fun s' _ => ih s'⟩

/-- The simulation rule for all runs. -/
theorem exec_simulation {T : Type u} {step' : T → E → Option T} {R : S → T → Prop}
    (hstep : ∀ s t e s', R s t → step s e = some s' → ∃ t', step' t e = some t' ∧ R s' t') {t : T}
    (hR : R s t) (h : exec step s es = some s') : ∃ t', exec step' t es = some t' ∧ R s' t' :=
  exec_simulation_of_eachStep (P := fun _ _ => True) (fun s t e s' hR _ => hstep s t e s' hR) hR
    (EachStep.of_forall (fun _ _ => trivial) s es) h

/-- A condition on states and one on histories that agree along an invariant agree on runs. -/
theorem eachStep_iff_eachPoint {R : List E → S → Prop} {P : S → E → Prop} {C : List E → E → Prop}
    (hstep : ∀ hist s e s', R hist s → step s e = some s' → R (hist ++ [e]) s')
    (hiff : ∀ hist s e s', R hist s → step s e = some s' → (P s e ↔ C hist e))
    {hist : List E} {t : S}
    (hs : R hist s) (h : exec step s es = some t) : EachStep step P s es ↔ EachPoint C hist es := by
  induction es generalizing hist s with
  | nil => exact Iff.rfl
  | cons e es ih =>
    obtain ⟨s', hs', ht⟩ := exec_cons_eq_some h
    rw [EachStep, EachPoint, hiff hist s e s' hs hs', ← ih (hstep hist s e s' hs hs') ht, hs']
    constructor
    · exact fun h => ⟨h.1, h.2 s' rfl⟩
    · rintro ⟨hC, hrest⟩
      refine ⟨hC, fun s'' hs'' => ?_⟩
      obtain rfl := Option.some.inj hs''
      exact hrest

/-- Two conditions on steps that agree while an invariant holds, where the second one keeps the
invariant, agree on runs. -/
theorem eachStep_congr {I : S → Prop} {P Q : S → E → Prop}
    (hiff : ∀ s e s', I s → step s e = some s' → (P s e ↔ Q s e))
    (hkeep : ∀ s e s', I s → step s e = some s' → Q s e → I s') {t : S} (hs : I s)
    (h : exec step s es = some t) : EachStep step P s es ↔ EachStep step Q s es := by
  induction es generalizing s with
  | nil => exact Iff.rfl
  | cons e es ih =>
    obtain ⟨s', hs', ht⟩ := exec_cons_eq_some h
    rw [EachStep, EachStep, hiff s e s' hs hs']
    refine and_congr_right fun hQ => forall₂_congr fun s'' hs'' => ?_
    obtain rfl := Option.some.inj (hs'.symm.trans hs'')
    exact ih (hkeep s e s' hs hs' hQ) ht

end InuOs.Run
