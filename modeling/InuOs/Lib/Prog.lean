import InuOs.Lib.Except

/-!
# Programs that wait

A thread of a system with shared state `σ` runs a `Prog`: atomic actions on the state, which may
fail, and points where it waits until the state lets it pass. `ω` names what it waits for.

* `run` is the run of one program with nothing else in progress. A wait that does not pass then
  never will, and the run ends with `Halt.stuck`.
* `Triple P x Q` — if the run of `x` from a state with `P` returns, then with a value and a state in
  `Q`. There is one rule for each way to build a program.
-/

namespace InuOs

/-- A program that returns an `α`. -/
inductive Prog (σ ε ω α : Type) : Type 1 where
  | ret (a : α)
  /-- an atomic action -/
  | act {β : Type} (f : σ → Except ε (β × σ)) (k : β → Prog σ ε ω α)
  /-- wait for `w`; `pass` says if the state allows to pass, and what passing does to it -/
  | wait (w : ω) (pass : σ → Option σ) (k : Prog σ ε ω α)

/-- Why a run does not return. -/
inductive Halt (ε ω : Type) : Type where
  | fail (e : ε)
  | stuck (w : ω)
  deriving DecidableEq, Repr

namespace Prog

variable {σ ε ω α β : Type}

/-! ## Building programs -/

/-- One program after another. -/
protected def bind : Prog σ ε ω α → (α → Prog σ ε ω β) → Prog σ ε ω β
  | .ret a, f => f a
  | .act g k, f => .act g fun b => (k b).bind f
  | .wait w pass k, f => .wait w pass (k.bind f)

instance : Monad (Prog σ ε ω) where
  pure := .ret
  bind := .bind

/-- An atomic action with a result. -/
def atomic (f : σ → Except ε (α × σ)) : Prog σ ε ω α := .act f .ret

/-- An atomic action. -/
def update (f : σ → Except ε σ) : Prog σ ε ω Unit := .act (fun s => (f s).map fun s => ((), s)) .ret

/-- An atomic action that does not fail. -/
def modify (f : σ → σ) : Prog σ ε ω Unit := update fun s => .ok (f s)

/-- Read from the state. -/
def get (f : σ → α) : Prog σ ε ω α := atomic fun s => .ok (f s, s)

/-- Fail. -/
def fail (e : ε) : Prog σ ε ω α := atomic fun _ => .error e

/-- Wait. -/
def await (w : ω) (pass : σ → Option σ) : Prog σ ε ω Unit := .wait w pass (.ret ())

/-- A program under a condition. -/
def when (c : Prop) [Decidable c] (x : Prog σ ε ω Unit) : Prog σ ε ω Unit :=
  if c then x else pure ()

/-! ## Runs -/

/-- The run of a program alone. -/
def run : Prog σ ε ω α → σ → Except (Halt ε ω) (α × σ)
  | .ret a, s => .ok (a, s)
  | .act f k, s =>
    match f s with
    | .error e => .error (.fail e)
    | .ok (b, s) => (k b).run s
  | .wait w pass k, s =>
    match pass s with
    | none => .error (.stuck w)
    | some s => k.run s

theorem run_bind (x : Prog σ ε ω α) (f : α → Prog σ ε ω β) (s : σ) :
    (x >>= f).run s = x.run s >>= fun r => (f r.1).run r.2 := by
  induction x generalizing s with
  | ret a => rfl
  | act g k ih =>
    change (Prog.act g fun b => (k b).bind f).run s = _
    simp only [run]
    cases g s with
    | error e => rfl
    | ok r => exact ih r.1 r.2
  | wait w pass k ih =>
    change (Prog.wait w pass (k.bind f)).run s = _
    simp only [run]
    cases pass s with
    | none => rfl
    | some s => exact ih s

/-- The run of a program that never waits. -/
def eval (x : Prog σ ε Empty α) (s : σ) : Except ε (α × σ) :=
  (x.run s).mapError fun
    | .fail e => e
    | .stuck w => w.elim

/-! ## Triples -/

/-- If the run of `x` from a state with `P` returns, then with `Q`. -/
def Triple (P : σ → Prop) (x : Prog σ ε ω α) (Q : α → σ → Prop) : Prop :=
  ∀ s, P s → Meets (x.run s) (fun _ => True) fun r => Q r.1 r.2

/-- Whenever `x` returns, `P` holds as before. -/
abbrev Keeps (P : σ → Prop) (x : Prog σ ε ω α) : Prop := Triple P x fun _ => P

namespace Triple

variable {P P' : σ → Prop} {Q Q' : α → σ → Prop} {R : β → σ → Prop} {x : Prog σ ε ω α}

protected theorem pure {a : α} (h : ∀ s, P s → Q a s) : Triple P (pure a : Prog σ ε ω α) Q :=
  fun s hs => Meets.pure (h s hs)

/-- A value is returned, and nothing happens. -/
theorem done {a : α} : Keeps P (pure a : Prog σ ε ω α) := Triple.pure fun _ h => h

protected theorem bind {f : α → Prog σ ε ω β} (hx : Triple P x Q)
    (hf : ∀ a, Triple (Q a) (f a) R) : Triple P (x >>= f) R := by
  intro s hs
  rw [run_bind]
  exact (hx s hs).bind fun r hr => hf r.1 r.2 hr

theorem mono (hx : Triple P x Q) (h : ∀ a s, Q a s → Q' a s) : Triple P x Q' :=
  fun s hs => (hx s hs).mono fun r hr => h r.1 r.2 hr

theorem weaken (hx : Triple P x Q) (h : ∀ s, P' s → P s) : Triple P' x Q :=
  fun s hs => hx s (h s hs)

/-- What the precondition says to exist is fixed before the run. -/
theorem exists_pre {ι : Type} {P : ι → σ → Prop} (h : ∀ i, Triple (P i) x Q) :
    Triple (fun s => ∃ i, P i s) x Q := by
  rintro s ⟨i, hs⟩
  exact h i s hs

/-- A fact of the precondition that is not about the state. -/
theorem and_pre {C : Prop} (h : C → Triple P x Q) : Triple (fun s => C ∧ P s) x Q :=
  fun s hs => h hs.1 s hs.2

theorem atomic {f : σ → Except ε (α × σ)}
    (h : ∀ s, P s → Meets (f s) (fun _ => True) fun r => Q r.1 r.2) :
    Triple P (Prog.atomic f : Prog σ ε ω α) Q := by
  intro s hs
  have hs := h s hs
  rw [Prog.atomic, run]
  cases hf : f s with
  | error e => exact Meets.throw True.intro
  | ok r => exact Meets.pure (hs.of_ok hf)

theorem update {f : σ → Except ε σ} {Q : Unit → σ → Prop}
    (h : ∀ s, P s → Meets (f s) (fun _ => True) (Q ())) :
    Triple P (Prog.update f : Prog σ ε ω Unit) Q :=
  Triple.atomic fun s hs => Meets.map _ (h s hs)

theorem modify {f : σ → σ} {Q : Unit → σ → Prop} (h : ∀ s, P s → Q () (f s)) :
    Triple P (Prog.modify f : Prog σ ε ω Unit) Q :=
  Triple.update fun s hs => Meets.pure (h s hs)

theorem get {f : σ → α} (h : ∀ s, P s → Q (f s) s) : Triple P (Prog.get f : Prog σ ε ω α) Q :=
  Triple.atomic fun s hs => Meets.pure (h s hs)

theorem fail {e : ε} : Triple P (Prog.fail e : Prog σ ε ω α) Q :=
  Triple.atomic fun _ _ => Meets.throw True.intro

theorem await {w : ω} {pass : σ → Option σ} {Q : Unit → σ → Prop}
    (h : ∀ s, P s → ∀ s', pass s = some s' → Q () s') :
    Triple P (Prog.await w pass : Prog σ ε ω Unit) Q := by
  intro s hs
  rw [Prog.await, run]
  cases hp : pass s with
  | none => exact Meets.throw True.intro
  | some s' => exact Meets.pure (h s hs s' hp)

theorem when {c : Prop} [Decidable c] {x : Prog σ ε ω Unit} {Q : Unit → σ → Prop}
    (hx : c → Triple P x Q) (hn : ¬ c → ∀ s, P s → Q () s) : Triple P (Prog.when c x) Q := by
  unfold Prog.when
  split
  · next hc => exact hx hc
  · next hc => exact Triple.pure (hn hc)

theorem whenever {c : Prop} [Decidable c] {x : Prog σ ε ω Unit} (hx : c → Keeps P x) :
    Keeps P (Prog.when c x) :=
  Triple.when hx fun _ _ h => h

/-- A triple about a program that never waits. -/
theorem eval {x : Prog σ ε Empty α} (hx : Triple P x Q) {s : σ} (hs : P s) :
    Meets (x.eval s) (fun _ => True) fun r => Q r.1 r.2 := by
  have hs := hx s hs
  unfold Prog.eval
  cases hrun : x.run s with
  | ok r => exact Meets.pure (hs.of_ok hrun)
  | error h => exact Meets.throw True.intro

end Triple

end Prog

end InuOs
