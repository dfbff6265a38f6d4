import InuOs.Lib.Prog

/-!
# Programs that follow a function

`runS` is the run of a program alone, like `run`, but it keeps the state that the program ends in,
also when it halts.

* `runAmong` is the run of a program among others that may let it pass where it would wait.
* `Ends E x s Q` — run in state `s`, program `x` returns with `Q`, or halts with a reason and in a
  state with `E`.
* `Follows T x s f E Q` — run in state `s`, program `x` does what the value `f` of a fallible
  function says: it returns if `f` is a result, and `Q` relates the two; it fails with the same
  error if `f` is one, in a state with `E`. It may also halt for a reason in `T`, which the function
  knows nothing of. A program is followed step by step along the function (`Follows.bind`); steps
  that the function knows nothing of are run (`Follows.step`, `Follows.pass`).
-/

namespace InuOs.Prog

variable {σ ε ω α β γ δ : Type}

/-! ## Runs that keep the state -/

/-- The run of a program among others: where it has to wait for `w`, they change the state by
`others w`. A wait that does not pass then never will. -/
def runAmong (others : ω → σ → σ) : Prog σ ε ω α → σ → Except (Halt ε ω) (α × σ)
  | .ret a, s => .ok (a, s)
  | .act f k, s =>
    match f s with
    | .error e => .error (.fail e)
    | .ok (b, s) => (k b).runAmong others s
  | .wait w pass k, s =>
    match (pass s).or (pass (others w s)) with
    | none => .error (.stuck w)
    | some s => k.runAmong others s

/-- The run of a program alone, with the state that it ends in. -/
def runS : Prog σ ε ω α → σ → Except (Halt ε ω × σ) (α × σ)
  | .ret a, s => .ok (a, s)
  | .act f k, s =>
    match f s with
    | .error e => .error (.fail e, s)
    | .ok (b, s) => (k b).runS s
  | .wait w pass k, s =>
    match pass s with
    | none => .error (.stuck w, s)
    | some s => k.runS s

/-- Forget the state of a halted run. -/
theorem run_eq (x : Prog σ ε ω α) (s : σ) : x.run s = (x.runS s).mapError Prod.fst := by
  induction x generalizing s with
  | ret a => rfl
  | act f k ih =>
    rw [run, runS]
    cases f s with
    | error e => rfl
    | ok r => exact ih r.1 r.2
  | wait w pass k ih =>
    rw [run, runS]
    cases pass s with
    | none => rfl
    | some s => exact ih s

variable {x : Prog σ ε ω α} {s s' : σ} {k : α → Prog σ ε ω β} {a : α} {f : σ → Except ε (α × σ)}
  {w : ω} {c : Prop} {b : β} {e : ε} {g : Except ε δ} {R : δ → γ → σ → Prop}

theorem run_of_runS_ok {r : α × σ} (h : x.runS s = .ok r) : x.run s = .ok r := by
  rw [run_eq, h]
  rfl

theorem run_of_runS_error {e : Halt ε ω} (h : x.runS s = .error (e, s')) : x.run s = .error e := by
  rw [run_eq, h]
  rfl

@[simp] theorem runS_pure (a : α) (s : σ) : (pure a : Prog σ ε ω α).runS s = .ok (a, s) := rfl

theorem runS_bind (x : Prog σ ε ω α) (k : α → Prog σ ε ω β) (s : σ) :
    (x >>= k).runS s = x.runS s >>= fun r => (k r.1).runS r.2 := by
  induction x generalizing s with
  | ret a => rfl
  | act g h ih =>
    change (Prog.act g fun b => (h b).bind k).runS s = _
    simp only [runS]
    cases g s with
    | error e => rfl
    | ok r => exact ih r.1 r.2
  | wait w pass h ih =>
    change (Prog.wait w pass (h.bind k)).runS s = _
    simp only [runS]
    cases pass s with
    | none => rfl
    | some s => exact ih s

/-- After a first part that returns. -/
theorem runS_bind_ok (h : x.runS s = .ok (a, s')) : (x >>= k).runS s = (k a).runS s' := by
  rw [runS_bind, h]
  rfl

/-- After a first part that halts. -/
theorem runS_bind_error {e : Halt ε ω × σ} (h : x.runS s = .error e) :
    (x >>= k).runS s = .error e := by
  rw [runS_bind, h]
  rfl

@[simp] theorem runS_get (f : σ → α) (s : σ) : (get f : Prog σ ε ω α).runS s = .ok (f s, s) := rfl

@[simp] theorem runS_modify (f : σ → σ) (s : σ) :
    (modify f : Prog σ ε ω Unit).runS s = .ok ((), f s) := rfl

theorem runS_atomic (h : f s = .ok (a, s')) : (atomic f : Prog σ ε ω α).runS s = .ok (a, s') := by
  rw [atomic, runS, h]
  rfl

theorem runS_update {f : σ → Except ε σ} (h : f s = .ok s') :
    (update f : Prog σ ε ω Unit).runS s = .ok ((), s') := by
  rw [update, runS, h]
  rfl

theorem runS_await {pass : σ → Option σ} (h : pass s = some s') :
    (await w pass : Prog σ ε ω Unit).runS s = .ok ((), s') := by
  rw [await, runS, h]
  rfl

theorem runS_await_stuck {pass : σ → Option σ} (h : pass s = none) :
    (await w pass : Prog σ ε ω Unit).runS s = .error (.stuck w, s) := by
  rw [await, runS, h]

/-- A run alone that does not get stuck never waits. -/
theorem runAmong_eq {others : ω → σ → σ} (h : ∀ w t, x.runS s ≠ .error (.stuck w, t)) :
    x.runAmong others s = (x.runS s).mapError Prod.fst := by
  induction x generalizing s with
  | ret a => rfl
  | act f k ih =>
    rw [runS] at h ⊢
    rw [runAmong]
    cases hf : f s with
    | error e => rfl
    | ok r =>
      rw [hf] at h
      exact ih r.1 h
  | wait w pass k ih =>
    rw [runS] at h ⊢
    rw [runAmong]
    cases hpass : pass s with
    | none =>
      rw [hpass] at h
      exact absurd rfl (h w s)
    | some t =>
      rw [hpass] at h
      exact ih h

theorem runAmong_of_runS_ok {others : ω → σ → σ} {r : α × σ} (h : x.runS s = .ok r) :
    x.runAmong others s = .ok r := by
  rw [runAmong_eq (by simp [h]), h]
  rfl

theorem runAmong_of_runS_fail {others : ω → σ → σ} (h : x.runS s = .error (.fail e, s')) :
    x.runAmong others s = .error (.fail e) := by
  rw [runAmong_eq (by simp [h]), h]
  rfl

theorem runAmong_bind (others : ω → σ → σ) (x : Prog σ ε ω α) (k : α → Prog σ ε ω β) (s : σ) :
    (x >>= k).runAmong others s = x.runAmong others s >>= fun r => (k r.1).runAmong others r.2 := by
  induction x generalizing s with
  | ret a => rfl
  | act g h ih =>
    change (Prog.act g fun b => (h b).bind k).runAmong others s = _
    simp only [runAmong]
    cases g s with
    | error e => rfl
    | ok r => exact ih r.1 r.2
  | wait w pass h ih =>
    change (Prog.wait w pass (h.bind k)).runAmong others s = _
    simp only [runAmong]
    cases (pass s).or (pass (others w s)) with
    | none => rfl
    | some s => exact ih s

theorem runAmong_bind_ok {others : ω → σ → σ} (h : x.runS s = .ok (a, s')) :
    (x >>= k).runAmong others s = (k a).runAmong others s' := by
  rw [runAmong_bind, runAmong_of_runS_ok h]
  rfl

theorem runAmong_await {others : ω → σ → σ} {pass : σ → Option σ}
    (h : (pass s).or (pass (others w s)) = some s') :
    (await w pass : Prog σ ε ω Unit).runAmong others s = .ok ((), s') := by
  rw [await, runAmong, h]
  rfl

theorem runAmong_await_stuck {others : ω → σ → σ} {pass : σ → Option σ}
    (h : (pass s).or (pass (others w s)) = none) :
    (await w pass : Prog σ ε ω Unit).runAmong others s = .error (.stuck w) := by
  rw [await, runAmong, h]

theorem when_pos [Decidable c] (h : c) (x : Prog σ ε ω Unit) : when c x = x := if_pos h

theorem when_neg [Decidable c] (h : ¬ c) (x : Prog σ ε ω Unit) : when c x = pure () :=
  if_neg h

/-! ## Following a function -/

/-- Run in state `s`, program `x` returns `a` in state `s'`, or halts for a reason in `T`. -/
def Passes (T : Halt ε ω → Prop) (x : Prog σ ε ω α) (s : σ) (a : α) (s' : σ) : Prop :=
  x.runS s = .ok (a, s') ∨ ∃ h t, x.runS s = .error (h, t) ∧ T h

/-- Run in state `s`, program `x` does what `f` says, or halts for a reason in `T`. It is
irreducible so that unification never runs the program. -/
@[irreducible] def Follows (T : Halt ε ω → Prop) (x : Prog σ ε ω α) (s : σ) (f : Except ε β)
    (E : σ → Prop) (Q : β → α → σ → Prop) : Prop :=
  (∃ h t, x.runS s = .error (h, t) ∧ T h) ∨
  match f with
  | .ok b => ∃ a s', x.runS s = .ok (a, s') ∧ Q b a s'
  | .error e => ∃ s', x.runS s = .error (.fail e, s') ∧ E s'

namespace Passes

variable {T : Halt ε ω → Prop} {x : Prog σ ε ω α} {s s' s'' : σ} {a : α} {b : β}

theorem ok (h : x.runS s = .ok (a, s')) : Passes T x s a s' := .inl h

theorem bind (hx : Passes T x s a s') (hk : Passes T (k a) s' b s'') :
    Passes T (x >>= k) s b s'' := by
  rcases hx with hrun | ⟨h, t, hrun, hT⟩
  · rw [Passes, runS_bind_ok hrun]
    exact hk
  · exact .inr ⟨h, t, runS_bind_error hrun, hT⟩

end Passes

namespace Follows

variable {T : Halt ε ω → Prop} {x : Prog σ ε ω α} {s : σ} {f : Except ε β} {E : σ → Prop}
  {Q : β → α → σ → Prop}

theorem ok (h : x.runS s = .ok (a, s')) (hQ : Q b a s') : Follows T x s (.ok b) E Q := by
  unfold Follows
  exact .inr ⟨a, s', h, hQ⟩

protected theorem pure {a : α} {b : β} (hQ : Q b a s) :
    Follows T (pure a : Prog σ ε ω α) s (Pure.pure b) E Q :=
  ok rfl hQ

theorem fail (hE : E s) : Follows T (Prog.fail e : Prog σ ε ω α) s (throw e) E Q := by
  unfold Follows
  exact .inr ⟨s, rfl, hE⟩

/-- A run that halts for a reason in `T`. -/
theorem halt {h : Halt ε ω} {t : σ} (hrun : x.runS s = .error (h, t)) (hT : T h) :
    Follows T x s f E Q := by
  unfold Follows
  exact .inl ⟨h, t, hrun, hT⟩

/-- A part of the program and the part of the function that it follows. -/
protected theorem bind {k : α → Prog σ ε ω γ} {g : β → Except ε δ} {R : δ → γ → σ → Prop}
    (hx : Follows T x s f E Q)
    (hk : ∀ b a s', f = .ok b → Q b a s' → Follows T (k a) s' (g b) E R) :
    Follows T (x >>= k) s (f >>= g) E R := by
  unfold Follows at hx
  rcases hx with ⟨h, t, hrun, hT⟩ | hx
  · exact halt (runS_bind_error hrun) hT
  cases f with
  | error e =>
    obtain ⟨s', hrun, hE⟩ := hx
    unfold Follows
    exact .inr ⟨s', runS_bind_error hrun, hE⟩
  | ok b =>
    obtain ⟨a, s', hrun, hQ⟩ := hx
    have hk := hk b a s' rfl hQ
    unfold Follows at hk ⊢
    rw [runS_bind_ok hrun]
    exact hk

/-- Several parts of the program that the function knows nothing of. -/
theorem of_runS {y : Prog σ ε ω α} (h : x.runS s = y.runS s') (hy : Follows T y s' f E Q) :
    Follows T x s f E Q := by
  unfold Follows at hy ⊢
  rw [h]
  exact hy

/-- A part of the program that the function knows nothing of. -/
theorem step {k : α → Prog σ ε ω γ} (hx : x.runS s = .ok (a, s')) (hk : Follows T (k a) s' g E R) :
    Follows T (x >>= k) s g E R :=
  of_runS (runS_bind_ok hx) hk

/-- A part that may halt. -/
theorem pass {k : α → Prog σ ε ω γ} (hx : Passes T x s a s') (hk : Follows T (k a) s' g E R) :
    Follows T (x >>= k) s g E R := by
  rcases hx with hrun | ⟨h, t, hrun, hT⟩
  · exact step hrun hk
  · exact halt (runS_bind_error hrun) hT

theorem mono {Q' : β → α → σ → Prop} (hx : Follows T x s f E Q)
    (h : ∀ b a s', f = .ok b → Q b a s' → Q' b a s') : Follows T x s f E Q' := by
  unfold Follows at hx ⊢
  refine hx.imp_right fun hx => ?_
  cases f with
  | error e => exact hx
  | ok b =>
    obtain ⟨a, s', hrun, hQ⟩ := hx
    exact ⟨a, s', hrun, h b a s' rfl hQ⟩

/-- What the function does not fail to do, the program does. -/
theorem exists_ok (hx : Follows (fun _ => False) x s f E Q) (hf : f = .ok b) :
    ∃ a s', x.runS s = .ok (a, s') ∧ Q b a s' := by
  unfold Follows at hx
  rw [hf] at hx
  exact hx.resolve_left fun ⟨_, _, _, hT⟩ => hT

end Follows

/-! ## How runs end -/

/-- Run in state `s`, program `x` returns with `Q` or halts with `E`. -/
def Ends (E : Halt ε ω → σ → Prop) (x : Prog σ ε ω α) (s : σ) (Q : α → σ → Prop) : Prop :=
  Meets (x.runS s) (fun e => E e.1 e.2) fun r => Q r.1 r.2

/-- What a function does and how it fails, for the program that follows it. -/
theorem Follows.ends {T : Halt ε ω → Prop} {f : Except ε β} {E : σ → Prop} {Q : β → α → σ → Prop}
    {F : ε → Prop} {P : β → Prop} (hx : Follows T x s f E Q) (hf : Meets f F P) :
    Ends (fun h s' => T h ∨ ∃ e, h = .fail e ∧ F e ∧ E s') x s fun a s' => ∃ b, P b ∧ Q b a s' := by
  unfold Follows at hx
  rcases hx with ⟨h, t, hrun, hT⟩ | hx
  · rw [Ends, hrun]
    exact Meets.throw (.inl hT)
  cases f with
  | error e =>
    obtain ⟨s', hrun, hE⟩ := hx
    rw [Ends, hrun]
    exact Meets.throw (.inr ⟨e, rfl, hf.of_error rfl, hE⟩)
  | ok b =>
    obtain ⟨a, s', hrun, hQ⟩ := hx
    rw [Ends, hrun]
    exact Meets.pure ⟨b, hf.of_ok rfl, hQ⟩

namespace Ends

variable {E : Halt ε ω → σ → Prop} {x : Prog σ ε ω α} {s : σ} {Q : α → σ → Prop}

protected theorem pure {a : α} (h : Q a s) : Ends E (pure a) s Q := Meets.pure h

protected theorem bind {k : α → Prog σ ε ω β} {R : β → σ → Prop} (hx : Ends E x s Q)
    (hk : ∀ a s', Q a s' → Ends E (k a) s' R) : Ends E (x >>= k) s R := by
  rw [Ends, runS_bind]
  exact Meets.bind hx fun r hr => hk r.1 r.2 hr

theorem mono {Q' : α → σ → Prop} (hx : Ends E x s Q) (h : ∀ a s', Q a s' → Q' a s') :
    Ends E x s Q' :=
  Meets.mono hx fun r hr => h r.1 r.2 hr

theorem mono_error {E' : Halt ε ω → σ → Prop} (hx : Ends E x s Q) (h : ∀ e s', E e s' → E' e s') :
    Ends E' x s Q :=
  Meets.mono_error hx fun e he => h e.1 e.2 he

theorem get {f : σ → α} (h : Q (f s) s) : Ends E (Prog.get f) s Q := Meets.pure h

theorem modify {f : σ → σ} {Q : Unit → σ → Prop} (h : Q () (f s)) : Ends E (Prog.modify f) s Q :=
  Meets.pure h

theorem fail (h : E (.fail e) s) : Ends E (Prog.fail e) s Q := Meets.throw h

theorem atomic (h : Meets (f s) (fun e => E (.fail e) s) fun r => Q r.1 r.2) :
    Ends E (Prog.atomic f) s Q := by
  rw [Ends, Prog.atomic, runS]
  cases hf : f s with
  | error e => exact Meets.throw (h.of_error hf)
  | ok r => exact Meets.pure (h.of_ok hf)

theorem update {f : σ → Except ε σ} {Q : Unit → σ → Prop}
    (h : Meets (f s) (fun e => E (.fail e) s) (Q ())) : Ends E (Prog.update f) s Q :=
  Ends.atomic (Meets.map _ h)

theorem await {pass : σ → Option σ} {Q : Unit → σ → Prop} (h : ∀ s', pass s = some s' → Q () s')
    (hE : E (.stuck w) s) : Ends E (Prog.await w pass) s Q := by
  rw [Ends, Prog.await, runS]
  cases hp : pass s with
  | none => exact Meets.throw hE
  | some s' => exact Meets.pure (h s' hp)

theorem when [Decidable c] {x : Prog σ ε ω Unit} {Q : Unit → σ → Prop} (hx : c → Ends E x s Q)
    (hn : ¬ c → Q () s) : Ends E (Prog.when c x) s Q := by
  unfold Prog.when
  split
  · next hc => exact hx hc
  · next hc => exact Ends.pure (hn hc)

end Ends

end InuOs.Prog
