import Mathlib.Data.List.Induction

/-!
# Machines with outputs

A machine that consumes one input at a time, changes its state and emits a list of outputs:
`step : S → I → S × List O`. `after` is the state a list of inputs leads to, `emitted` everything
emitted on the way.
-/

namespace InuOs.Mealy

universe u v w

variable {S : Type u} {I : Type v} {O : Type w} (step : S → I → S × List O)

/-- The state after a list of inputs. -/
def after (s : S) : List I → S
  | [] => s
  | i :: is => after (step s i).1 is

/-- Everything emitted during a list of inputs. -/
def emitted (s : S) : List I → List O
  | [] => []
  | i :: is => (step s i).2 ++ emitted (step s i).1 is

theorem after_append (s : S) (is js : List I) :
    after step s (is ++ js) = after step (after step s is) js := by
  induction is generalizing s with
  | nil => rfl
  | cons i is ih => exact ih (step s i).1

theorem after_concat (s : S) (is : List I) (i : I) :
    after step s (is ++ [i]) = (step (after step s is) i).1 :=
  after_append step s is [i]

theorem emitted_append (s : S) (is js : List I) :
    emitted step s (is ++ js) = emitted step s is ++ emitted step (after step s is) js := by
  induction is generalizing s with
  | nil => rfl
  | cons i is ih => simp only [List.cons_append, emitted, after, ih, List.append_assoc]

theorem emitted_concat (s : S) (is : List I) (i : I) :
    emitted step s (is ++ [i]) = emitted step s is ++ (step (after step s is) i).2 := by
  rw [emitted_append, emitted, emitted, List.append_nil]

end InuOs.Mealy
