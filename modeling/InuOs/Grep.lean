import Mathlib.Data.List.Infix

/-!
# Texts that match a pattern (`grep.c`)

A string is the list of its bytes before the 0. `Here` says which texts begin with a match of a
pattern; the matcher decides it (`matchhere_iff`).
-/

namespace InuOs.Grep

/-- `'*'` -/
def star : UInt8 := 42
/-- `'.'` -/
def dot : UInt8 := 46
/-- `'$'` -/
def dollar : UInt8 := 36
/-- `'^'` -/
def caret : UInt8 := 94

/-- `matchstar`, given `matchhere` of the pattern behind the star -/
def matchstar (matchhere : List UInt8 → Bool) (c : UInt8) : List UInt8 → Bool
  | [] => matchhere []
  | b :: text => matchhere (b :: text) || (b = c || c = dot) && matchstar matchhere c text

/-- The last test of `matchhere`, given `matchhere` of the rest of the pattern. -/
def matchone (matchhere : List UInt8 → Bool) (c : UInt8) : List UInt8 → Bool
  | [] => false
  | b :: text => (c = dot || c = b) && matchhere text

/-- `matchhere` -/
def matchhere : List UInt8 → List UInt8 → Bool
  | [], _ => true
  | [c], text => if c = dollar then text.isEmpty else matchone (matchhere []) c text
  | c :: d :: re, text =>
    if d = star then matchstar (matchhere re) c text else matchone (matchhere (d :: re)) c text

/-- `match` -/
def matchText (re text : List UInt8) : Bool :=
  if re.head? = some caret then matchhere re.tail text else text.tails.any (matchhere re)

/-- The texts that begin with a match of a pattern. -/
inductive Here : List UInt8 → List UInt8 → Prop where
  | nil (text) : Here [] text
  | star (c) {re rep text} : (∀ b ∈ rep, b = c ∨ c = dot) → Here re text →
    Here (c :: Grep.star :: re) (rep ++ text)
  | dollar : Here [Grep.dollar] []
  | one {c re b text} : re.head? ≠ some Grep.star → c :: re ≠ [Grep.dollar] → (c = dot ∨ c = b) →
    Here re text → Here (c :: re) (b :: text)

theorem matchstar_iff (f : List UInt8 → Bool) (c : UInt8) (text : List UInt8) :
    matchstar f c text ↔ ∃ rep rest, text = rep ++ rest ∧
      (∀ b ∈ rep, b = c ∨ c = dot) ∧ f rest := by
  induction text with
  | nil =>
    constructor
    · exact fun h => ⟨[], [], rfl, nofun, h⟩
    · rintro ⟨rep, rest, htext, -, h⟩
      obtain ⟨-, rfl⟩ := List.append_eq_nil_iff.mp htext.symm
      exact h
  | cons b text ih =>
    simp only [matchstar, Bool.or_eq_true, Bool.and_eq_true, decide_eq_true_eq, ih]
    constructor
    · rintro (h | ⟨hb, rep, rest, rfl, hrep, h⟩)
      · exact ⟨[], _, rfl, nofun, h⟩
      · exact ⟨b :: rep, rest, rfl, List.forall_mem_cons.mpr ⟨hb, hrep⟩, h⟩
    · rintro ⟨rep, rest, htext, hrep, h⟩
      rcases List.cons_eq_append_iff.mp htext with ⟨-, rfl⟩ | ⟨rep', rfl, rfl⟩
      · exact .inl h
      · obtain ⟨hb, hrep⟩ := List.forall_mem_cons.mp hrep
        exact .inr ⟨hb, rep', rest, rfl, hrep, h⟩

theorem here_one_iff {c : UInt8} {re : List UInt8} (hstar : re.head? ≠ some star)
    (hdollar : c :: re ≠ [dollar]) (hre : ∀ text, matchhere re text ↔ Here re text)
    (text : List UInt8) : matchone (matchhere re) c text ↔ Here (c :: re) text := by
  cases text with
  | nil =>
    refine iff_of_false nofun fun h => ?_
    generalize htext : ([] : List UInt8) = text at h
    cases h with
    | star => exact hstar rfl
    | dollar => exact hdollar rfl
    | one => cases htext
  | cons b text =>
    rw [matchone, Bool.and_eq_true, Bool.or_eq_true, decide_eq_true_eq, decide_eq_true_eq, hre]
    constructor
    · exact fun ⟨hb, h⟩ => .one hstar hdollar hb h
    · intro h
      generalize htext : b :: text = text' at h
      cases h with
      | star => exact absurd rfl hstar
      | dollar => exact absurd rfl hdollar
      | one _ _ hb h =>
        cases htext
        exact ⟨hb, h⟩

/-- **`matchhere`** tells whether the text begins with a match. -/
theorem matchhere_iff : ∀ re text, matchhere re text ↔ Here re text
  | [], text => iff_of_true rfl (.nil text)
  | [c], text => by
    rw [matchhere]
    split_ifs with hc
    · subst hc
      rw [List.isEmpty_iff]
      constructor
      · rintro rfl
        exact .dollar
      · intro h
        cases h with
        | dollar => rfl
        | one _ hdollar => exact absurd rfl hdollar
    · exact here_one_iff (by simp) (by simpa using hc) (matchhere_iff []) text
  | c :: d :: re, text => by
    rw [matchhere]
    split_ifs with hd
    · subst hd
      simp only [matchstar_iff, matchhere_iff re]
      constructor
      · rintro ⟨rep, rest, rfl, hrep, h⟩
        exact .star c hrep h
      · intro h
        cases h with
        | star _ hrep h => exact ⟨_, _, rfl, hrep, h⟩
        | one hstar => exact absurd rfl hstar
    · exact here_one_iff (by simpa using hd) (by simp) (matchhere_iff (d :: re)) text

/-- **`match`**: the text, or some end of it, begins with a match; the text itself behind a
`'^'`. -/
theorem matchText_iff (re text : List UInt8) :
    matchText re text ↔
      if re.head? = some caret then Here re.tail text else ∃ rest, rest <:+ text ∧
        Here re rest := by
  rw [matchText]
  split_ifs
  · exact matchhere_iff re.tail text
  · simp only [List.any_eq_true, List.mem_tails, matchhere_iff]

end InuOs.Grep
