import InuOs.Sh

/-!
# The tokens of a command line

`lex` is the token sequence of a text: words are the longest runs of other characters, `>>` is taken
before `>`, and the characters of `whitespace` separate. `At buf ps ts` says that the cursor stands
in front of the tokens `ts`. With it `gettoken` and `peek` are described without characters:

* `At.peek` – `peek` moves the cursor to the next token and looks at how it starts (`leads`);
* `At.gettoken_cons` and `At.gettoken_nil` – `gettoken` takes the next token, and hands out a word
  as a maximal run of word characters (`IsWord`).
-/

namespace InuOs.Sh

open Syscall

/-- The operators `<`, `>` and `>>`. -/
inductive RedirOp : Type
  | input
  | output
  | append
  deriving DecidableEq

/-- The mode a redirection opens its file with. -/
def RedirOp.mode : RedirOp → UInt32
  | .input => 0
  | .output | .append => oWronly ||| oCreate

/-- The descriptor a redirection replaces. -/
def RedirOp.fd : RedirOp → ℕ
  | .input => 0
  | .output | .append => 1

/-- A token. -/
inductive Token : Type
  | word (text : List UInt8)
  | bar
  | lparen
  | rparen
  | semi
  | amp
  | redir (op : RedirOp)
  deriving DecidableEq

/-- The token of a symbol that is one character in every context. -/
def symbolToken (c : UInt8) : Option Token :=
  if c = '|'.toUInt8 then some .bar
  else if c = '('.toUInt8 then some .lparen
  else if c = ')'.toUInt8 then some .rparen
  else if c = ';'.toUInt8 then some .semi
  else if c = '&'.toUInt8 then some .amp
  else if c = '<'.toUInt8 then some (.redir .input)
  else none

/-- The tokens of a text. -/
def lex : List UInt8 → List Token
  | [] => []
  | c :: cs =>
    if strchr whitespace c then lex cs
    else if c = '>'.toUInt8 then
      if cs.head? = some '>'.toUInt8 then .redir .append :: lex cs.tail
      else .redir .output :: lex cs
    else match symbolToken c with
      | some t => t :: lex cs
      | none => .word (c :: cs.takeWhile isWordChar) :: lex (cs.dropWhile isWordChar)
  termination_by l => l.length
  decreasing_by
    all_goals simp only [List.length_cons, List.length_tail]
    · omega
    · omega
    · omega
    · omega
    · exact Nat.lt_succ_of_le (List.dropWhile_suffix _).length_le

/-- The value `gettoken` has for a token. -/
def Token.code : Token → UInt8
  | .word _ => 'a'.toUInt8
  | .bar => '|'.toUInt8
  | .lparen => '('.toUInt8
  | .rparen => ')'.toUInt8
  | .semi => ';'.toUInt8
  | .amp => '&'.toUInt8
  | .redir .input => '<'.toUInt8
  | .redir .output => '>'.toUInt8
  | .redir .append => '+'.toUInt8

/-- The character that `peek` tells a token by. A word starts with no symbol, as `'a'` does. -/
def Token.lead : Token → UInt8
  | .redir .append => '>'.toUInt8
  | t => t.code

/-- The next token starts with one of the symbols. -/
def leads (toks : List UInt8) : List Token → Bool
  | [] => false
  | t :: _ => strchr toks t.lead

/-- The argument of `peek` that stands for one token. -/
def Tells (toks : List UInt8) (t : Token) : Prop :=
  toks = [t.lead] ∧ t ∈ [Token.bar, .lparen, .rparen, .semi, .amp]

instance (toks : List UInt8) (t : Token) : Decidable (Tells toks t) :=
  inferInstanceAs (Decidable (_ ∧ _))

variable {u : Token} {toks cs : List UInt8} {c : UInt8}

theorem Token.eq_of_lead_eq {t : Token} (hu : u ∈ [bar, lparen, rparen, semi, amp])
    (h : t.lead = u.lead) : t = u := by
  simp only [List.mem_cons, List.not_mem_nil, or_false] at hu
  rcases hu with rfl | rfl | rfl | rfl | rfl <;> cases t with
  | redir op => cases op <;> exact absurd h (by decide)
  | word w => exact absurd h (by decide : ('a'.toUInt8 : UInt8) ≠ _)
  | _ => first | rfl | exact absurd h (by decide)

theorem Token.eq_word_of_code (t : Token) (h : t.code = 'a'.toUInt8) : ∃ w, t = .word w := by
  cases t with
  | word w => exact ⟨w, rfl⟩
  | redir op => cases op <;> exact absurd h (by decide)
  | _ => exact absurd h (by decide)

theorem Token.code_ne_zero (t : Token) : t.code ≠ 0 := by
  cases t with
  | word w => exact (by decide : 'a'.toUInt8 ≠ 0)
  | redir op => cases op <;> decide
  | _ => decide

theorem leads_iff (hu : Tells toks u) {ts : List Token} :
    leads toks ts = true ↔ ts.head? = some u := by
  obtain ⟨rfl, hu⟩ := hu
  cases ts with
  | nil => simp [leads]
  | cons t ts =>
    simp only [leads, strchr, List.contains_cons, List.contains_nil, Bool.or_false, beq_iff_eq,
      List.head?_cons, Option.some.injEq]
    exact ⟨Token.eq_of_lead_eq hu, congrArg Token.lead⟩

theorem leads_redir {ts : List Token} :
    leads (chars ['<', '>']) ts = true ↔ ∃ op, ts.head? = some (.redir op) := by
  cases ts with
  | nil => simp [leads]
  | cons t ts =>
    cases t with
    | redir op => cases op <;> simp [leads, Token.lead, Token.code] <;> decide
    | _ => simp [leads, Token.lead, Token.code]; decide

/-! ## Lexing -/

theorem lex_space (h : strchr whitespace c = true) : lex (c :: cs) = lex cs := by
  rw [lex, if_pos h]

theorem lex_dropWhile (l : List UInt8) : lex (l.dropWhile (strchr whitespace)) = lex l := by
  induction l with
  | nil => rfl
  | cons c cs ih =>
    rw [List.dropWhile_cons]
    split
    next h => rw [ih, lex_space h]
    next => rfl

theorem lex_cons_ne_nil (h : strchr whitespace c = false) : lex (c :: cs) ≠ [] := by
  rw [lex, if_neg (by rw [h]; decide)]
  split
  · split <;> exact List.cons_ne_nil _ _
  · split <;> exact List.cons_ne_nil _ _

/-- There are no more tokens than characters. -/
theorem length_lex_le (l : List UInt8) : (lex l).length ≤ l.length := by
  fun_induction lex l with
  | case1 => exact le_rfl
  | case2 c cs _ ih => exact Nat.le_succ_of_le ih
  | case3 cs _ _ ih =>
    have htail := cs.length_tail
    simp only [List.length_cons] at ih ⊢
    omega
  | case4 cs _ _ ih => exact Nat.succ_le_succ ih
  | case5 c cs _ _ t _ ih => exact Nat.succ_le_succ ih
  | case6 c cs _ _ _ ih =>
    exact Nat.succ_le_succ (ih.trans (List.dropWhile_suffix _).length_le)

/-! ## The cursor -/

/-- A string that is a maximal run of word characters. -/
structure IsWord (buf : List UInt8) (span : Span) : Prop where
  le : span.q ≤ buf.length
  eq : span.eq = scan isWordChar buf span.q

/-- The text of a string. -/
def Span.text (buf : List UInt8) (span : Span) : List UInt8 := slice buf span.q span.eq

/-- The cursor stands in front of the given tokens. -/
structure At (buf : List UInt8) (ps : ℕ) (ts : List Token) : Prop where
  le : ps ≤ buf.length
  toks : lex (buf.drop ps) = ts

variable {buf : List UInt8} {ps : ℕ} {ts : List Token} {t : Token}

theorem charAt_of_drop (h : buf.drop ps = c :: cs) : charAt buf ps = c := by
  rw [charAt, List.getD_eq_getElem?_getD, ← List.head?_drop, h]
  rfl

theorem charAt_of_drop_nil (h : buf.drop ps = []) : charAt buf ps = 0 := by
  rw [charAt, List.getD_eq_getElem?_getD, ← List.head?_drop, h]
  rfl

theorem drop_succ_of_drop (h : buf.drop ps = c :: cs) : buf.drop (ps + 1) = cs := by
  rw [← List.drop_drop, h]
  rfl

/-- Skipping white space. -/
theorem At.skip (h : At buf ps ts) : At buf (scan (strchr whitespace) buf ps) ts where
  le := scan_le _ h.le
  toks := by rw [drop_scan, lex_dropWhile, h.toks]

/-- The next character after white space is no white space. -/
theorem drop_skip (buf : List UInt8) (ps : ℕ) :
    buf.drop (scan (strchr whitespace) buf ps) = [] ∨
      ∃ c cs, buf.drop (scan (strchr whitespace) buf ps) = c :: cs ∧
        strchr whitespace c = false := by
  rw [drop_scan]
  cases hrest : (buf.drop ps).dropWhile (strchr whitespace) with
  | nil => exact .inl rfl
  | cons c cs =>
    refine .inr ⟨c, cs, rfl, ?_⟩
    have hhead := List.head?_dropWhile_not (strchr whitespace) (buf.drop ps)
    rw [hrest] at hhead
    simpa using hhead

/-- What stands one character further on. -/
theorem At.next (h : buf.drop ps = c :: cs) : At buf (ps + 1) (lex cs) := by
  have hlength := congrArg List.length h
  rw [List.length_drop, List.length_cons] at hlength
  exact ⟨by omega, by rw [drop_succ_of_drop h]⟩

/-! ## How a token starts -/

/-- A character other than `>` is a symbol of its own or no symbol at all. -/
theorem symbolToken_cases (hc : c ≠ '>'.toUInt8) :
    (∃ t, symbolToken c = some t ∧ t.code = c ∧ t.lead = c ∧ (∀ w, t ≠ .word w) ∧
      strchr (chars ['|', '(', ')', ';', '&', '<']) c = true) ∨
    (symbolToken c = none ∧ strchr (chars ['|', '(', ')', ';', '&', '<']) c = false ∧
      strchr symbols c = false) := by
  by_cases hmem : c ∈ chars ['|', '(', ')', ';', '&', '<']
  · left
    have hall : ∀ c ∈ chars ['|', '(', ')', ';', '&', '<'],
        ∃ t, symbolToken c = some t ∧ t.code = c ∧ t.lead = c ∧ (∀ w, t ≠ .word w) := by
      intro c hc
      simp only [chars, List.map_cons, List.map_nil, List.mem_cons, List.not_mem_nil,
        or_false] at hc
      rcases hc with rfl | rfl | rfl | rfl | rfl | rfl <;> exact ⟨_, rfl, rfl, rfl, nofun⟩
    obtain ⟨t, htoken, hcode, hlead, hword⟩ := hall c hmem
    exact ⟨t, htoken, hcode, hlead, hword, List.contains_iff_mem.mpr hmem⟩
  · right
    simp only [chars, List.map_cons, List.map_nil, List.mem_cons, List.not_mem_nil, or_false,
      not_or] at hmem
    obtain ⟨h1, h2, h3, h4, h5, h6⟩ := hmem
    refine ⟨by simp [symbolToken, h1, h2, h3, h4, h5, h6], ?_, ?_⟩
    · simp [strchr, chars, h1, h2, h3, h4, h5, h6]
    · simp [strchr, symbols, chars, h1, h2, h3, h4, h5, h6, hc]

theorem lex_lead (hspace : strchr whitespace c = false) (htoks : toks ⊆ symbols) :
    leads toks (lex (c :: cs)) = strchr toks c := by
  rw [lex, if_neg (by rw [hspace]; decide)]
  by_cases hgt : c = '>'.toUInt8
  · rw [if_pos hgt, hgt]
    split <;> rfl
  · rw [if_neg hgt]
    rcases symbolToken_cases hgt with ⟨t, htoken, -, hlead, -, -⟩ | ⟨htoken, -, hsymbol⟩
    · rw [htoken]
      simp only [leads, hlead]
    · have hnone : ∀ a, a ∉ symbols → strchr toks a = false := by
        intro a ha
        simpa [strchr] using fun hmem => ha (htoks hmem)
      rw [htoken]
      simp only [leads, Token.lead, Token.code]
      rw [hnone _ (by decide), hnone c (by simpa [strchr] using hsymbol)]

theorem isWordChar_of_not_symbol (hspace : strchr whitespace c = false)
    (hsymbol : strchr symbols c = false) : isWordChar c = true := by
  rw [isWordChar, hspace, hsymbol]
  rfl

/-! ## The functions at a cursor -/

section

variable (hbuf : ∀ c ∈ buf, c ≠ 0)
include hbuf

/-- `peek` at a cursor. -/
theorem At.peek (h : At buf ps ts) (htoks : toks ⊆ symbols) :
    ∃ s, peek buf ps toks = (leads toks ts, s) ∧ At buf s ts := by
  refine ⟨_, Prod.ext ?_ rfl, h.skip⟩
  rw [← h.skip.toks]
  rcases drop_skip buf ps with hnil | ⟨c, cs, hcons, hspace⟩
  · simp [Sh.peek, charAt_of_drop_nil hnil, hnil, lex, leads]
  · have hc : c ≠ 0 := hbuf c (List.mem_of_mem_drop (hcons ▸ List.mem_cons_self))
    rw [hcons, lex_lead hspace htoks]
    simp [Sh.peek, charAt_of_drop hcons, hc]

omit hbuf in
/-- `gettoken` at the end of the line. -/
theorem At.gettoken_nil (h : At buf ps []) :
    (gettoken buf ps).ret = 0 ∧ At buf (gettoken buf ps).ps [] := by
  rcases drop_skip buf ps with hnil | ⟨c, cs, hcons, hspace⟩
  · have hend : tokenAt buf (scan (strchr whitespace) buf ps) =
        (0, scan (strchr whitespace) buf ps) := by
      rw [tokenAt, charAt_of_drop_nil hnil]
      rfl
    simp only [gettoken, hend]
    exact ⟨trivial, h.skip.skip⟩
  · have htoks := h.skip.toks
    rw [hcons] at htoks
    exact absurd htoks (lex_cons_ne_nil hspace)

/-- The `switch` of `gettoken` in front of a token. -/
theorem tokenAt_eq (hcons : buf.drop ps = c :: cs) (hspace : strchr whitespace c = false)
    (htoks : lex (c :: cs) = t :: ts) :
    ∃ e, tokenAt buf ps = (t.code, e) ∧ At buf e ts ∧
      ∀ w, t = .word w → e = scan isWordChar buf ps ∧ slice buf ps e = w := by
  have hc : c ≠ 0 := hbuf c (List.mem_of_mem_drop (hcons ▸ List.mem_cons_self))
  rw [lex, if_neg (by rw [hspace]; decide)] at htoks
  rw [tokenAt, charAt_of_drop hcons, if_neg hc]
  by_cases hgt : c = '>'.toUInt8
  · rw [if_pos hgt] at htoks
    rw [if_neg (by rw [hgt]; decide), if_pos hgt]
    split at htoks
    next hdouble =>
      obtain ⟨rfl, rfl⟩ := List.cons.inj htoks
      obtain ⟨cs, rfl⟩ := List.head?_eq_some_iff.mp hdouble
      have hnext := drop_succ_of_drop hcons
      rw [if_pos (charAt_of_drop hnext)]
      exact ⟨_, rfl, At.next hnext, nofun⟩
    next hone =>
      obtain ⟨rfl, rfl⟩ := List.cons.inj htoks
      have hother : charAt buf (ps + 1) ≠ '>'.toUInt8 := by
        cases cs with
        | nil =>
          rw [charAt_of_drop_nil (drop_succ_of_drop hcons)]
          decide
        | cons d cs =>
          rw [charAt_of_drop (drop_succ_of_drop hcons)]
          exact fun hd => hone (congrArg some hd)
      rw [if_neg hother]
      exact ⟨_, Prod.ext hgt rfl, At.next hcons, nofun⟩
  · rw [if_neg hgt] at htoks
    rcases symbolToken_cases hgt with
      ⟨u, htoken, hcode, -, hword, hstr⟩ | ⟨htoken, hstr, hsymbol⟩
    · rw [htoken] at htoks
      obtain ⟨rfl, rfl⟩ := List.cons.inj htoks
      rw [if_pos hstr, hcode]
      exact ⟨_, rfl, At.next hcons, fun w hw => absurd hw (hword w)⟩
    · rw [htoken] at htoks
      obtain ⟨rfl, rfl⟩ := List.cons.inj htoks
      have hchar : isWordChar c = true := isWordChar_of_not_symbol hspace hsymbol
      have hle : ps ≤ buf.length := by
        have hlength := congrArg List.length hcons
        rw [List.length_drop, List.length_cons] at hlength
        omega
      rw [if_neg (by rw [hstr]; decide), if_neg hgt]
      refine ⟨_, rfl, ⟨scan_le _ hle, ?_⟩, fun w hw => ⟨rfl, ?_⟩⟩
      · rw [drop_scan, hcons, List.dropWhile_cons_of_pos hchar]
      · rw [slice_scan, hcons, List.takeWhile_cons_of_pos hchar, ← Token.word.inj hw]

/-- `gettoken` in front of a token. -/
theorem At.gettoken_cons (h : At buf ps (t :: ts)) :
    (gettoken buf ps).ret = t.code ∧ At buf (gettoken buf ps).ps ts ∧
      ∀ w, t = .word w →
        IsWord buf (gettoken buf ps).span ∧ (gettoken buf ps).span.text buf = w := by
  have htoks := h.skip.toks
  rcases drop_skip buf ps with hnil | ⟨c, cs, hcons, hspace⟩
  · rw [hnil, lex] at htoks
    exact nomatch htoks
  · rw [hcons] at htoks
    obtain ⟨e, htoken, hat, hword⟩ := tokenAt_eq hbuf hcons hspace htoks
    simp only [gettoken, htoken]
    exact ⟨trivial, hat.skip, fun w hw => ⟨⟨h.skip.le, (hword w hw).1⟩, (hword w hw).2⟩⟩

/-- `gettoken` in front of a word. -/
theorem At.gettoken_word {w : List UInt8} (h : At buf ps (.word w :: ts)) :
    (gettoken buf ps).ret = 'a'.toUInt8 ∧ At buf (gettoken buf ps).ps ts ∧
      IsWord buf (gettoken buf ps).span ∧ (gettoken buf ps).span.text buf = w :=
  have ⟨hcode, hnext, hword⟩ := h.gettoken_cons hbuf
  ⟨hcode, hnext, hword w rfl⟩

/-- `gettoken` says that it took a word. -/
theorem At.gettoken_eq_word (h : At buf ps ts) (hret : (gettoken buf ps).ret = 'a'.toUInt8) :
    ∃ w us, ts = .word w :: us ∧ At buf (gettoken buf ps).ps us ∧
      IsWord buf (gettoken buf ps).span ∧ (gettoken buf ps).span.text buf = w := by
  cases ts with
  | nil =>
    rw [h.gettoken_nil.1] at hret
    exact absurd hret (by decide)
  | cons t us =>
    obtain ⟨hcode, hus, hword⟩ := h.gettoken_cons hbuf
    obtain ⟨w, rfl⟩ := t.eq_word_of_code (hcode ▸ hret)
    exact ⟨w, us, rfl, hus, hword w rfl⟩

/-- `gettoken` says that it found the end of the line. -/
theorem At.gettoken_eq_zero (h : At buf ps ts) (hret : (gettoken buf ps).ret = 0) :
    ts = [] ∧ At buf (gettoken buf ps).ps [] := by
  cases ts with
  | nil => exact ⟨rfl, h.gettoken_nil.2⟩
  | cons t us => exact absurd ((h.gettoken_cons hbuf).1 ▸ hret) t.code_ne_zero

end

end InuOs.Sh
