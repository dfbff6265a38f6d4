import InuOs.Lib.Except
import InuOs.ShTokens
import Mathlib.Data.List.Induction
import Mathlib.Data.UInt
import Mathlib.Logic.Function.Iterate

/-!
# The shell parser accepts its grammar

`Derives` is the grammar of command lines, with the tree of each derivation. The parser is compared
with it at a cursor, over every buffer and every amount of fuel:

* **Soundness** (`sound`): by induction on the fuel. What a function of the parser takes from the
  line is derivable with the tree it returns, and it runs out of fuel only if there was less than
  four steps for each token.
* **Completeness** (`Derives.parse`): by induction on the derivation. In front of a derivable part
  of the line that is followed by what can follow it, the function returns the tree of the
  derivation or runs out of fuel.

`nulterminate` writes behind words only, and a word is a maximal run, so it cuts no other string. -/

namespace InuOs.Sh

open Syscall

/-! ## The grammar -/

/-- A redirection of a derivation. -/
structure Redirection : Type where
  op : RedirOp
  file : List UInt8

/-- `redirs ::= {('<' | '>' | '>>') word}` -/
def redirTokens (rs : List Redirection) : List Token :=
  rs.flatMap fun r => [.redir r.op, .word r.file]

/-- The tree with redirections around it, the first one innermost. -/
def Cmd.redirs (cmd : Cmd (List UInt8)) (rs : List Redirection) : Cmd (List UInt8) :=
  rs.foldl (fun cmd r => .redir cmd r.file r.op.mode r.op.fd) cmd

theorem Cmd.redirs_append (cmd : Cmd (List UInt8)) (rs rs' : List Redirection) :
    cmd.redirs (rs ++ rs') = (cmd.redirs rs).redirs rs' :=
  List.foldl_append

/-- An argument with the redirections after it. -/
structure Arg : Type where
  word : List UInt8
  redirs : List Redirection

/-- `{word redirs}` -/
def argTokens (args : List Arg) : List Token :=
  args.flatMap fun a => .word a.word :: redirTokens a.redirs

/-- The nonterminals with a tree. -/
inductive Nonterminal : Type
  | line
  | pipe
  | exec

/-- The derivations of the grammar, with their trees:

* `line ::= pipe {'&'} [';' line]`
* `pipe ::= exec ['|' pipe]`
* `exec ::= '(' line ')' redirs | redirs {word redirs}` with less than `MAXARGS` words.
-/
inductive Derives : Nonterminal → List Token → Cmd (List UInt8) → Prop
  | last {ts cmd} (n : ℕ) (h : Derives .pipe ts cmd) :
    Derives .line (ts ++ List.replicate n .amp) (Cmd.back^[n] cmd)
  | list {ts us left right} (n : ℕ) (h : Derives .pipe ts left) (hrest : Derives .line us right) :
    Derives .line (ts ++ (List.replicate n .amp ++ .semi :: us)) (.list (Cmd.back^[n] left) right)
  | one {ts cmd} (h : Derives .exec ts cmd) : Derives .pipe ts cmd
  | pipe {ts us left right} (h : Derives .exec ts left) (hrest : Derives .pipe us right) :
    Derives .pipe (ts ++ .bar :: us) (.pipe left right)
  | block {ts cmd} (rs : List Redirection) (h : Derives .line ts cmd) :
    Derives .exec (.lparen :: (ts ++ .rparen :: redirTokens rs)) (cmd.redirs rs)
  | words (rs : List Redirection) (args : List Arg) (h : args.length < maxArgs) :
    Derives .exec (redirTokens rs ++ argTokens args)
      ((Cmd.exec (args.map Arg.word)).redirs (rs ++ args.flatMap Arg.redirs))

/-! ## Trees of pointers -/

/-- The tree with each string replaced. -/
def Cmd.map {α β : Type} (f : α → β) : Cmd α → Cmd β
  | .exec argv => .exec (argv.map f)
  | .redir cmd file mode fd => .redir (cmd.map f) (f file) mode fd
  | .pipe left right => .pipe (left.map f) (right.map f)
  | .list left right => .list (left.map f) (right.map f)
  | .back cmd => .back (cmd.map f)

/-- The strings of a tree, in the order of `nulterminate`. -/
def Cmd.strings {α : Type} : Cmd α → List α
  | .exec argv => argv
  | .redir cmd file _ _ => cmd.strings ++ [file]
  | .pipe left right => left.strings ++ right.strings
  | .list left right => left.strings ++ right.strings
  | .back cmd => cmd.strings

/-- The strings of the tree are words of the buffer, and with their texts it is the tree of a
derivation. -/
structure Reads (buf : List UInt8) (cmd : Cmd Span) (tree : Cmd (List UInt8)) : Prop where
  words : ∀ σ ∈ cmd.strings, IsWord buf σ
  map : cmd.map (Span.text buf) = tree

variable {argv : List (List UInt8)} {rs : List Redirection} {argc : ℕ} {x : Nonterminal}
  {ts : List Token} {toks buf : List UInt8} {tree : Cmd (List UInt8)}

namespace Reads

variable {buf : List UInt8} {cmd left right : Cmd Span} {tree ltree rtree : Cmd (List UInt8)}
  {σ : Span}

theorem nil : Reads buf (.exec []) (.exec []) := ⟨nofun, rfl⟩

theorem back (h : Reads buf cmd tree) : Reads buf (.back cmd) (.back tree) :=
  ⟨h.words, congrArg Cmd.back h.map⟩

theorem pipe (hl : Reads buf left ltree) (hr : Reads buf right rtree) :
    Reads buf (.pipe left right) (.pipe ltree rtree) :=
  ⟨List.forall_mem_append.mpr ⟨hl.words, hr.words⟩, by rw [Cmd.map, hl.map, hr.map]⟩

theorem list (hl : Reads buf left ltree) (hr : Reads buf right rtree) :
    Reads buf (.list left right) (.list ltree rtree) :=
  ⟨List.forall_mem_append.mpr ⟨hl.words, hr.words⟩, by rw [Cmd.map, hl.map, hr.map]⟩

theorem redir (h : Reads buf cmd tree) (hσ : IsWord buf σ) (op : RedirOp) :
    Reads buf (redircmd cmd (Token.redir op).code σ)
      (.redir tree (σ.text buf) op.mode op.fd) := by
  have hcmd : redircmd cmd (Token.redir op).code σ = .redir cmd σ op.mode op.fd := by
    cases op <;> rfl
  rw [hcmd]
  exact ⟨List.forall_mem_append.mpr ⟨h.words, List.forall_mem_singleton.mpr hσ⟩,
    by rw [Cmd.map, h.map]⟩

/-- An argument for the node below the redirections. -/
theorem push (h : Reads buf cmd ((Cmd.exec argv).redirs rs)) (hσ : IsWord buf σ) :
    Reads buf (cmd.push σ) ((Cmd.exec (argv ++ [σ.text buf])).redirs rs) := by
  induction rs using List.reverseRecOn generalizing cmd with
  | nil =>
    obtain ⟨hwords, hmap⟩ := h
    cases cmd with
    | exec spans =>
      obtain rfl : spans.map (Span.text buf) = argv := Cmd.exec.inj hmap
      exact ⟨List.forall_mem_append.mpr ⟨hwords, List.forall_mem_singleton.mpr hσ⟩,
        congrArg Cmd.exec List.map_append⟩
    | _ => exact nomatch hmap
  | append_singleton rs r ih =>
    obtain ⟨hwords, hmap⟩ := h
    rw [Cmd.redirs_append] at hmap ⊢
    cases cmd with
    | redir cmd file mode fd =>
      obtain ⟨hcmd, hfile, rfl, rfl⟩ := Cmd.redir.inj hmap
      obtain ⟨hin, hlast⟩ := List.forall_mem_append.mp hwords
      obtain ⟨hin', hmap'⟩ := ih ⟨hin, hcmd⟩
      exact ⟨List.forall_mem_append.mpr ⟨hin', hlast⟩,
        by rw [Cmd.push, Cmd.map, hmap', hfile]; rfl⟩
    | _ => exact nomatch hmap

end Reads

/-! ## Soundness -/

/-- The fuel was less than what is enough. -/
def Starved (n enough : ℕ) (e : Failure) : Prop := e = .outOfFuel → n < enough

theorem Starved.mono {n m b b' : ℕ} {e : Failure} (he : Starved n b e) (h : n < b → m < b') :
    Starved m b' e :=
  fun hfuel => h (he hfuel)

/-- A function of the parser took a derivable part of the tokens. -/
def Takes (buf : List UInt8) (x : Nonterminal) (ts : List Token) (r : Cmd Span × ℕ) : Prop :=
  ∃ us vs tree, ts = us ++ vs ∧ At buf r.2 vs ∧ Derives x us tree ∧ Reads buf r.1 tree

section Sound

variable {buf : List UInt8} (hbuf : ∀ c ∈ buf, c ≠ 0) {cmd : Cmd Span} {tree : Cmd (List UInt8)}
  {ps : ℕ} {ts : List Token}
include hbuf

theorem parseredirs_sound (n : ℕ) (h : At buf ps ts) (hcmd : Reads buf cmd tree) :
    Meets (parseredirs buf n cmd ps) (Starved n (ts.length + 1)) fun r =>
      ∃ rs us, ts = redirTokens rs ++ us ∧ At buf r.2 us ∧ Reads buf r.1 (tree.redirs rs) := by
  induction n generalizing cmd tree ps ts with
  | zero => exact Meets.throw fun _ => Nat.succ_pos _
  | succ n ih =>
    obtain ⟨s, hpeek, hs⟩ := h.peek hbuf (by decide : chars ['<', '>'] ⊆ symbols)
    rw [parseredirs, hpeek]
    dsimp only
    split
    next hlead =>
      obtain ⟨op, hop⟩ := leads_redir.mp hlead
      obtain ⟨us, rfl⟩ := List.head?_eq_some_iff.mp hop
      obtain ⟨hop, hus, -⟩ := hs.gettoken_cons hbuf
      rw [hop]
      split
      next => exact Meets.throw nofun
      next hword =>
        obtain ⟨w, us, rfl, hnext, hfile, rfl⟩ := hus.gettoken_eq_word hbuf (not_not.mp hword)
        refine ((ih hnext (hcmd.redir hfile op)).mono_error fun e he => he.mono ?_).mono ?_
        · simp only [List.length_cons]
          omega
        · rintro r ⟨rs, vs, rfl, hat, hreads⟩
          exact ⟨⟨op, _⟩ :: rs, vs, rfl, hat, hreads⟩
    next => exact Meets.pure ⟨[], ts, rfl, hs, hcmd⟩

theorem parseargs_sound (n : ℕ) (h : At buf ps ts) (hargc : argv.length = argc)
    (hlt : argc < maxArgs)
    (hcmd : Reads buf cmd ((Cmd.exec argv).redirs rs)) :
    Meets (parseargs buf n argc cmd ps) (Starved n (ts.length + 1)) fun r =>
      ∃ args us, ts = argTokens args ++ us ∧ At buf r.2 us ∧ argc + args.length < maxArgs ∧
        Reads buf r.1 ((Cmd.exec (argv ++ args.map Arg.word)).redirs
          (rs ++ args.flatMap Arg.redirs)) := by
  induction n generalizing cmd ps ts argc argv rs with
  | zero => exact Meets.throw fun _ => Nat.succ_pos _
  | succ n ih =>
    obtain ⟨s, hpeek, hs⟩ := h.peek hbuf (by decide : chars ['|', ')', '&', ';'] ⊆ symbols)
    rw [parseargs, hpeek]
    dsimp only
    split
    next => exact Meets.pure ⟨[], ts, rfl, hs, hlt, by simpa using hcmd⟩
    next =>
      split
      next hzero =>
        obtain ⟨rfl, hat⟩ := hs.gettoken_eq_zero hbuf hzero
        exact Meets.pure ⟨[], [], rfl, hat, hlt, by simpa using hcmd⟩
      next =>
        split
        next => exact Meets.throw nofun
        next hword =>
          obtain ⟨w, us, rfl, hus, hspan, rfl⟩ := hs.gettoken_eq_word hbuf (not_not.mp hword)
          split
          next => exact Meets.throw nofun
          next hroom =>
            refine Meets.bind ((parseredirs_sound hbuf n hus (hcmd.push hspan)).mono_error
              fun e he => he.mono ?_) ?_
            · rw [List.length_cons]
              omega
            · rintro ⟨ret, ps'⟩ ⟨rs', vs, rfl, hat, hreads⟩
              rw [← Cmd.redirs_append] at hreads
              refine ((ih hat (by rw [List.length_append, hargc]; rfl) (not_le.mp hroom)
                hreads).mono_error fun e he => he.mono ?_).mono ?_
              · rw [List.length_cons, List.length_append]
                omega
              · rintro r ⟨args, us, rfl, hat', hlt', hreads'⟩
                refine ⟨⟨(gettoken buf s).span.text buf, rs'⟩ :: args, us, ?_, hat', ?_, ?_⟩
                · simp [argTokens]
                · rw [List.length_cons]
                  omega
                · simpa using hreads'

theorem parsebacks_sound (n : ℕ) (h : At buf ps ts) (hcmd : Reads buf cmd tree) :
    Meets (parsebacks buf n cmd ps) (Starved n (ts.length + 1)) fun r =>
      ∃ k us, ts = List.replicate k .amp ++ us ∧ At buf r.2 us ∧
      Reads buf r.1 (Cmd.back^[k] tree) := by
  induction n generalizing cmd tree ps ts with
  | zero => exact Meets.throw fun _ => Nat.succ_pos _
  | succ n ih =>
    obtain ⟨s, hpeek, hs⟩ := h.peek hbuf (by decide : chars ['&'] ⊆ symbols)
    rw [parsebacks, hpeek]
    dsimp only
    split
    next hlead =>
      obtain ⟨us, rfl⟩ := List.head?_eq_some_iff.mp ((leads_iff (u := .amp) (by decide)).mp hlead)
      refine ((ih (hs.gettoken_cons hbuf).2.1 hcmd.back).mono_error fun e he => he.mono ?_).mono ?_
      · rw [List.length_cons]
        omega
      · rintro r ⟨k, us, rfl, hat, hreads⟩
        exact ⟨k + 1, us, rfl, hat, hreads⟩
    next => exact Meets.pure ⟨0, ts, rfl, hs, hcmd⟩

/-- What the four functions of the parser do with a given amount of fuel. -/
structure Sound (buf : List UInt8) (n : ℕ) : Prop where
  line : ∀ {ps ts}, At buf ps ts →
    Meets (parseline buf n ps) (Starved n (4 * ts.length + 4)) (Takes buf .line ts)
  pipe : ∀ {ps ts}, At buf ps ts →
    Meets (parsepipe buf n ps) (Starved n (4 * ts.length + 3)) (Takes buf .pipe ts)
  exec : ∀ {ps ts}, At buf ps ts →
    Meets (parseexec buf n ps) (Starved n (4 * ts.length + 2)) (Takes buf .exec ts)
  block : ∀ {ps ts}, At buf ps ts →
    Meets (parseblock buf n ps) (Starved n (4 * ts.length + 1)) (Takes buf .exec ts)

omit hbuf in
theorem Sound.zero : Sound buf 0 := by
  constructor <;> intro ps ts _
  all_goals exact Meets.throw fun _ => Nat.succ_pos _

section

variable {n : ℕ} (ih : Sound buf n) (h : At buf ps ts)
include ih h

theorem parseline_sound :
    Meets (parseline buf (n + 1) ps) (Starved (n + 1) (4 * ts.length + 4))
      (Takes buf .line ts) := by
  refine Meets.bind ((ih.pipe h).mono_error fun e he => he.mono (by omega)) ?_
  rintro ⟨cmd, ps⟩ ⟨us, vs, tree, rfl, hat, hder, hreads⟩
  refine Meets.bind ((parsebacks_sound hbuf n hat hreads).mono_error fun e he => he.mono ?_) ?_
  · rw [List.length_append]
    omega
  rintro ⟨cmd, ps⟩ ⟨k, vs, rfl, hat, hreads⟩
  obtain ⟨s, hpeek, hs⟩ := hat.peek hbuf (by decide : chars [';'] ⊆ symbols)
  dsimp only
  rw [hpeek]
  split
  next hlead =>
    obtain ⟨vs, rfl⟩ := List.head?_eq_some_iff.mp ((leads_iff (u := .semi) (by decide)).mp hlead)
    refine Meets.bind ((ih.line (hs.gettoken_cons hbuf).2.1).mono_error fun e he => he.mono ?_) ?_
    · simp only [List.length_append, List.length_cons]
      omega
    rintro ⟨rest, ps⟩ ⟨ws, xs, rtree, rfl, hat, hrest, hrreads⟩
    exact Meets.pure ⟨_, xs, _, by simp, hat, .list k hder hrest, hreads.list hrreads⟩
  next => exact Meets.pure ⟨_, vs, _, by simp, hs, .last k hder, hreads⟩

theorem parsepipe_sound :
    Meets (parsepipe buf (n + 1) ps) (Starved (n + 1) (4 * ts.length + 3))
      (Takes buf .pipe ts) := by
  refine Meets.bind ((ih.exec h).mono_error fun e he => he.mono (by omega)) ?_
  rintro ⟨cmd, ps⟩ ⟨us, vs, tree, rfl, hat, hder, hreads⟩
  obtain ⟨s, hpeek, hs⟩ := hat.peek hbuf (by decide : chars ['|'] ⊆ symbols)
  dsimp only
  rw [hpeek]
  split
  next hlead =>
    obtain ⟨vs, rfl⟩ := List.head?_eq_some_iff.mp ((leads_iff (u := .bar) (by decide)).mp hlead)
    refine Meets.bind ((ih.pipe (hs.gettoken_cons hbuf).2.1).mono_error fun e he => he.mono ?_) ?_
    · simp only [List.length_append, List.length_cons]
      omega
    rintro ⟨rest, ps⟩ ⟨ws, xs, rtree, rfl, hat, hrest, hrreads⟩
    exact Meets.pure ⟨_, xs, _, by simp, hat, .pipe hder hrest, hreads.pipe hrreads⟩
  next => exact Meets.pure ⟨us, vs, tree, rfl, hs, .one hder, hreads⟩

theorem parseexec_sound :
    Meets (parseexec buf (n + 1) ps) (Starved (n + 1) (4 * ts.length + 2))
      (Takes buf .exec ts) := by
  obtain ⟨s, hpeek, hs⟩ := h.peek hbuf (by decide : chars ['('] ⊆ symbols)
  rw [parseexec, hpeek]
  dsimp only
  split
  next => exact (ih.block hs).mono_error fun e he => he.mono (by omega)
  next =>
    refine Meets.bind ((parseredirs_sound hbuf n hs Reads.nil).mono_error
      fun e he => he.mono (by omega)) ?_
    rintro ⟨ret, ps⟩ ⟨rs, us, rfl, hat, hreads⟩
    refine ((parseargs_sound hbuf n hat rfl (by decide) hreads).mono_error
      fun e he => he.mono ?_).mono ?_
    · rw [List.length_append]
      omega
    · rintro r ⟨args, vs, rfl, hat, hlt, hreads⟩
      exact ⟨_, vs, _, (List.append_assoc _ _ _).symm, hat, .words rs args (by omega), hreads⟩

theorem parseblock_sound :
    Meets (parseblock buf (n + 1) ps) (Starved (n + 1) (4 * ts.length + 1))
      (Takes buf .exec ts) := by
  obtain ⟨s, hpeek, hs⟩ := h.peek hbuf (by decide : chars ['('] ⊆ symbols)
  rw [parseblock, hpeek]
  dsimp only
  split
  next hlead =>
    obtain ⟨us, rfl⟩ := List.head?_eq_some_iff.mp ((leads_iff (u := .lparen) (by decide)).mp hlead)
    refine Meets.bind ((ih.line (hs.gettoken_cons hbuf).2.1).mono_error fun e he => he.mono ?_) ?_
    · rw [List.length_cons]
      omega
    rintro ⟨cmd, ps⟩ ⟨us, vs, tree, rfl, hat, hder, hreads⟩
    obtain ⟨s, hpeek, hs⟩ := hat.peek hbuf (by decide : chars [')'] ⊆ symbols)
    rw [hpeek]
    split
    next hlead =>
      obtain ⟨vs, rfl⟩ :=
        List.head?_eq_some_iff.mp ((leads_iff (u := .rparen) (by decide)).mp hlead)
      refine ((parseredirs_sound hbuf n (hs.gettoken_cons hbuf).2.1 hreads).mono_error
        fun e he => he.mono ?_).mono ?_
      · simp only [List.length_cons, List.length_append]
        omega
      · rintro r ⟨rs, ws, rfl, hat, hreads⟩
        exact ⟨_, ws, _, by simp, hat, .block rs hder, hreads⟩
    next => exact Meets.throw nofun
  next => exact Meets.throw nofun

end

/-- **Soundness**, with enough fuel. -/
theorem sound (n : ℕ) : Sound buf n := by
  induction n with
  | zero => exact Sound.zero
  | succ n ih =>
    exact ⟨parseline_sound hbuf ih, parsepipe_sound hbuf ih, parseexec_sound hbuf ih,
      parseblock_sound hbuf ih⟩

end Sound

/-! ## Completeness -/

/-- The function of the parser for a nonterminal. -/
def parser (buf : List UInt8) (n : ℕ) : Nonterminal → ℕ → Except Failure (Cmd Span × ℕ)
  | .line => parseline buf n
  | .pipe => parsepipe buf n
  | .exec => parseexec buf n

/-- The tokens that can follow a nonterminal, other than the end of the line. -/
def followers : Nonterminal → List Token
  | .line => [.rparen]
  | .pipe => [.rparen, .amp, .semi]
  | .exec => [.rparen, .amp, .semi, .bar]

/-- The tokens can follow the nonterminal. -/
def Follows (x : Nonterminal) (ts : List Token) : Prop := ∀ t, ts.head? = some t → t ∈ followers x

theorem Follows.not_leads (h : Follows x ts) (u : Token) (hu : Tells toks u)
    (hx : u ∉ followers x) : leads toks ts ≠ true :=
  fun hlead => hx (h u ((leads_iff hu).mp hlead))

theorem Follows.not_leads_redir (h : Follows x ts) : leads (chars ['<', '>']) ts ≠ true := by
  intro hlead
  obtain ⟨op, hop⟩ := leads_redir.mp hlead
  have hmem := h _ hop
  cases x <;> cases op <;> exact absurd hmem (by decide)

/-- How a list of arguments starts. -/
theorem not_leads_args (hts : leads toks ts ≠ true) (hword : strchr toks 'a'.toUInt8 ≠ true)
    (args : List Arg) : leads toks (argTokens args ++ ts) ≠ true := by
  cases args with
  | nil => exact hts
  | cons a args => exact hword

theorem Follows.pipe (h : Follows .line ts) : Follows .pipe ts := by
  intro t ht
  exact (by decide : followers .line ⊆ followers .pipe) (h t ht)

theorem Follows.exec (h : Follows .pipe ts) : Follows .exec ts := by
  intro t ht
  exact (by decide : followers .pipe ⊆ followers .exec) (h t ht)

theorem follows_cons {t : Token} (h : t ∈ followers x) : Follows x (t :: ts) := by
  intro u hu
  obtain rfl := Option.some.inj hu
  exact h

theorem Follows.backs (h : Follows .pipe ts) (k : ℕ) :
    Follows .pipe (List.replicate k .amp ++ ts) := by
  cases k with
  | zero => exact h
  | succ k => exact follows_cons (by decide)

section Complete

variable {buf : List UInt8} (hbuf : ∀ c ∈ buf, c ≠ 0) {cmd : Cmd Span} {tree : Cmd (List UInt8)}
  {ps : ℕ} {us : List Token}
include hbuf

theorem parsebacks_complete (n k : ℕ) (h : At buf ps (List.replicate k .amp ++ us))
    (hus : leads (chars ['&']) us ≠ true) (hcmd : Reads buf cmd tree) :
    Meets (parsebacks buf n cmd ps) (· = .outOfFuel) fun r =>
      At buf r.2 us ∧ Reads buf r.1 (Cmd.back^[k] tree) := by
  induction n generalizing cmd tree ps k with
  | zero => exact Meets.throw rfl
  | succ n ih =>
    obtain ⟨s, hpeek, hs⟩ := h.peek hbuf (by decide : chars ['&'] ⊆ symbols)
    rw [parsebacks, hpeek]
    cases k with
    | zero =>
      dsimp only
      rw [List.replicate_zero, List.nil_append, if_neg hus]
      exact Meets.pure ⟨hs, hcmd⟩
    | succ k => exact ih k (hs.gettoken_cons hbuf).2.1 hcmd.back

theorem parseredirs_complete (n : ℕ) (rs : List Redirection) (h : At buf ps (redirTokens rs ++ us))
    (hus : leads (chars ['<', '>']) us ≠ true) (hcmd : Reads buf cmd tree) :
    Meets (parseredirs buf n cmd ps) (· = .outOfFuel) fun r =>
      At buf r.2 us ∧ Reads buf r.1 (tree.redirs rs) := by
  induction n generalizing cmd tree ps rs with
  | zero => exact Meets.throw rfl
  | succ n ih =>
    obtain ⟨s, hpeek, hs⟩ := h.peek hbuf (by decide : chars ['<', '>'] ⊆ symbols)
    rw [parseredirs, hpeek]
    dsimp only
    cases rs with
    | nil =>
      have hstop : leads (chars ['<', '>']) (redirTokens [] ++ us) ≠ true := hus
      rw [if_neg hstop]
      exact Meets.pure ⟨hs, hcmd⟩
    | cons r rs =>
      have hlead : leads (chars ['<', '>']) (redirTokens (r :: rs) ++ us) = true :=
        leads_redir.mpr ⟨r.op, rfl⟩
      obtain ⟨hop, hfile, -⟩ := hs.gettoken_cons hbuf
      obtain ⟨hword, hnext, hspan, htext⟩ := At.gettoken_word hbuf hfile
      have hreads := hcmd.redir hspan r.op
      rw [htext] at hreads
      rw [if_pos hlead, hop, if_neg (not_not_intro hword)]
      exact ih rs hnext hreads

theorem parseargs_complete (n : ℕ) (args : List Arg) (h : At buf ps (argTokens args ++ us))
    (hus : Follows .exec us) (hlt : argc + args.length < maxArgs)
    (hcmd : Reads buf cmd ((Cmd.exec argv).redirs rs)) :
    Meets (parseargs buf n argc cmd ps) (· = .outOfFuel) fun r =>
      At buf r.2 us ∧ Reads buf r.1 ((Cmd.exec (argv ++ args.map Arg.word)).redirs
        (rs ++ args.flatMap Arg.redirs)) := by
  induction n generalizing cmd ps args argc argv rs with
  | zero => exact Meets.throw rfl
  | succ n ih =>
    obtain ⟨s, hpeek, hs⟩ := h.peek hbuf (by decide : chars ['|', ')', '&', ';'] ⊆ symbols)
    rw [parseargs, hpeek]
    dsimp only
    cases args with
    | nil =>
      have hdone : Reads buf cmd ((Cmd.exec (argv ++ [].map Arg.word)).redirs
          (rs ++ [].flatMap Arg.redirs)) := by simpa using hcmd
      cases us with
      | nil =>
        obtain ⟨hzero, hend⟩ := hs.gettoken_nil
        rw [if_neg (by decide), if_pos hzero]
        exact Meets.pure ⟨hend, hdone⟩
      | cons t us =>
        have hstop : ∀ t ∈ followers .exec, strchr (chars ['|', ')', '&', ';']) t.lead = true := by
          decide
        have hlead : leads (chars ['|', ')', '&', ';']) (argTokens [] ++ t :: us) = true :=
          hstop t (hus t rfl)
        rw [if_pos hlead]
        exact Meets.pure ⟨hs, hdone⟩
    | cons a args =>
      have hgo : leads (chars ['|', ')', '&', ';']) (argTokens (a :: args) ++ us) = false := rfl
      have htokens : argTokens (a :: args) ++ us =
          .word a.word :: (redirTokens a.redirs ++ (argTokens args ++ us)) := by simp [argTokens]
      rw [htokens] at hs
      obtain ⟨hword, hnext, hspan, htext⟩ := hs.gettoken_word hbuf
      rw [List.length_cons] at hlt
      rw [hgo, if_neg (by decide), if_neg (by rw [hword]; decide), if_neg (not_not_intro hword),
        if_neg (by omega)]
      have hpush := hcmd.push hspan
      rw [htext] at hpush
      have hstop : leads (chars ['<', '>']) (argTokens args ++ us) ≠ true :=
        not_leads_args hus.not_leads_redir (by decide) args
      refine Meets.bind (parseredirs_complete hbuf n a.redirs hnext hstop hpush) ?_
      rintro ⟨ret, ps⟩ ⟨hat, hreads⟩
      rw [← Cmd.redirs_append] at hreads
      refine (ih args hat (by omega) hreads).mono ?_
      rintro r ⟨hat, hreads⟩
      exact ⟨hat, by simpa using hreads⟩

/-- The function for a nonterminal returns the tree for the tokens, whatever may follow them, or
runs out of fuel. -/
def Parses (buf : List UInt8) (x : Nonterminal) (ts : List Token)
    (tree : Cmd (List UInt8)) : Prop :=
  ∀ (n : ℕ) {ps : ℕ} {us : List Token}, At buf ps (ts ++ us) → Follows x us →
    Meets (parser buf n x ps) (· = .outOfFuel) fun r => At buf r.2 us ∧ Reads buf r.1 tree

variable {ts : List Token} {ltree rtree : Cmd (List UInt8)}

theorem Parses.last (h : Parses buf .pipe ts tree) (k : ℕ) :
    Parses buf .line (ts ++ List.replicate k .amp) (Cmd.back^[k] tree) := by
  intro n ps vs hat hvs
  cases n with
  | zero =>
    exact Meets.throw rfl
  | succ n =>
    rw [List.append_assoc] at hat
    refine Meets.bind (h n hat (hvs.pipe.backs k)) ?_
    rintro ⟨cmd, ps⟩ ⟨hat, hreads⟩
    refine Meets.bind (parsebacks_complete hbuf n k hat
      (hvs.not_leads .amp (by decide) (by decide)) hreads) ?_
    rintro ⟨cmd, ps⟩ ⟨hat, hreads⟩
    obtain ⟨s, hpeek, hs⟩ := hat.peek hbuf (by decide : chars [';'] ⊆ symbols)
    dsimp only
    rw [hpeek]
    rw [if_neg (hvs.not_leads .semi (by decide) (by decide))]
    exact Meets.pure ⟨hs, hreads⟩

theorem Parses.list (h : Parses buf .pipe ts ltree) (hrest : Parses buf .line us rtree) (k : ℕ) :
    Parses buf .line (ts ++ (List.replicate k .amp ++ .semi :: us))
      (.list (Cmd.back^[k] ltree) rtree) := by
  intro n ps vs hat hvs
  cases n with
  | zero =>
    exact Meets.throw rfl
  | succ n =>
    rw [List.append_assoc, List.append_assoc, List.cons_append] at hat
    refine Meets.bind (h n hat ((follows_cons (by decide)).backs k)) ?_
    rintro ⟨cmd, ps⟩ ⟨hat, hreads⟩
    refine Meets.bind (parsebacks_complete hbuf n k hat (by decide : strchr _ _ ≠ true) hreads) ?_
    rintro ⟨cmd, ps⟩ ⟨hat, hreads⟩
    obtain ⟨s, hpeek, hs⟩ := hat.peek hbuf (by decide : chars [';'] ⊆ symbols)
    dsimp only
    rw [hpeek]
    refine Meets.bind (hrest n (hs.gettoken_cons hbuf).2.1 hvs) ?_
    rintro ⟨rest, ps⟩ ⟨hat, hrreads⟩
    exact Meets.pure ⟨hat, hreads.list hrreads⟩

theorem Parses.one (h : Parses buf .exec ts tree) : Parses buf .pipe ts tree := by
  intro n ps vs hat hvs
  cases n with
  | zero =>
    exact Meets.throw rfl
  | succ n =>
    refine Meets.bind (h n hat hvs.exec) ?_
    rintro ⟨cmd, ps⟩ ⟨hat, hreads⟩
    obtain ⟨s, hpeek, hs⟩ := hat.peek hbuf (by decide : chars ['|'] ⊆ symbols)
    dsimp only
    rw [hpeek]
    rw [if_neg (hvs.not_leads .bar (by decide) (by decide))]
    exact Meets.pure ⟨hs, hreads⟩

theorem Parses.pipe (h : Parses buf .exec ts ltree) (hrest : Parses buf .pipe us rtree) :
    Parses buf .pipe (ts ++ .bar :: us) (.pipe ltree rtree) := by
  intro n ps vs hat hvs
  cases n with
  | zero =>
    exact Meets.throw rfl
  | succ n =>
    rw [List.append_assoc, List.cons_append] at hat
    refine Meets.bind (h n hat (follows_cons (by decide))) ?_
    rintro ⟨cmd, ps⟩ ⟨hat, hreads⟩
    obtain ⟨s, hpeek, hs⟩ := hat.peek hbuf (by decide : chars ['|'] ⊆ symbols)
    dsimp only
    rw [hpeek]
    refine Meets.bind (hrest n (hs.gettoken_cons hbuf).2.1 hvs) ?_
    rintro ⟨rest, ps⟩ ⟨hat, hrreads⟩
    exact Meets.pure ⟨hat, hreads.pipe hrreads⟩

theorem Parses.block (h : Parses buf .line ts tree) (rs : List Redirection) :
    Parses buf .exec (.lparen :: (ts ++ .rparen :: redirTokens rs)) (tree.redirs rs) := by
  intro n ps vs hat hvs
  rw [List.cons_append, List.append_assoc, List.cons_append] at hat
  cases n with
  | zero =>
    exact Meets.throw rfl
  | succ n =>
    obtain ⟨s, hpeek, hs⟩ := hat.peek hbuf (by decide : chars ['('] ⊆ symbols)
    rw [parser, parseexec, hpeek]
    dsimp only
    cases n with
    | zero =>
      exact Meets.throw rfl
    | succ n =>
      obtain ⟨s, hpeek, hs⟩ := hs.peek hbuf (by decide : chars ['('] ⊆ symbols)
      rw [parseblock, hpeek]
      dsimp only
      refine Meets.bind (h n (hs.gettoken_cons hbuf).2.1 (follows_cons (by decide))) ?_
      rintro ⟨cmd, ps⟩ ⟨hat, hreads⟩
      obtain ⟨s, hpeek, hs⟩ := hat.peek hbuf (by decide : chars [')'] ⊆ symbols)
      rw [hpeek]
      exact parseredirs_complete hbuf n rs (hs.gettoken_cons hbuf).2.1 hvs.not_leads_redir hreads

theorem Parses.words (rs : List Redirection) (args : List Arg) (hargs : args.length < maxArgs) :
    Parses buf .exec (redirTokens rs ++ argTokens args)
      ((Cmd.exec (args.map Arg.word)).redirs (rs ++ args.flatMap Arg.redirs)) := by
  intro n ps vs hat hvs
  rw [List.append_assoc] at hat
  cases n with
  | zero =>
    exact Meets.throw rfl
  | succ n =>
    have hparen : leads (chars ['(']) (redirTokens rs ++ (argTokens args ++ vs)) ≠ true := by
      cases rs with
      | nil =>
        exact not_leads_args (hvs.not_leads .lparen (by decide) (by decide)) (by decide) args
      | cons r rs =>
        have hop : ∀ op, strchr (chars ['(']) (Token.redir op).lead ≠ true := by
          intro op
          cases op <;> decide
        exact hop r.op
    have hstop : leads (chars ['<', '>']) (argTokens args ++ vs) ≠ true :=
      not_leads_args hvs.not_leads_redir (by decide) args
    obtain ⟨s, hpeek, hs⟩ := hat.peek hbuf (by decide : chars ['('] ⊆ symbols)
    rw [parser, parseexec, hpeek]
    dsimp only
    rw [if_neg hparen]
    refine Meets.bind (parseredirs_complete hbuf n rs hs hstop Reads.nil) ?_
    rintro ⟨ret, ps⟩ ⟨hat, hreads⟩
    exact parseargs_complete hbuf n args hat hvs (by omega) hreads

/-- **Completeness**, up to the fuel. -/
theorem Derives.parses (h : Derives x ts tree) : Parses buf x ts tree := by
  induction h with
  | last k _ ih => exact ih.last hbuf k
  | list k _ _ ih ihrest => exact ih.list hbuf ihrest k
  | one _ ih => exact ih.one hbuf
  | pipe _ _ ih ihrest => exact ih.pipe hbuf ihrest
  | block rs _ ih => exact ih.block hbuf rs
  | words rs args hargs => exact Parses.words hbuf rs args hargs

end Complete

/-! ## Terminators -/

/-- `nulterminate` writes behind each string. -/
theorem nulterminate_eq (cmd : Cmd Span) (buf : List UInt8) :
    nulterminate cmd buf = terminate (cmd.strings.map Span.eq) buf := by
  induction cmd generalizing buf with
  | exec argv => rw [nulterminate, terminate, Cmd.strings, List.foldl_map]
  | redir cmd file mode fd ih =>
    rw [nulterminate, ih, Cmd.strings, List.map_append, terminate, terminate, List.foldl_append]
    rfl
  | pipe left right ihl ihr =>
    rw [nulterminate, ihl, ihr, Cmd.strings, List.map_append, terminate, terminate, terminate,
      List.foldl_append]
  | list left right ihl ihr =>
    rw [nulterminate, ihl, ihr, Cmd.strings, List.map_append, terminate, terminate, terminate,
      List.foldl_append]
  | back cmd ih => rw [nulterminate, ih, Cmd.strings]

theorem Cmd.map_congr {α β : Type} {f g : α → β} {cmd : Cmd α}
    (h : ∀ a ∈ cmd.strings, f a = g a) : cmd.map f = cmd.map g := by
  induction cmd with
  | exec argv => exact congrArg Cmd.exec (List.map_congr_left h)
  | redir cmd file mode fd ih =>
    obtain ⟨hcmd, hfile⟩ := List.forall_mem_append.mp h
    rw [Cmd.map, Cmd.map, ih hcmd, hfile file (List.mem_singleton_self file)]
  | pipe left right ihl ihr =>
    obtain ⟨hl, hr⟩ := List.forall_mem_append.mp h
    rw [Cmd.map, Cmd.map, ihl hl, ihr hr]
  | list left right ihl ihr =>
    obtain ⟨hl, hr⟩ := List.forall_mem_append.mp h
    rw [Cmd.map, Cmd.map, ihl hl, ihr hr]
  | back cmd ih => rw [Cmd.map, Cmd.map, ih h]

/-- The tree with each pointer replaced by the C string it points to. -/
def Cmd.deref (buf : List UInt8) (cmd : Cmd Span) : Cmd (List UInt8) :=
  cmd.map fun σ => cstr buf σ.q

/-- After `nulterminate` the strings of the tree are the texts of the words. -/
theorem Reads.deref_nulterminate (hbuf : ∀ c ∈ buf, c ≠ 0) {cmd : Cmd Span}
    (h : Reads buf cmd tree) : cmd.deref (nulterminate cmd (buf ++ [0])) = tree := by
  rw [← h.map, nulterminate_eq]
  refine Cmd.map_congr fun σ hσ => ?_
  obtain ⟨hle, heq⟩ := h.words σ hσ
  rw [Span.text, heq]
  refine cstr_terminate isWordChar hbuf ?_ hle ?_
  · intro e he
    obtain ⟨τ, hτ, rfl⟩ := List.mem_map.mp he
    exact ⟨τ.q, (h.words τ hτ).eq⟩
  · rw [← heq]
    exact List.mem_map_of_mem hσ

/-! ## The whole line -/

/-- Enough fuel for a line. -/
def enoughFuel (s : Line) : ℕ := 4 * s.bytes.length + 4

theorem at_start (s : Line) : At s.bytes 0 (lex s.bytes) := ⟨Nat.zero_le _, rfl⟩

/-- The test for leftovers. -/
theorem At.leftovers {ps : ℕ} (h : At buf ps ts) :
    (Sh.peek buf ps []).2 = buf.length ↔ ts = [] := by
  have hskip := h.skip
  rw [Sh.peek]
  dsimp only
  constructor
  · intro hend
    rw [← hskip.toks, hend, List.drop_length, lex]
  · rintro rfl
    rcases drop_skip buf ps with hnil | ⟨c, cs, hcons, hspace⟩
    · exact Nat.le_antisymm hskip.le (List.drop_eq_nil_iff.mp hnil)
    · have htoks := hskip.toks
      rw [hcons] at htoks
      exact absurd htoks (lex_cons_ne_nil hspace)

/-- `parsecmd` returns. -/
theorem parsecmd_sound (n : ℕ) (s : Line) :
    Meets (parsecmd n s) (Starved n (enoughFuel s)) fun r =>
      Derives .line (lex s.bytes) (r.1.deref r.2) := by
  have hlength := length_lex_le s.bytes
  refine Meets.bind (((sound s.noNul n).line (at_start s)).mono_error fun e he => he.mono ?_) ?_
  · unfold enoughFuel
    omega
  rintro ⟨cmd, ps⟩ ⟨us, vs, tree, htoks, hat, hder, hreads⟩
  dsimp only
  split
  next => exact Meets.throw nofun
  next hend =>
    obtain rfl := hat.leftovers.mp (not_not.mp hend)
    rw [List.append_nil] at htoks
    refine Meets.pure ?_
    rw [hreads.deref_nulterminate s.noNul, htoks]
    exact hder

theorem parsecmd_complete (n : ℕ) (s : Line) (h : Derives .line (lex s.bytes) tree) :
    Meets (parsecmd n s) (· = .outOfFuel) fun r => r.1.deref r.2 = tree := by
  have hat : At s.bytes 0 (lex s.bytes ++ []) := by
    rw [List.append_nil]
    exact at_start s
  refine Meets.bind (h.parses s.noNul n hat nofun) ?_
  rintro ⟨cmd, ps⟩ ⟨hat, hreads⟩
  dsimp only
  rw [if_neg (not_not_intro (hat.leftovers.mpr rfl))]
  exact Meets.pure (hreads.deref_nulterminate s.noNul)

/-- **The parser accepts exactly its grammar.** With enough fuel `parsecmd` stops; it returns if and
only if the tokens of the line can be derived; and the strings of the tree it returns, as they stand
in the buffer after `nulterminate`, make it the tree of the derivation. -/
theorem parsecmd_iff (s : Line) (n : ℕ) (hn : enoughFuel s ≤ n) :
    parsecmd n s ≠ .error .outOfFuel ∧
      ((∃ r, parsecmd n s = .ok r) ↔ ∃ tree, Derives .line (lex s.bytes) tree) ∧
      ∀ cmd buf, parsecmd n s = .ok (cmd, buf) →
        ∀ tree, Derives .line (lex s.bytes) tree ↔ cmd.deref buf = tree := by
  have hfuel : parsecmd n s ≠ .error .outOfFuel := by
    intro hstarved
    have hlt := (parsecmd_sound n s).of_error hstarved rfl
    omega
  have hcomplete : ∀ tree, Derives .line (lex s.bytes) tree →
      ∃ r, parsecmd n s = .ok r ∧ r.1.deref r.2 = tree := by
    intro tree htree
    have hmeets := parsecmd_complete n s htree
    cases hr : parsecmd n s with
    | ok r => exact ⟨r, rfl, hmeets.of_ok hr⟩
    | error e => exact absurd (hr.trans (congrArg _ (hmeets.of_error hr))) hfuel
  refine ⟨hfuel, ⟨?_, ?_⟩, ?_⟩
  · rintro ⟨r, hr⟩
    exact ⟨_, (parsecmd_sound n s).of_ok hr⟩
  · rintro ⟨tree, htree⟩
    obtain ⟨r, hr, -⟩ := hcomplete tree htree
    exact ⟨r, hr⟩
  · intro cmd buf hr tree
    constructor
    · intro htree
      obtain ⟨r, hr', hderef⟩ := hcomplete tree htree
      obtain rfl := Except.ok.inj (hr.symm.trans hr')
      exact hderef
    · rintro rfl
      exact (parsecmd_sound n s).of_ok hr

/-- The line `a>b|c`. -/
def exampleLine : Line :=
  ⟨chars ['a', '>', 'b', '|', 'c'], List.forall_iff_forall_mem.mp (by decide)⟩

/-- The terminator of `a` overwrites `>`, and that of `b` overwrites `|`. -/
example : parsecmd 24 exampleLine =
    .ok (.pipe (.redir (.exec [⟨0, 1⟩]) ⟨2, 3⟩ 0x201 1) (.exec [⟨4, 5⟩]),
      chars ['a'] ++ 0 :: chars ['b'] ++ 0 :: chars ['c'] ++ [0]) := by
  decide

/-- Twenty-four steps are enough for `a>b|c`. -/
theorem parsecmd_exampleLine :
    enoughFuel exampleLine ≤ 24 ∧ parsecmd 24 exampleLine ≠ .error .outOfFuel ∧
      ((∃ r, parsecmd 24 exampleLine = .ok r) ↔
        ∃ tree, Derives .line (lex exampleLine.bytes) tree) ∧
      ∀ cmd buf, parsecmd 24 exampleLine = .ok (cmd, buf) →
        ∀ tree, Derives .line (lex exampleLine.bytes) tree ↔ cmd.deref buf = tree :=
  ⟨by decide, parsecmd_iff exampleLine 24 (by decide)⟩

end InuOs.Sh
