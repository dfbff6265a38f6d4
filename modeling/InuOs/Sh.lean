import InuOs.Lib.Scan
import InuOs.Syscall.Sysfile

/-!
# The parser of the shell (`sh.c`)

`parsecmd` reads a command line with a cursor `ps` into its buffer and builds a tree whose strings
are pointers into that buffer; `nulterminate` then puts a NUL at the end of each of them.

* A pointer is an offset from the start of the buffer, and `es` is the length of the line. The NUL
  at `es` is read as the default of `charAt`.
* A string is a `Span`, the pointers `q` and `eq` of `gettoken`. The tree is `Cmd Span`; the same
  type over texts is the tree of a derivation.
* The loops and the recursion run on fuel, and `Failure.outOfFuel` is kept apart from the panics of
  the source.
* The constructors `execcmd`, `redircmd` and so on are those of `Cmd`, so a failing `malloc` is
  outside the model.
-/

namespace InuOs.Sh

open Syscall

/-- `MAXARGS` -/
def maxArgs : ℕ := 10

/-- A line of input: the bytes in front of the NUL. -/
structure Line : Type where
  bytes : List UInt8
  noNul : ∀ c ∈ bytes, c ≠ 0

/-- The pointers to a string and to the character after it. -/
structure Span : Type where
  q : ℕ
  eq : ℕ
  deriving DecidableEq

/-- `struct cmd`, over the type of its strings. -/
inductive Cmd (α : Type) : Type
  | exec (argv : List α)
  | redir (cmd : Cmd α) (file : α) (mode : UInt32) (fd : ℕ)
  | pipe (left right : Cmd α)
  | list (left right : Cmd α)
  | back (cmd : Cmd α)
  deriving DecidableEq

/-- Why a parse stops. The panics are named after their texts. -/
inductive Failure : Type
  | outOfFuel
  /-- "missing file for redirection" -/
  | missingFile
  /-- "parseblock" -/
  | parseblock
  /-- "syntax - missing )" -/
  | missingParen
  /-- "syntax" -/
  | syntaxError
  /-- "too many args" -/
  | tooManyArgs
  deriving DecidableEq

/-! ## Tokens -/

/-- The character of a literal in the source. -/
def chars (l : List Char) : List UInt8 := l.map Char.toUInt8

/-- `whitespace` -/
def whitespace : List UInt8 := chars [' ', '\t', '\r', '\n', '\x0b']

/-- `symbols` -/
def symbols : List UInt8 := chars ['<', '|', '>', '&', ';', '(', ')']

/-- `strchr`, as a truth value. -/
def strchr (s : List UInt8) (c : UInt8) : Bool := s.contains c

/-- The characters of a word. -/
def isWordChar (c : UInt8) : Bool := !strchr whitespace c && !strchr symbols c

section Parser

variable (buf : List UInt8)

/-- The character at a pointer. -/
def charAt (s : ℕ) : UInt8 := buf.getD s 0

/-- What `gettoken` leaves: its value, the token in the buffer and the cursor. -/
structure Got : Type where
  ret : UInt8
  span : Span
  ps : ℕ

/-- The `switch` of `gettoken`: its value and the pointer to the character after the token. -/
def tokenAt (s : ℕ) : UInt8 × ℕ :=
  let c := charAt buf s
  if c = 0 then (c, s)
  else if strchr (chars ['|', '(', ')', ';', '&', '<']) c then (c, s + 1)
  else if c = '>'.toUInt8 then
    if charAt buf (s + 1) = '>'.toUInt8 then ('+'.toUInt8, s + 2) else (c, s + 1)
  else ('a'.toUInt8, scan isWordChar buf s)

/-- `gettoken` -/
def gettoken (ps : ℕ) : Got :=
  let s := scan (strchr whitespace) buf ps
  let (ret, eq) := tokenAt buf s
  ⟨ret, ⟨s, eq⟩, scan (strchr whitespace) buf eq⟩

/-- `peek`, with the cursor it leaves. -/
def peek (ps : ℕ) (toks : List UInt8) : Bool × ℕ :=
  let s := scan (strchr whitespace) buf ps
  (charAt buf s ≠ 0 && strchr toks (charAt buf s), s)

/-! ## Commands -/

/-- The redirection that `parseredirs` adds for a token, and none for other tokens. -/
def redircmd (cmd : Cmd Span) (tok : UInt8) (file : Span) : Cmd Span :=
  if tok = '<'.toUInt8 then .redir cmd file 0 0
  else if tok = '>'.toUInt8 then .redir cmd file (oWronly ||| oCreate) 1
  else if tok = '+'.toUInt8 then .redir cmd file (oWronly ||| oCreate) 1
  else cmd

/-- `parseredirs` -/
def parseredirs : ℕ → Cmd Span → ℕ → Except Failure (Cmd Span × ℕ)
  | 0, _, _ => throw .outOfFuel
  | n + 1, cmd, ps =>
    let (more, ps) := peek buf ps (chars ['<', '>'])
    if more then
      let tok := gettoken buf ps
      let file := gettoken buf tok.ps
      if file.ret ≠ 'a'.toUInt8 then throw .missingFile
      else parseredirs n (redircmd cmd tok.ret file.span) file.ps
    else pure (cmd, ps)

/-- `cmd->argv[argc] = q` and `cmd->eargv[argc] = eq`, where `cmd` is the node below the
redirections of `ret`. -/
def Cmd.push (arg : Span) : Cmd Span → Cmd Span
  | .exec argv => .exec (argv ++ [arg])
  | .redir cmd file mode fd => .redir (cmd.push arg) file mode fd
  | cmd => cmd

/-- The loop of `parseexec`. -/
def parseargs : ℕ → ℕ → Cmd Span → ℕ → Except Failure (Cmd Span × ℕ)
  | 0, _, _, _ => throw .outOfFuel
  | n + 1, argc, ret, ps =>
    let (stop, ps) := peek buf ps (chars ['|', ')', '&', ';'])
    if stop then pure (ret, ps)
    else
      let tok := gettoken buf ps
      if tok.ret = 0 then pure (ret, tok.ps)
      else if tok.ret ≠ 'a'.toUInt8 then throw .syntaxError
      else if maxArgs ≤ argc + 1 then throw .tooManyArgs
      else do
        let (ret, ps) ← parseredirs buf n (ret.push tok.span) tok.ps
        parseargs n (argc + 1) ret ps

/-- The loop of `parseline`. -/
def parsebacks : ℕ → Cmd Span → ℕ → Except Failure (Cmd Span × ℕ)
  | 0, _, _ => throw .outOfFuel
  | n + 1, cmd, ps =>
    let (more, ps) := peek buf ps (chars ['&'])
    if more then parsebacks n (.back cmd) (gettoken buf ps).ps else pure (cmd, ps)

mutual

/-- `parseline` -/
def parseline : ℕ → ℕ → Except Failure (Cmd Span × ℕ)
  | 0, _ => throw .outOfFuel
  | n + 1, ps => do
    let (cmd, ps) ← parsepipe n ps
    let (cmd, ps) ← parsebacks buf n cmd ps
    let (more, ps) := peek buf ps (chars [';'])
    if more then
      let (rest, ps) ← parseline n (gettoken buf ps).ps
      pure (.list cmd rest, ps)
    else pure (cmd, ps)
  termination_by structural n => n

/-- `parsepipe` -/
def parsepipe : ℕ → ℕ → Except Failure (Cmd Span × ℕ)
  | 0, _ => throw .outOfFuel
  | n + 1, ps => do
    let (cmd, ps) ← parseexec n ps
    let (more, ps) := peek buf ps (chars ['|'])
    if more then
      let (rest, ps) ← parsepipe n (gettoken buf ps).ps
      pure (.pipe cmd rest, ps)
    else pure (cmd, ps)
  termination_by structural n => n

/-- `parseexec` -/
def parseexec : ℕ → ℕ → Except Failure (Cmd Span × ℕ)
  | 0, _ => throw .outOfFuel
  | n + 1, ps =>
    let (block, ps) := peek buf ps (chars ['('])
    if block then parseblock n ps
    else do
      let (ret, ps) ← parseredirs buf n (.exec []) ps
      parseargs buf n 0 ret ps
  termination_by structural n => n

/-- `parseblock` -/
def parseblock : ℕ → ℕ → Except Failure (Cmd Span × ℕ)
  | 0, _ => throw .outOfFuel
  | n + 1, ps =>
    let (opened, ps) := peek buf ps (chars ['('])
    if opened then do
      let (cmd, ps) ← parseline n (gettoken buf ps).ps
      let (closed, ps) := peek buf ps (chars [')'])
      if closed then parseredirs buf n cmd (gettoken buf ps).ps else throw .missingParen
    else throw .parseblock
  termination_by structural n => n

end

end Parser

/-! ## The whole line -/

/-- `nulterminate` -/
def nulterminate : Cmd Span → List UInt8 → List UInt8
  | .exec argv, buf => argv.foldl (fun buf arg => buf.set arg.eq 0) buf
  | .redir cmd file _ _, buf => (nulterminate cmd buf).set file.eq 0
  | .pipe left right, buf => nulterminate right (nulterminate left buf)
  | .list left right, buf => nulterminate right (nulterminate left buf)
  | .back cmd, buf => nulterminate cmd buf

/-- `parsecmd`, with the buffer it leaves. -/
def parsecmd (n : ℕ) (s : Line) : Except Failure (Cmd Span × List UInt8) := do
  let (cmd, ps) ← parseline s.bytes n 0
  if (peek s.bytes ps []).2 ≠ s.bytes.length then throw .syntaxError
  else pure (cmd, nulterminate cmd (s.bytes ++ [0]))

end InuOs.Sh
