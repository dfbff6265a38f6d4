import InuOs.Console
import InuOs.Graphic

/-!
# What the console prints (`console.c`)

Three functions print: `consolewrite` what a process writes, `consoleintr` what is typed, and
`cprintf` what the kernel formats. All of them pass characters to `graphic_putc`, which draws
whatever is neither a newline nor `BACKSPACE`, and `font_render` subtracts the code of the space
from it and looks up a table of 95 glyphs.

Nothing on the way drops a character that has no glyph. `console_glyphs` says that the lookup stays
in the table if all that is written, typed and formatted has one; a tab is enough to leave it.
-/

namespace InuOs.Console

open Graphic Run

/-! ## The three sources -/

/-- `consolewrite`: the arguments of `consputc`. -/
def consolewrite (buf : List UInt8) : List ℤ := buf.map fun b => (b.toNat : ℤ)

namespace Input

/-- What the loop of `consoleintr` that kills the line prints; it runs as `killLine` does. -/
def killEcho : ℕ → Input → List ℤ
  | 0, _ => []
  | k + 1, s =>
    if s.e ≠ s.w ∧ s.byteAt (s.e - 1) ≠ lf then backspace :: killEcho k { s with e := s.e - 1 }
    else []

/-- What `consoleintr` prints for one character. -/
def echo (s : Input) (c : UInt8) : List ℤ :=
  if c = ctrlP then []
  else if c = ctrlU then s.killEcho (s.e - s.w).toNat
  else if c = ctrlH ∨ c = del then if s.e ≠ s.w then [backspace] else []
  else if c ≠ 0 ∧ s.e - s.r < 128 then [((if c = cr then lf else c).toNat : ℤ)]
  else []

/-- What a call of `consoleintr` prints. -/
def echoes : Input → List UInt8 → List ℤ
  | _, [] => []
  | s, c :: cs => s.echo c ++ echoes (s.key c) cs

end Input

/-- `digits` in `printint`. -/
def digits : List UInt8 := [48, 49, 50, 51, 52, 53, 54, 55, 56, 57, 97, 98, 99, 100, 101, 102]

/-- The loop of `printint`, most significant digit first; the number has at most as many digits as
bits. -/
def printDigits (base : UInt32) : ℕ → UInt32 → List UInt8
  | 0, _ => []
  | n + 1, x =>
    (if x / base ≠ 0 then printDigits base n (x / base) else []) ++
      [digits.getD (x % base).toNat 0]

/-- `printint` -/
def printint (xx base : UInt32) (sign : Bool) : List UInt8 :=
  let negative := sign && 0x80000000 ≤ xx
  (if negative then [45] else []) ++ printDigits base 32 (if negative then -xx else xx)

/-- A word of `cprintf`'s arguments, and the string it points to if it does. -/
structure Arg : Type where
  word : UInt32
  str : List UInt8

/-- The string that `%s` prints. -/
def Arg.text (a : Arg) : List UInt8 :=
  if a.word = 0 then [40, 110, 117, 108, 108, 41] else a.str.takeWhile (· ≠ 0)

/-- The value of a `char`, which is signed. -/
def charInt (b : UInt8) : ℤ := if b < 128 then b.toNat else (b.toNat : ℤ) - 256

/-- A part of a format, with the number of its argument. -/
inductive Piece : Type where
  | char (c : UInt8)
  | int (k : ℕ) (base : UInt32) (sign : Bool)
  | str (k : ℕ)

/-- The loop of `cprintf` over the format, with `k` arguments taken. -/
def pieces : ℕ → List UInt8 → List Piece
  | _, [] => []
  | _, [c] => if c = 0 ∨ c = 37 then [] else [.char c]
  | k, c :: d :: fmt =>
    if c = 0 then []
    else if c ≠ 37 then .char c :: pieces k (d :: fmt)
    else if d = 0 then []
    else if d = 100 then .int k 10 true :: pieces (k + 1) fmt
    else if d = 120 ∨ d = 112 then .int k 16 false :: pieces (k + 1) fmt
    else if d = 115 then .str k :: pieces (k + 1) fmt
    else if d = 37 then .char 37 :: pieces k fmt
    -- an unknown sequence
    else .char 37 :: .char d :: pieces k fmt

/-- What a part of a format prints. -/
def Piece.out (argp : ℕ → Arg) : Piece → List ℤ
  | .char c => [(c.toNat : ℤ)]
  | .int k base sign => (printint (argp k).word base sign).map charInt
  | .str k => (argp k).text.map charInt

/-- `cprintf`: the arguments of `consputc`. -/
def cprintf (fmt : List UInt8) (argp : ℕ → Arg) : List ℤ := (pieces 0 fmt).flatMap (Piece.out argp)

/-! ## The console as a whole -/

/-- The console device and its screen. -/
structure Screen : Type where
  device : State
  /-- `console_pos` -/
  pos : ℤ
  /-- the calls that `graphic_putc` has made -/
  draws : List Draw

/-- A step of the console. -/
inductive OutEv : Type where
  /-- typing and reading -/
  | device (e : Event)
  /-- a call of `consolewrite` -/
  | write (buf : List UInt8)
  /-- a call of `cprintf` -/
  | print (fmt : List UInt8) (argp : ℕ → Arg)

namespace Screen

/-- The arguments of `consputc` in a step. -/
def emits (s : Screen) : OutEv → List ℤ
  | .device (.intr cs) => s.device.input.echoes cs
  | .device _ => []
  | .write buf => consolewrite buf
  | .print fmt argp => cprintf fmt argp

/-- Print some characters. -/
def consputcs (s : Screen) (cs : List ℤ) : Screen :=
  { s with pos := (putcs s.pos cs).1, draws := s.draws ++ (putcs s.pos cs).2 }

/-- One step. -/
def step (s : Screen) (e : OutEv) : Option Screen :=
  match e with
  | .device d =>
    (s.device.step d).map fun device => { s.consputcs (s.emits e) with device := device }
  | _ => some (s.consputcs (s.emits e))

/-- Nothing was printed yet. -/
def start : Screen := ⟨.start, consolePos, []⟩

end Screen

/-! ## Glyphs -/

/-- A lookup in `font_bin` stays in the table. -/
def Glyph : Draw → Prop
  | .scrollUp _ => True
  | .render _ _ index => 0 ≤ index - 0x20 ∧ index - 0x20 < 95

/-- `graphic_putc` has a meaning or a glyph for a character. -/
def Shown (c : ℤ) : Prop := c = 10 ∨ c = backspace ∨ 0x20 ≤ c ∧ c < 0x7f

/-- A byte that can be printed. -/
def ShownByte (b : UInt8) : Prop := b = lf ∨ 0x20 ≤ b ∧ b < 0x7f

instance (b : UInt8) : Decidable (ShownByte b) := inferInstanceAs (Decidable (_ ∨ _))

theorem glyph_scroll {pos : ℤ} : ∀ d ∈ (scroll pos).2, Glyph d := by
  unfold scroll
  split_ifs
  · exact List.forall_mem_singleton.mpr trivial
  · exact List.forall_mem_nil _

/-- **One character**: the lookup stays in the table exactly for those that are shown. -/
theorem glyph_graphicPutc_iff (pos c : ℤ) :
    (∀ d ∈ (graphicPutc pos c).2, Glyph d) ↔ Shown c := by
  unfold graphicPutc
  split_ifs with hnl hbs
  · exact iff_of_true glyph_scroll (.inl hnl)
  · exact iff_of_true (List.forall_mem_nil _) (.inr (.inl hbs))
  · exact iff_of_true (List.forall_mem_nil _) (.inr (.inl hbs))
  · rw [List.forall_mem_append, List.forall_mem_singleton, and_iff_right glyph_scroll, Glyph, Shown]
    omega

theorem glyph_putcs_iff (pos : ℤ) (cs : List ℤ) :
    (∀ d ∈ (putcs pos cs).2, Glyph d) ↔ ∀ c ∈ cs, Shown c := by
  induction cs generalizing pos with
  | nil => exact iff_of_true (List.forall_mem_nil _) (List.forall_mem_nil _)
  | cons c cs ih =>
    rw [putcs, List.forall_mem_append, glyph_graphicPutc_iff, ih, List.forall_mem_cons]

/-! ## What each source prints -/

theorem shown_toNat_iff (b : UInt8) : Shown (b.toNat : ℤ) ↔ ShownByte b := by
  have hb := b.toNat_lt
  have hlf : b = lf ↔ b.toNat = 10 := UInt8.toNat_inj.symm
  have hlo : (0x20 : UInt8) ≤ b ↔ 32 ≤ b.toNat := UInt8.le_iff_toNat_le
  have hhi : b < (0x7f : UInt8) ↔ b.toNat < 127 := UInt8.lt_iff_toNat_lt
  rw [Shown, ShownByte, backspace, hlf, hlo, hhi]
  omega

theorem shown_charInt {b : UInt8} (h : ShownByte b) : Shown (charInt b) := by
  have hlt : b < 128 := by
    rcases h with rfl | ⟨-, hlt⟩
    · decide
    · exact UInt8.lt_trans hlt (by decide)
  rw [charInt, if_pos hlt, shown_toNat_iff]
  exact h

theorem shown_consolewrite_iff (buf : List UInt8) :
    (∀ c ∈ consolewrite buf, Shown c) ↔ ∀ b ∈ buf, ShownByte b := by
  simp only [consolewrite, List.forall_mem_map, shown_toNat_iff]

/-- Keys that have a meaning for the line, or a glyph. -/
def ShownKey (c : UInt8) : Prop := c ∈ [0, ctrlP, ctrlU, ctrlH, del, cr] ∨ ShownByte c

theorem shown_killEcho (k : ℕ) (s : Input) : ∀ c ∈ s.killEcho k, Shown c := by
  induction k generalizing s with
  | zero => exact List.forall_mem_nil _
  | succ k ih =>
    rw [Input.killEcho]
    split_ifs
    · exact List.forall_mem_cons.mpr ⟨.inr (.inl rfl), ih _⟩
    · exact List.forall_mem_nil _

theorem shown_echo {s : Input} {k : UInt8} (hk : ShownKey k) : ∀ c ∈ s.echo k, Shown c := by
  unfold Input.echo
  split_ifs with hP hU hH he hc hcr
  · exact List.forall_mem_nil _
  · exact shown_killEcho _ _
  · exact List.forall_mem_singleton.mpr (.inr (.inl rfl))
  · exact List.forall_mem_nil _
  · exact List.forall_mem_singleton.mpr (.inl rfl)
  · -- the key is stored as it is: it is none of the keys for the line
    refine List.forall_mem_singleton.mpr ((shown_toNat_iff k).mpr ?_)
    rcases hk with hmem | hbyte
    · simp only [List.mem_cons, List.not_mem_nil, or_false] at hmem
      rcases hmem with h | h | h | h | h | h
      · exact absurd h hc.1
      · exact absurd h hP
      · exact absurd h hU
      · exact absurd (.inl h) hH
      · exact absurd (.inr h) hH
      · exact absurd h hcr
    · exact hbyte
  · exact List.forall_mem_nil _

theorem shown_echoes {ks : List UInt8} (s : Input) (hks : ∀ k ∈ ks, ShownKey k) :
    ∀ c ∈ s.echoes ks, Shown c := by
  induction ks generalizing s with
  | nil => exact List.forall_mem_nil _
  | cons k ks ih =>
    rw [List.forall_mem_cons] at hks
    exact List.forall_mem_append.mpr ⟨shown_echo hks.1, ih _ hks.2⟩

/-- A number is printed in digits and a sign. -/
theorem shownByte_printDigits {base : UInt32} (h₀ : 0 < base.toNat) (h₁ : base.toNat ≤ 16) (n : ℕ)
    (x : UInt32) : ∀ b ∈ printDigits base n x, ShownByte b := by
  have htable : ∀ i < 16, ShownByte (digits.getD i 0) := by decide
  induction n generalizing x with
  | zero => exact List.forall_mem_nil _
  | succ n ih =>
    have hlt : (x % base).toNat < 16 := by
      exact (Nat.mod_lt _ h₀).trans_le h₁
    rw [printDigits, List.forall_mem_append, List.forall_mem_singleton]
    refine ⟨?_, htable _ hlt⟩
    split_ifs
    · exact ih _
    · exact List.forall_mem_nil _

theorem shownByte_printint {base : UInt32} (h₀ : 0 < base.toNat) (h₁ : base.toNat ≤ 16)
    (xx : UInt32) (sign : Bool) : ∀ b ∈ printint xx base sign, ShownByte b := by
  rw [printint, List.forall_mem_append]
  refine ⟨?_, shownByte_printDigits h₀ h₁ _ _⟩
  split_ifs
  · exact List.forall_mem_singleton.mpr (by decide)
  · exact List.forall_mem_nil _

/-- The characters of a format, and the strings that it prints, have glyphs. -/
def Piece.Plain (argp : ℕ → Arg) : Piece → Prop
  | .char c => ShownByte c
  | .int _ base _ => 0 < base.toNat ∧ base.toNat ≤ 16
  | .str k => ∀ b ∈ (argp k).text, ShownByte b

theorem Piece.Plain.shown {argp : ℕ → Arg} {p : Piece} (h : p.Plain argp) :
    ∀ c ∈ p.out argp, Shown c := by
  cases p with
  | char c => exact List.forall_mem_singleton.mpr ((shown_toNat_iff c).mpr h)
  | int k base sign =>
    exact List.forall_mem_map.mpr fun b hb => shown_charInt (shownByte_printint h.1 h.2 _ _ b hb)
  | str k => exact List.forall_mem_map.mpr fun b hb => shown_charInt (h b hb)

/-! ## Runs -/

/-- All that is written, typed or formatted has a glyph, or a meaning for the line. -/
def OutEv.Plain : OutEv → Prop
  | .device (.intr cs) => ∀ c ∈ cs, ShownKey c
  | .device _ => True
  | .write buf => ∀ b ∈ buf, ShownByte b
  | .print fmt argp => ∀ p ∈ pieces 0 fmt, p.Plain argp

namespace Screen

theorem shown_emits (s : Screen) {e : OutEv} (he : e.Plain) : ∀ c ∈ s.emits e, Shown c := by
  rcases e with (_ | _ | _) | _ | _
  · exact shown_echoes _ he
  · exact List.forall_mem_nil _
  · exact List.forall_mem_nil _
  · exact (shown_consolewrite_iff _).mpr he
  · intro c hc
    obtain ⟨p, hp, hc⟩ := List.mem_flatMap.mp hc
    exact (he p hp).shown c hc

/-- What a step draws. -/
theorem draws_step {s s' : Screen} {e : OutEv} (h : s.step e = some s') :
    s'.draws = s.draws ++ (putcs s.pos (s.emits e)).2 := by
  cases e with
  | device d =>
    obtain ⟨device, -, rfl⟩ := Option.map_eq_some_iff.mp h
    rfl
  | write buf => rw [← Option.some.inj h, consputcs]
  | print fmt argp => rw [← Option.some.inj h, consputcs]

end Screen

/-- **The font is looked up inside its table** in every run of the console, if every byte that is
written or formatted is a newline or printable, and every key is one of the keys for the line or
printable. -/
theorem console_glyphs (es : List OutEv) (s : Screen) (h : exec Screen.step .start es = some s)
    (hes : ∀ e ∈ es, e.Plain) : ∀ d ∈ s.draws, Glyph d := by
  refine exec_invariant_of_forall (I := fun s => ∀ d ∈ s.draws, Glyph d) ?_
    (List.forall_mem_nil _) hes h
  intro s e s' hs he hstep
  rw [Screen.draws_step hstep, List.forall_mem_append]
  exact ⟨hs, (glyph_putcs_iff _ _).mpr (s.shown_emits he)⟩

/-- `cprintf("%d$ ", -7)`, and a command that is typed. -/
def promptRun : List OutEv :=
  [.print [37, 100, 36, 32] fun _ => ⟨0xFFFFFFF9, []⟩, .device (.intr [108, 115, 13])]

/-- The prompt and the command, glyph by glyph. -/
theorem console_glyphs_prompt :
    ∃ s, exec Screen.step .start promptRun = some s ∧
      s.draws = [.scrollUp 30, .render 2 570 45, .render 17 570 55, .render 32 570 36,
        .render 47 570 32, .render 62 570 108, .render 77 570 115, .scrollUp 30] ∧
      ∀ d ∈ s.draws, Glyph d := by
  refine ⟨_, rfl, by decide, console_glyphs promptRun _ rfl ?_⟩
  refine List.forall_mem_cons.mpr ⟨?_, List.forall_mem_singleton.mpr ?_⟩
  · refine List.forall_mem_cons.mpr ⟨⟨by decide, by decide⟩, List.forall_mem_cons.mpr ⟨?_, ?_⟩⟩
    · exact (by decide : ShownByte 36)
    · exact List.forall_mem_singleton.mpr (by decide : ShownByte 32)
  · intro c hc
    simp only [List.mem_cons, List.not_mem_nil, or_false] at hc
    rcases hc with rfl | rfl | rfl
    · exact .inr (by decide)
    · exact .inr (by decide)
    · exact .inl (by decide)

/-- A process writes a tab: the glyph of index -23 is drawn. -/
theorem console_tab :
    ∃ s, exec Screen.step .start [.write [9]] = some s ∧
      s.draws = [.scrollUp 30, .render 2 570 9] ∧ ¬∀ d ∈ s.draws, Glyph d := by
  refine ⟨_, rfl, by decide, fun hall => ?_⟩
  have hshown := (shown_consolewrite_iff [9]).mp ((glyph_putcs_iff consolePos _).mp hall)
  exact absurd (hshown 9 List.mem_cons_self) (by decide)

end InuOs.Console
