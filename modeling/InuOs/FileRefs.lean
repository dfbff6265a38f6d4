import InuOs.FileTable
import InuOs.Lib.Run

/-!
# The reference counts of open files

Between two calls, the `ref` of a file is the number of descriptors with it, whatever calls were
made before and wherever they gave up. A pipe lives exactly as long as some descriptor refers to it,
and its page goes back to the allocator in the call that drops the last one.

The calls on memory leave the files alone (`SameFiles`); `fork` takes a reference for each
descriptor that it copies. It relies on `exit`: a slot of the process table that is unused has no
descriptors left that `fork` would not overwrite (`Settled`).
-/

namespace InuOs

namespace Machine

variable {c : Platform} {s s' : Machine} {i fd f : ℕ}

/-! ## Memory -/

/-- What the calls on memory leave alone. A process that has exited may go. -/
structure SameFiles (s s' : Machine) : Prop where
  files : s'.files = s.files
  pipes : s'.pipes = s.pipes
  ofile : ∀ j, (s'.procs j).ofile = (s.procs j).ofile
  state : ∀ j, (s'.procs j).state = (s.procs j).state ∨
    (s.procs j).state = .zombie ∧ (s'.procs j).state = .unused

namespace SameFiles

protected theorem refl (s : Machine) (free : List Page) : SameFiles s { s with free := free } :=
  ⟨rfl, rfl, fun _ => rfl, fun _ => .inl rfl⟩

theorem setProc (s : Machine) (free : List Page) {p : Proc} (hofile : p.ofile = (s.procs i).ofile)
    (hstate : p.state = (s.procs i).state ∨ (s.procs i).state = .zombie ∧ p.state = .unused) :
    SameFiles s ({ s with free := free }.setProc i p) := by
  refine ⟨rfl, rfl, fun _ => setProc_congr Proc.ofile hofile, fun j => ?_⟩
  rcases eq_or_ne j i with rfl | hne
  · rw [setProc_procs_self]
    exact hstate
  · rw [setProc_procs_of_ne _ _ hne]
    exact .inl rfl

end SameFiles

theorem growproc_sameFiles (c : Platform) (s : Machine) (i : ℕ) (n : ℤ) :
    Returns (s.growproc c i n) (SameFiles s) := by
  unfold growproc
  dsimp only
  split
  · exact Meets.throw trivial
  · split
    · refine (Meets.trivial _).bind fun r _ => ?_
      split <;> exact Meets.pure (.setProc s _ rfl (.inl rfl))
    · split
      · refine (Meets.trivial _).bind fun r _ => ?_
        split <;> exact Meets.pure (.setProc s _ rfl (.inl rfl))
      · exact Meets.pure (.refl s s.free)

theorem exec_sameFiles (c : Platform) (s : Machine) (i : ℕ) (file : Option (ℕ → ℕ → List UInt8))
    (argv : List (List UInt8)) : Returns (s.exec c i file argv) (SameFiles s) := by
  refine (exec_replaced c s i file argv).mono fun t ht => ?_
  cases ht with
  | bad h =>
    rw [h.frame]
    exact .refl s t.free
  | ok _ h =>
    rw [h.frame]
    exact .setProc s t.free rfl (.inl rfl)

theorem wait_sameFiles (c : Platform) (s : Machine) (i : ℕ) :
    Returns (s.wait c i) (SameFiles s) := by
  unfold wait
  split
  · exact Meets.pure (.refl s s.free)
  · next j hfind =>
    have hzombie : (s.procs j).state = .zombie := by
      have hj := List.find?_some hfind
      simp only [decide_eq_true_eq] at hj
      exact hj.2
    dsimp only
    split
    · exact Meets.throw trivial
    · exact Meets.throw trivial
    · refine (Meets.trivial _).bind fun free _ => (Meets.trivial _).bind fun free' _ => ?_
      exact Meets.pure (.setProc s free' rfl (.inr ⟨hzombie, rfl⟩))

/-! ## fork -/

/-- The loop of `fork` takes a reference for each descriptor. -/
theorem dupFiles_files {H : Multiset ℕ} (h : Files H ∅ 0 s) (ofile : ℕ → Option ℕ) (fds : List ℕ)
    (hopen : ∀ fd ∈ fds, ∀ f, ofile fd = some f → f ∈ s.slots) :
    ∃ s', s.dupFiles ofile fds = .ok s' ∧
      Files ((fds.map fun fd => slotFile (ofile fd)).sum + H) ∅ 0 s' ∧
      s'.procs = s.procs ∧ s'.pipes = s.pipes := by
  induction fds generalizing s H with
  | nil => exact ⟨s, rfl, by rwa [List.map_nil, List.sum_nil, zero_add], rfl, rfl⟩
  | cons fd fds ih =>
    rw [dupFiles]
    cases hf : ofile fd with
    | none =>
      obtain ⟨s', hdup, hfiles, hprocs, hpipes⟩ :=
        ih h fun fd' hfd' => hopen fd' (List.mem_cons_of_mem fd hfd')
      refine ⟨s', hdup, ?_, hprocs, hpipes⟩
      rwa [List.map_cons, List.sum_cons, hf, show slotFile none = 0 from rfl, zero_add]
    | some f =>
      have hmem := hopen fd List.mem_cons_self f hf
      have hmem' : f ∈ s.slots + H := Multiset.mem_add.mpr (.inl hmem)
      obtain ⟨hone, hfiles₁⟩ := h.filedup hmem'
      obtain ⟨s', hdup, hfiles, hprocs, hpipes⟩ :=
        ih hfiles₁ fun fd' hfd' => hopen fd' (List.mem_cons_of_mem fd hfd')
      refine ⟨s', ?_, ?_, hprocs, hpipes⟩
      · dsimp only
        rw [hone]
        exact hdup
      · rw [List.map_cons, List.sum_cons, hf]
        rw [← Multiset.singleton_add, ← add_assoc] at hfiles
        rw [add_comm (slotFile (some f))]
        exact hfiles

/-- `allocproc` leaves the files alone, and makes an unused slot an embryo. -/
theorem allocproc_files (s : Machine) :
    s.allocproc.1.files = s.files ∧ s.allocproc.1.pipes = s.pipes ∧
      (∀ j, (s.allocproc.1.procs j).ofile = (s.procs j).ofile) ∧
      ∀ j, s.allocproc.2 ≠ some j → (s.allocproc.1.procs j).state = (s.procs j).state := by
  unfold allocproc
  split
  · exact ⟨rfl, rfl, fun _ => rfl, fun _ _ => rfl⟩
  · next n hfind =>
    have hunused : (s.procs n).state = .unused := by simpa using List.find?_some hfind
    dsimp only
    split
    · exact ⟨rfl, rfl, fun _ => setProc_congr Proc.ofile rfl,
        fun _ _ => setProc_congr Proc.state hunused.symm⟩
    · refine ⟨rfl, rfl, fun _ => setProc_congr Proc.ofile rfl, fun j hj => ?_⟩
      have hne : j ≠ n := fun heq => hj (by rw [heq])
      rw [setProc_procs_of_ne _ _ hne]

/-- What a process that is gone has: no descriptors. -/
def Gone (s : Machine) (j : ℕ) : Prop :=
  (s.procs j).state = .unused ∨ (s.procs j).state = .zombie

/-- Between calls: nobody is half made, and who is gone has no files. -/
structure Settled (s : Machine) : Prop where
  embryo : ∀ j < nProc, (s.procs j).state ≠ .embryo
  gone : ∀ j < nProc, s.Gone j → ∀ fd < nOFile, (s.procs j).ofile fd = none

theorem SameFiles.settled (h : SameFiles s s') (hs : s.Settled) : s'.Settled := by
  refine ⟨fun j hj => ?_, fun j hj hgone fd hfd => ?_⟩
  · rcases h.state j with heq | ⟨-, hunused⟩
    · rw [heq]
      exact hs.embryo j hj
    · rw [hunused]
      exact nofun
  · rw [h.ofile]
    refine hs.gone j hj ?_ fd hfd
    rcases h.state j with heq | ⟨hzombie, -⟩
    · rwa [Gone, heq] at hgone
    · exact .inr hzombie

theorem Frame.settled (h : Frame i s s') (hs : s.Settled) (hrun : (s.procs i).state = .running) :
    s'.Settled := by
  refine ⟨fun j hj => ?_, fun j hj hgone fd hfd => ?_⟩
  · rw [h.state]
    exact hs.embryo j hj
  · rcases eq_or_ne j i with rfl | hne
    · rw [Gone, h.state, hrun] at hgone
      exact hgone.elim nofun nofun
    · rw [Gone, h.state] at hgone
      rw [h.others j hne]
      exact hs.gone j hj hgone fd hfd

/-- One slot changes its state. -/
theorem Settled.of_state (hs : s.Settled) {n : ℕ}
    (hofile : ∀ j ≠ n, (s'.procs j).ofile = (s.procs j).ofile)
    (hstate : ∀ j ≠ n, (s'.procs j).state = (s.procs j).state)
    (hembryo : (s'.procs n).state ≠ .embryo)
    (hgone : s'.Gone n → ∀ fd < nOFile, (s'.procs n).ofile fd = none) : s'.Settled := by
  refine ⟨fun j hj => ?_, fun j hj hgonej fd hfd => ?_⟩
  · rcases eq_or_ne j n with rfl | hne
    · exact hembryo
    · rw [hstate j hne]
      exact hs.embryo j hj
  · rcases eq_or_ne j n with rfl | hne
    · exact hgone hgonej fd hfd
    · rw [Gone, hstate j hne] at hgonej
      rw [hofile j hne]
      exact hs.gone j hj hgonej fd hfd

theorem fork_files (c : Platform) (h : Files 0 ∅ 0 s) (hs : s.Settled) (hi : i < nProc) :
    Returns (s.fork c i) fun s' => Files 0 ∅ 0 s' ∧ s'.Settled ∧ s'.pipes = s.pipes := by
  obtain ⟨hfiles₁, hpipes₁, hofile₁, hstate₁⟩ := s.allocproc_files
  have hembryo := s.allocproc_spec
  unfold fork
  split
  · next s₁ halloc =>
    rw [halloc] at hfiles₁ hpipes₁ hofile₁ hstate₁
    have hsame : SameFiles s s₁ := ⟨hfiles₁, hpipes₁, hofile₁, fun j => .inl (hstate₁ j nofun)⟩
    exact Meets.pure ⟨h.congr (fun j _ => hofile₁ j) hfiles₁ hpipes₁, hsame.settled hs, hpipes₁⟩
  · next s₁ n halloc =>
    rw [halloc] at hfiles₁ hpipes₁ hofile₁ hstate₁ hembryo
    replace hstate₁ : ∀ j ≠ n, (s₁.procs j).state = (s.procs j).state := fun j hj =>
      hstate₁ j fun heq => hj (Option.some.inj heq).symm
    have hnone : ∀ fd < nOFile, (s₁.procs n).ofile fd = none := fun fd hfd => by
      rw [show (s₁.procs n).ofile = _ from hofile₁ n]
      exact hs.gone n hembryo.slot (.inl hembryo.unused) fd hfd
    dsimp only
    split
    · exact Meets.throw trivial
    · refine (Meets.trivial _).bind ?_
      rintro ⟨free, pgdir⟩ -
      split
      · exact Meets.throw trivial
      · -- no memory for the copy: the slot is unused again
        refine (Meets.trivial _).bind fun free' _ => Meets.pure ⟨?_, ?_, hpipes₁⟩
        · refine h.congr (fun j _ => ?_) hfiles₁ hpipes₁
          rw [← show (s₁.procs j).ofile = _ from hofile₁ j]
          exact setProc_congr Proc.ofile rfl
        · refine hs.of_state (n := n) (fun j hj => ?_) (fun j hj => ?_) ?_ fun _ fd hfd => ?_
          · rw [setProc_procs_of_ne _ _ hj]
            exact hofile₁ j
          · rw [setProc_procs_of_ne _ _ hj]
            exact hstate₁ j hj
          · rw [setProc_procs_self]
            exact nofun
          · rw [setProc_procs_self]
            exact hnone fd hfd
      · next d kstack _ =>
        have hfree : Files 0 ∅ 0 { s₁ with free := free } :=
          h.congr (fun j _ => hofile₁ j) hfiles₁ hpipes₁
        obtain ⟨s₂, hdup, hfiles₂, hprocs₂, hpipes₂⟩ :=
          dupFiles_files hfree (s₁.procs i).ofile (List.range nOFile) fun fd hfd f hf =>
            mem_slots_of_ofile hi (List.mem_range.mp hfd) hf
        refine Meets.bind (P := (s₂ = ·)) (by rw [hdup]; exact Meets.pure rfl) ?_
        rintro _ rfl
        have hn : s₂.procs n = s₁.procs n := by rw [hprocs₂]
        have hempty : (s₂.procs n).fds = 0 := by rw [hn]; exact Proc.fds_eq_zero hnone
        have hcopy : { s₂.procs n with
            ofile := fun fd => ((s₁.procs i).ofile fd).or ((s₁.procs n).ofile fd) }.fds =
            ((List.range nOFile).map fun fd => slotFile ((s₁.procs i).ofile fd)).sum := by
          refine Finset.sum_congr rfl fun fd hfd => ?_
          dsimp only
          rw [hnone fd (Finset.mem_range.mp hfd), Option.or_none]
        have hmoved : Files 0 ∅ 0 (s₂.setProc n { s₂.procs n with
            ofile := fun fd => ((s₁.procs i).ofile fd).or ((s₁.procs n).ofile fd) }) :=
          hfiles₂.setOfile hembryo.slot (by rw [hcopy, hempty, zero_add, add_zero])
        refine Meets.pure ⟨hmoved.congr (fun j _ => ?_) rfl rfl, ?_, hpipes₂.trans hpipes₁⟩
        · rcases eq_or_ne j n with rfl | hne
          · rw [setProc_procs_self, setProc_procs_self]
          · rw [setProc_procs_of_ne _ _ hne, setProc_procs_of_ne _ _ hne]
        · refine hs.of_state (n := n) (fun j hj => ?_) (fun j hj => ?_) ?_ fun hgone => ?_
          · rw [setProc_procs_of_ne _ _ hj, hprocs₂]
            exact hofile₁ j
          · rw [setProc_procs_of_ne _ _ hj, hprocs₂]
            exact hstate₁ j hj
          · rw [setProc_procs_self]
            exact nofun
          · rw [Gone, setProc_procs_self] at hgone
            exact hgone.elim nofun nofun

/-! ## Runs -/

/-- The state between calls. -/
structure Inv (c : Platform) (s : Machine) : Prop where
  files : Files 0 ∅ 0 s
  owned : s.owned ≤ (Finset.Ico c.kend (phyStop / pgSize)).val
  settled : s.Settled

theorem Inv.pages (h : Inv c s) : s.Pages c := by
  have hle : (↑s.free + s.pipePages : Multiset Page) ≤ s.owned := by
    rw [Machine.owned, add_right_comm ↑s.free s.procPages, add_assoc, add_assoc]
    exact Multiset.le_add_right _ _
  refine ⟨Multiset.nodup_of_le (hle.trans h.owned) (Finset.nodup _), fun p hp => ?_⟩
  exact Finset.mem_Ico.mp (Multiset.mem_of_le (hle.trans h.owned) hp)

/-- No pipe is lost: its page stays the page of a pipe or becomes free. -/
def KeepsPipes (s s' : Machine) : Prop :=
  ∀ p ∈ s.pipes.map Pipe.page, p ∈ s'.pipes.map Pipe.page ∨ p ∈ s'.free

theorem keepsPipes_of_pages
    (h : (↑s'.free + s'.pipePages : Multiset Page) = ↑s.free + s.pipePages) : KeepsPipes s s' := by
  intro p hp
  have hmem : p ∈ (↑s'.free + s'.pipePages : Multiset Page) := by
    rw [h]
    exact Multiset.mem_add.mpr (.inr (Multiset.mem_coe.mpr hp))
  rcases Multiset.mem_add.mp hmem with hfree | hpipe
  · exact .inr (Multiset.mem_coe.mp hfree)
  · exact .inl (Multiset.mem_coe.mp hpipe)

theorem keepsPipes_of_eq (h : s'.pipes = s.pipes) : KeepsPipes s s' :=
  fun p hp => .inl (by rwa [h])

/-- Calls that always return: no file or pipe that they use is gone. -/
def FileCall.Total (s : Machine) (i : ℕ) : FileCall → Prop
  | .open _ _ | .dup _ | .read _ | .write _ | .page .pipe | .page (.close _) => True
  | .page .exit => i ≠ s.initproc
  | .page .fork | .page (.exec _ _) | .page (.growproc _) | .page .wait => False

theorem Inv.of_frame (h : Inv c s) (hrun : (s.procs i).state = .running) (hfiles : Files 0 ∅ 0 s')
    (hframe : Frame i s s') : Inv c s' ∧ KeepsPipes s s' :=
  ⟨⟨hfiles, hframe.owned.le.trans h.owned, hframe.settled h.settled hrun⟩,
    keepsPipes_of_pages hframe.pages⟩

theorem Inv.of_sameFiles (h : Inv c s) (hsame : SameFiles s s') (howned : s'.owned = s.owned) :
    Inv c s' ∧ KeepsPipes s s' :=
  ⟨⟨h.files.congr (fun j _ => hsame.ofile j) hsame.files hsame.pipes, howned.le.trans h.owned,
    hsame.settled h.settled⟩, keepsPipes_of_eq hsame.pipes⟩

section Step

variable (h : Inv c s) (hi : i < nProc) (hrun : (s.procs i).state = .running)

include h hi hrun

/-- The calls on files return, and keep the invariant. -/
theorem Inv.call_total (k : FileCall) (hk : k.Total s i) :
    ∃ s', s.fileStep c i k = .ok s' ∧ Inv c s' ∧ KeepsPipes s s' := by
  have hpages := h.pages
  cases k with
  | «open» found omode =>
    obtain ⟨s', hcall, hfiles, hframe⟩ := sysOpen_files (c := c) h.files hi found omode
    exact ⟨s', hcall, h.of_frame hrun hfiles hframe⟩
  | dup fd =>
    obtain ⟨s', hcall, hfiles, hframe⟩ := sysDup_files h.files hi fd
    exact ⟨s', hcall, h.of_frame hrun hfiles hframe⟩
  | read fd => exact ⟨s, sysRead_files h.files hi fd, h, keepsPipes_of_eq rfl⟩
  | write fd => exact ⟨s, sysWrite_files h.files hi fd, h, keepsPipes_of_eq rfl⟩
  | page call =>
    cases call with
    | pipe =>
      obtain ⟨s', hcall, hfiles, hframe⟩ := sysPipe_files h.files hpages hi
      exact ⟨s', hcall, h.of_frame hrun hfiles hframe⟩
    | close fd =>
      obtain ⟨s', hcall, hfiles, hframe, -⟩ := sysClose_files h.files hpages hi fd
      exact ⟨s', hcall, h.of_frame hrun hfiles hframe⟩
    | exit =>
      obtain ⟨s', hcall, hfiles, hkeep, hzombie, hnone, hothers⟩ :=
        exit_files h.files hpages hi hk
      have howned : s'.owned = s.owned := (exit_spec c hrun).of_ok hcall
      refine ⟨s', hcall, ⟨hfiles, howned.le.trans h.owned, ?_⟩, keepsPipes_of_pages hkeep⟩
      exact h.settled.of_state (n := i) (fun j hj => (hothers j hj).2)
        (fun j hj => (hothers j hj).1)
        (by rw [hzombie]; exact nofun) fun _ => hnone
    | fork | exec _ _ | growproc _ | wait => exact hk.elim

/-- Every call that returns keeps the invariant. -/
theorem Inv.call {k : FileCall} (hcall : s.fileStep c i k = .ok s') :
    Inv c s' ∧ KeepsPipes s s' := by
  by_cases hk : k.Total s i
  · obtain ⟨s'', hcall', hinv⟩ := h.call_total hi hrun k hk
    obtain rfl := Except.ok.inj (hcall.symm.trans hcall')
    exact hinv
  · cases k with
    | «open» _ _ | dup _ | read _ | write _ => exact absurd trivial hk
    | page call =>
      cases call with
      | pipe | close _ => exact absurd trivial hk
      | exit =>
        have hinit : i = s.initproc := Classical.not_not.mp hk
        change s.exit c i = .ok s' at hcall
        rw [exit, if_pos hinit] at hcall
        cases hcall
      | fork =>
        obtain ⟨hfiles, hsettled, hpipes⟩ := (fork_files c h.files h.settled hi).of_ok hcall
        obtain ⟨lost, howned, -⟩ := (fork_spec c hrun).of_ok hcall
        have hle : s'.owned ≤ s.owned := howned ▸ Multiset.le_add_right _ _
        exact ⟨⟨hfiles, hle.trans h.owned, hsettled⟩, keepsPipes_of_eq hpipes⟩
      | exec file argv =>
        exact h.of_sameFiles ((exec_sameFiles c s i file argv).of_ok hcall)
          ((exec_spec c hi hrun file argv).of_ok hcall)
      | growproc n =>
        exact h.of_sameFiles ((growproc_sameFiles c s i n).of_ok hcall)
          ((growproc_spec c hi hrun n).of_ok hcall)
      | wait =>
        exact h.of_sameFiles ((wait_sameFiles c s i).of_ok hcall)
          ((wait_spec c s i).of_ok hcall)

end Step

/-- A process makes a call, or the scheduler gives it a CPU or takes it away. -/
inductive FileEvent : Type where
  | call (i : ℕ) (k : FileCall)
  | sched (i : ℕ)
  | yield (i : ℕ)

/-- One step. -/
def fileEvent (c : Platform) (s : Machine) : FileEvent → Option Machine
  | .call i k =>
    if i < nProc ∧ (s.procs i).state = .running then (s.fileStep c i k).toOption else none
  | .sched i =>
    if (s.procs i).state = .runnable then some (s.setProc i { s.procs i with state := .running })
    else none
  | .yield i =>
    if (s.procs i).state = .running then some (s.setProc i { s.procs i with state := .runnable })
    else none

/-- A process changes between two states that are neither unused nor embryo. -/
theorem Inv.setState (h : Inv c s) {state : ProcState}
    (hold : (s.procs i).state ∈ [.runnable, .running])
    (hnew : state ∈ [ProcState.runnable, .running]) :
    Inv c (s.setProc i { s.procs i with state := state }) := by
  have hofile (j : ℕ) : ((s.setProc i { s.procs i with state := state }).procs j).ofile =
      (s.procs j).ofile :=
    setProc_congr Proc.ofile rfl
  have howned : (s.setProc i { s.procs i with state := state }).owned = s.owned := by
    refine owned_setProc_of_eq ?_
    rw [Proc.owned_of_state (p := s.procs i), Proc.owned_of_state]
    all_goals simp_all
    all_goals rcases hold with hold | hold <;> rcases hnew with rfl | rfl <;> simp_all
  refine ⟨h.files.congr (fun j _ => hofile j) rfl rfl, howned.le.trans h.owned,
    h.settled.of_state (n := i) (fun j _ => hofile j) (fun j hj => ?_) ?_ fun hgone => ?_⟩
  · rw [setProc_procs_of_ne _ _ hj]
  · rw [setProc_procs_self]
    rintro rfl
    simp at hnew
  · rw [Gone, setProc_procs_self] at hgone
    rcases hgone with rfl | rfl <;> simp at hnew

theorem Inv.event (h : Inv c s) {e : FileEvent} (hstep : s.fileEvent c e = some s') : Inv c s' := by
  cases e with
  | call i k =>
    obtain ⟨⟨hi, hrun⟩, hcall⟩ := Option.ite_none_right_eq_some.mp hstep
    cases hr : s.fileStep c i k with
    | error e =>
      rw [hr] at hcall
      exact nomatch hcall
    | ok s'' =>
      rw [hr] at hcall
      obtain rfl := Option.some.inj hcall
      exact (h.call hi hrun hr).1
  | sched i =>
    obtain ⟨hstate, ⟨⟩⟩ := Option.ite_none_right_eq_some.mp hstep
    exact h.setState (by simp [hstate]) (by simp)
  | yield i =>
    obtain ⟨hstate, ⟨⟩⟩ := Option.ite_none_right_eq_some.mp hstep
    exact h.setState (by simp [hstate]) (by simp)

/-! ## What the invariant says -/

/-- The descriptors of one end of the pipe in page `p`. -/
def endSlots (s : Machine) (p : Page) (writable : Bool) : Finset (ℕ × ℕ) :=
  (Finset.range nProc ×ˢ Finset.range nOFile).filter fun x =>
    ((s.procs x.1).ofile x.2).any fun f =>
      (s.files f).type = .pipe ∧ (s.files f).pipe = p ∧ (s.files f).writable = writable

/-- An end has descriptors if a file with descriptors has it. -/
theorem endSlots_nonempty_iff {p : Page} {w : Bool} : (s.endSlots p w).Nonempty ↔
    ∃ f ∈ s.slots, (s.files f).type = .pipe ∧ (s.files f).pipe = p ∧ (s.files f).writable = w := by
  simp only [endSlots, slots, Finset.filter_nonempty_iff, Multiset.mem_sum,
    Proc.mem_fds, Prod.exists,
    Finset.mem_product, Finset.mem_range, Option.any_eq_true, decide_eq_true_eq]
  constructor
  · rintro ⟨i, fd, ⟨hi, hfd⟩, f, hf, hfile⟩
    exact ⟨f, ⟨i, hi, fd, hfd, hf⟩, hfile⟩
  · rintro ⟨f, ⟨i, hi, fd, hfd, hf⟩, hfile⟩
    exact ⟨i, fd, ⟨hi, hfd⟩, f, hf, hfile⟩

/-- The open files, as the descriptors of the processes refer to them. -/
structure FilesExact (s : Machine) : Prop where
  /-- `ref` counts the descriptors -/
  ref : ∀ f < nFile, (s.files f).ref = (s.slotsOf f).card
  /-- descriptors are pointers into the table -/
  lt : ∀ f, (s.slotsOf f).Nonempty → f < nFile
  /-- the files without a type are those with `ref` 0 -/
  free : ∀ f < nFile, (s.files f).type = .none ↔ (s.files f).ref = 0
  /-- `filealloc` gives a file without descriptors, also the second time -/
  filealloc : ∀ s₁ f, s.filealloc = some (s₁, f) → s.slotsOf f = ∅ ∧
    ∀ s₂ g, s₁.filealloc = some (s₂, g) → g ≠ f ∧ s.slotsOf g = ∅
  /-- an end of a pipe is open as long as it has descriptors -/
  ends : ∀ q ∈ s.pipes, (q.readopen = true ↔ (s.endSlots q.page false).Nonempty) ∧
    (q.writeopen = true ↔ (s.endSlots q.page true).Nonempty)
  /-- a pipe is there as long as one of its ends has descriptors -/
  pipes : ∀ p, p ∈ s.pipes.map Pipe.page ↔ ∃ w, (s.endSlots p w).Nonempty
  /-- no page is that of two pipes, and none is free -/
  pages : (s.pipes.map Pipe.page).Nodup ∧ ∀ p ∈ s.pipes.map Pipe.page, p ∉ s.free

namespace Inv

theorem endSlots_nonempty (h : Inv c s) {p : Page} {w : Bool} :
    (s.endSlots p w).Nonempty ↔ (p, w) ∈ openEnds s.pipes := by
  rw [← h.files.ends, add_zero, mem_fileEnds, endSlots_nonempty_iff]
  constructor
  · rintro ⟨f, hf, htype, rfl, rfl⟩
    exact ⟨f, h.files.lt f (by rwa [add_zero]), htype, rfl⟩
  · rintro ⟨f, hlt, htype, heq⟩
    obtain ⟨rfl, rfl⟩ := Prod.mk.inj heq
    have href : (s.files f).ref ≠ 0 := fun hzero => by
      have hnone := (h.files.type f hlt).mpr (.inl hzero)
      rw [htype] at hnone
      cases hnone
    have hcount : 0 < s.slots.count f := by
      have := h.files.ref f hlt
      rw [add_zero, if_neg (Finset.notMem_empty f)] at this
      omega
    exact ⟨f, Multiset.count_pos.mp hcount, htype, rfl, rfl⟩

theorem nodup_pipes (h : Inv c s) : (s.pipes.map Pipe.page).Nodup :=
  Multiset.coe_nodup.mp
    (Multiset.nodup_of_le (Multiset.le_add_left s.pipePages ↑s.free) h.pages.nodup)

theorem not_free (h : Inv c s) {p : Page} (hp : p ∈ s.pipes.map Pipe.page) : p ∉ s.free :=
  fun hfree => Multiset.disjoint_left.mp (Multiset.nodup_add.mp h.pages.nodup).2.2
    (Multiset.mem_coe.mpr hfree) (Multiset.mem_coe.mpr hp)

/-- An end is open if the pipe says so. -/
theorem mem_openEnds_iff (h : Inv c s) {q : Pipe} (hq : q ∈ s.pipes) (w : Bool) :
    (q.page, w) ∈ openEnds s.pipes ↔ (q.page, w) ∈ q.ends := by
  refine ⟨fun hmem => ?_, fun hmem => mem_openEnds.mpr ⟨q, hq, hmem⟩⟩
  obtain ⟨q', hq', hx⟩ := mem_openEnds.mp hmem
  have hpage : q.page = q'.page := Pipe.page_of_mem_ends hx
  obtain rfl : q = q' := List.inj_on_of_nodup_map h.nodup_pipes hq hq' hpage
  exact hx

theorem filesExact (h : Inv c s) : FilesExact s := by
  have hslots (f : ℕ) (hout : f ∉ s.slots + 0) : s.slotsOf f = ∅ := by
    rw [add_zero, mem_slots] at hout
    exact Finset.not_nonempty_iff_eq_empty.mp hout
  refine ⟨fun f hf => ?_, fun f hf => ?_, fun f hf => ?_, fun s₁ f ha => ?_, fun q hq => ⟨?_, ?_⟩,
    fun p => ?_, h.nodup_pipes, fun p hp => h.not_free hp⟩
  · rw [h.files.ref f hf, if_neg (Finset.notMem_empty f), add_zero, add_zero, count_slots]
  · exact h.files.lt f (by rw [add_zero]; exact mem_slots.mpr hf)
  · rw [h.files.type f hf, or_iff_left (Finset.notMem_empty f)]
  · obtain ⟨⟨-, hout, -⟩, hfiles₁, hframe₁⟩ := h.files.filealloc (i := 0) ha
    refine ⟨hslots f hout, fun s₂ g ha' => ?_⟩
    obtain ⟨⟨-, hout', hne⟩, -, -⟩ := hfiles₁.filealloc (i := 0) ha'
    refine ⟨fun heq => hne (heq ▸ Finset.mem_insert_self f ∅), hslots g ?_⟩
    have hsame : s₁.slots = s.slots := by
      obtain ⟨f', -, heq⟩ := Option.map_eq_some_iff.mp ha
      rw [← (Prod.mk.inj heq).1]
      rfl
    rwa [hsame] at hout'
  · rw [h.endSlots_nonempty, h.mem_openEnds_iff hq, q.mem_ends_iff]
    rfl
  · rw [h.endSlots_nonempty, h.mem_openEnds_iff hq, q.mem_ends_iff]
    rfl
  · constructor
    · intro hp
      obtain ⟨q, hq, rfl⟩ := List.mem_map.mp hp
      obtain ⟨x, hx⟩ := Multiset.exists_mem_of_ne_zero (h.files.open q hq)
      refine ⟨x.2, h.endSlots_nonempty.mpr (mem_openEnds.mpr ⟨q, hq, ?_⟩)⟩
      rw [← Pipe.page_of_mem_ends hx]
      exact hx
    · rintro ⟨w, hw⟩
      obtain ⟨q, hq, hx⟩ := mem_openEnds.mp (h.endSlots_nonempty.mp hw)
      exact List.mem_map.mpr ⟨q, hq, (Pipe.page_of_mem_ends hx).symm⟩

end Inv

/-- A machine on which no file is open. -/
structure Boot (c : Platform) (s : Machine) : Prop where
  files : ∀ f < nFile, (s.files f).ref = 0 ∧ (s.files f).type = .none
  pipes : s.pipes = []
  ofile : ∀ j < nProc, ∀ fd < nOFile, (s.procs j).ofile fd = none
  embryo : ∀ j < nProc, (s.procs j).state ≠ .embryo
  owned : s.owned ≤ (Finset.Ico c.kend (phyStop / pgSize)).val

theorem Boot.inv (h : Boot c s) : Inv c s := by
  have hslots : s.slots = 0 :=
    Finset.sum_eq_zero fun j hj => Proc.fds_eq_zero (h.ofile j (Finset.mem_range.mp hj))
  have hends : s.fileEnds = 0 := Finset.sum_eq_zero fun f hf => by
    rw [File.ends, (h.files f (Finset.mem_range.mp hf)).2, if_neg (by simp)]
  refine ⟨⟨fun f hf => ?_, ?_, fun f hf => absurd hf (Finset.notMem_empty f),
    fun f hf => ?_, ?_, ?_⟩, h.owned, h.embryo, fun j hj _ => h.ofile j hj⟩
  · rw [(h.files f hf).1, hslots]
    simp
  · rw [hslots]
    simp
  · exact iff_of_true (h.files f hf).2 (.inl (h.files f hf).1)
  · rw [hends, h.pipes]
    rfl
  · simp [h.pipes]

/-- **The reference counts of open files are exact.** In every run of calls by any processes, the
file table says what the descriptors say (`FilesExact`) between any two calls. The calls on files
return from there: none of them meets a file or a pipe that is gone. And with every call, the page
of a pipe that was there either is not free and has descriptors, or has none left and has become
free, once. -/
theorem open_files_exact (c : Platform) (s₀ s : Machine) (h₀ : Boot c s₀) (es : List FileEvent)
    (hrun : Run.exec (fileEvent c) s₀ es = some s) :
    FilesExact s ∧
    ∀ i < nProc, (s.procs i).state = .running → ∀ k : FileCall,
      (k.Total s i → ∃ s', s.fileStep c i k = .ok s') ∧
      ∀ s', s.fileStep c i k = .ok s' → FilesExact s' ∧ ∀ p ∈ s.pipes.map Pipe.page,
        (∃ w, (s'.endSlots p w).Nonempty) ∧ p ∉ s'.free ∨
        (∀ w, s'.endSlots p w = ∅) ∧ s'.free.count p = 1 := by
  have hinv : Inv c s := Run.exec_invariant (fun _ _ _ h hstep => h.event hstep) h₀.inv hrun
  refine ⟨hinv.filesExact, fun i hi hstate k => ⟨fun hk => ?_, fun s' hcall => ?_⟩⟩
  · obtain ⟨s', hcall, -⟩ := hinv.call_total hi hstate k hk
    exact ⟨s', hcall⟩
  · obtain ⟨hinv', hkeep⟩ := hinv.call hi hstate hcall
    refine ⟨hinv'.filesExact, fun p hp => ?_⟩
    by_cases hpipe : p ∈ s'.pipes.map Pipe.page
    · exact .inl ⟨(hinv'.filesExact.pipes p).mp hpipe, hinv'.not_free hpipe⟩
    · have hfree := (hkeep p hp).resolve_left hpipe
      have hnodup : s'.free.Nodup := Multiset.coe_nodup.mp
        (Multiset.nodup_of_le (Multiset.le_add_right _ _) hinv'.pages.nodup)
      refine .inr ⟨fun w => ?_, List.count_eq_one_of_mem hnodup hfree⟩
      by_contra hne
      exact hpipe ((hinv'.filesExact.pipes p).mpr ⟨w, Finset.nonempty_iff_ne_empty.mpr hne⟩)

/-- init makes a pipe. -/
theorem open_files_exact_init : ∃ (c : Platform) (s : Machine),
    Run.exec (fileEvent c) (initMachine c (c.kvmTables + 4)) [.call 0 (.page .pipe)] = some s ∧
      FilesExact s := by
  obtain ⟨c, hmem⟩ := exists_platform
  have hboot : Boot c (initMachine c (c.kvmTables + 4)) := by
    refine ⟨fun _ _ => ⟨rfl, rfl⟩, rfl, fun j _ fd _ => ?_, fun j _ => ?_,
      (initMachine_conserved hmem).le⟩
    · rw [initMachine_procs]
      split <;> rfl
    · rw [initMachine_procs]
      split <;> exact nofun
  have hcall := (open_files_exact c _ _ hboot [] rfl).2 0 (by decide) (initMachine_running _)
    (.page .pipe)
  obtain ⟨s, hs⟩ := hcall.1 trivial
  refine ⟨c, s, ?_, (hcall.2 s hs).1⟩
  rw [Run.exec_cons, fileEvent, if_pos ⟨by decide, initMachine_running _⟩, hs]
  rfl

end Machine

end InuOs
