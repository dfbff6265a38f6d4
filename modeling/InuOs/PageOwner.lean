import InuOs.Proc
import InuOs.VmPages
import Mathlib.Algebra.Order.BigOperators.Group.Finset
import Mathlib.Order.Interval.Finset.Nat

/-!
# Every page has one owner

`Machine.owned` is the multiset of all pages with an owner: the free list, the processes, the pipes,
`kpgdir` and what was taken at boot. `Conserved` says that these are the allocator's pages, each of
them once.

`exec`, `growproc`, `exit`, `wait`, `pipe` and `close` keep `owned` as it is, whether they succeed
or fail and wherever `kalloc` runs dry. So does `fork`, except that `copyuvm` forgets the page it
has just allocated when `mappages` finds no page for its page table. How many free pages make that
happen is a matter of counting: one for the kernel stack, one for the page directory, one for each
page table of the kernel's part, then 1025 for every 1024 pages of user memory (`ForkStarves`).
-/

namespace InuOs

/-! ## Owners -/

/-- The pages of a process. An embryo has no address space yet, and an unused slot owns nothing. -/
def Proc.owned (p : Proc) : Multiset Page :=
  match p.state with
  | .unused => 0
  | .embryo => varPage p.kstack
  | _ => varPage p.kstack + p.pgdir.elim 0 PageDir.owned

variable {p : Proc} {s' : Machine} {free : List Page} {r : Machine × ℕ} {d : PageDir} {n base k : ℕ}

namespace Machine

/-- The pages of the processes. -/
def procPages (s : Machine) : Multiset Page := ∑ i ∈ Finset.range nProc, (s.procs i).owned

/-- The pages of the pipes. -/
def pipePages (s : Machine) : Multiset Page := ↑(s.pipes.map Pipe.page)

/-- All pages with an owner. -/
def owned (s : Machine) : Multiset Page :=
  ↑s.free + s.procPages + s.pipePages + s.kpgdir.owned + s.boot

/-- The pages of the allocator have one owner each. -/
def Conserved (c : Platform) (s : Machine) : Prop :=
  s.owned = (Finset.Ico c.kend (phyStop / pgSize)).val

variable {c : Platform} {s : Machine} {i : ℕ}

/-- A slot of the process table changes. -/
theorem procPages_setProc (hi : i < nProc) (p : Proc) :
    (s.setProc i p).procPages + (s.procs i).owned = s.procPages + p.owned :=
  sum_update Proc.owned s.procs (Finset.mem_range.mpr hi) p

/-- A slot changes, but not what it owns. -/
theorem procPages_setProc_of_eq (h : p.owned = (s.procs i).owned) :
    (s.setProc i p).procPages = s.procPages :=
  Finset.sum_congr rfl fun _ _ => setProc_congr Proc.owned h

/-- Pages move between the free list and the processes. -/
theorem owned_eq_of_free (hpipes : s'.pipes = s.pipes) (hk : s'.kpgdir = s.kpgdir)
    (hboot : s'.boot = s.boot) (h : ↑s'.free + s'.procPages = ↑s.free + s.procPages) :
    s'.owned = s.owned := by
  rw [owned, owned, h, hk, hboot, pipePages, pipePages, hpipes]

theorem owned_setFile (f : ℕ) (file : File) : (s.setFile f file).owned = s.owned := rfl

theorem owned_setProc_of_eq (h : p.owned = (s.procs i).owned) : (s.setProc i p).owned = s.owned :=
  owned_eq_of_free rfl rfl rfl (by rw [procPages_setProc_of_eq h]; rfl)

/-- The free list and a slot of the process table change, and `lost` is what neither of them has. -/
theorem owned_setProc_add (hi : i < nProc) {lost : Multiset Page}
    (h : ↑free + p.owned + lost = ↑s.free + (s.procs i).owned) :
    ({ s with free := free }.setProc i p).owned + lost = s.owned := by
  have hprocs := procPages_setProc (s := { s with free := free }) hi p
  refine add_right_cancel (b := (s.procs i).owned) ?_
  calc ({ s with free := free }.setProc i p).owned + lost + (s.procs i).owned
      = ↑free + (({ s with free := free }.setProc i p).procPages + (s.procs i).owned) +
          s.pipePages + s.kpgdir.owned + s.boot + lost := by
        unfold owned
        ac_rfl
    _ = ↑free + (s.procPages + p.owned) + s.pipePages + s.kpgdir.owned + s.boot + lost := by
        rw [hprocs]
        rfl
    _ = (↑free + p.owned + lost) + s.procPages + s.pipePages + s.kpgdir.owned + s.boot := by
        ac_rfl
    _ = s.owned + (s.procs i).owned := by
        rw [h, owned]
        ac_rfl

theorem owned_setProc (hi : i < nProc) (h : ↑free + p.owned = ↑s.free + (s.procs i).owned) :
    ({ s with free := free }.setProc i p).owned = s.owned := by
  have h₀ : ↑free + p.owned + 0 = ↑s.free + (s.procs i).owned := (add_zero _).trans h
  rw [← owned_setProc_add hi h₀, add_zero]

/-! ## Files and pipes -/

theorem closeEnd_spec {p : Page} {writable : Bool} {qs : List Pipe} {r : List Pipe × Bool}
    (h : closeEnd p writable qs = some r) :
    (↑(qs.map Pipe.page) : Multiset Page) = ↑(r.1.map Pipe.page) + if r.2 then {p} else 0 := by
  induction qs generalizing r with
  | nil => cases h
  | cons q qs ih =>
    rw [closeEnd] at h
    split at h
    · next hq =>
      split at h
      · obtain rfl := Option.some.inj h
        simp
      · obtain rfl := Option.some.inj h
        simp [← hq, ← Multiset.cons_coe, ← Multiset.singleton_add, add_comm]
    · obtain ⟨⟨qs', last⟩, hqs, rfl⟩ := Option.map_eq_some_iff.mp h
      have hih := ih hqs
      simp only [List.map_cons, ← Multiset.cons_coe, ← Multiset.singleton_add, hih, add_assoc]

theorem kalloc_eq_some {rest : List Page} {p : Page} (h : kalloc free = some (p, rest)) :
    free = p :: rest := by
  cases free with
  | nil => cases h
  | cons q free =>
    obtain ⟨rfl, rfl⟩ := Prod.mk.inj (Option.some.inj h)
    rfl

theorem pipeclose_spec (c : Platform) (s : Machine) (p : Page) (writable : Bool) :
    Returns (s.pipeclose c p writable) fun s' => s'.owned = s.owned ∧ s'.procs = s.procs := by
  unfold pipeclose
  split
  · exact Meets.throw trivial
  · next pipes h =>
    refine Meets.pure ⟨?_, rfl⟩
    have hpages := closeEnd_spec h
    rw [if_neg Bool.false_ne_true, add_zero] at hpages
    simp only [owned, procPages, pipePages, ← hpages]
  · next pipes h =>
    have hpages := closeEnd_spec h
    rw [if_pos rfl] at hpages
    refine (kfree_spec c s.free p).any_error.bind fun free hfree => Meets.pure ⟨?_, rfl⟩
    simp only [owned, procPages, pipePages, hfree, hpages]
    ac_rfl

theorem fileclose_spec (c : Platform) (s : Machine) (f : ℕ) :
    Returns (s.fileclose c f) fun s' => s'.owned = s.owned ∧ s'.procs = s.procs := by
  unfold fileclose
  dsimp only
  split
  · exact Meets.throw trivial
  · split
    · exact Meets.pure ⟨owned_setFile .., rfl⟩
    · split
      · exact (pipeclose_spec c _ _ _).mono fun s' h => ⟨h.1.trans (owned_setFile ..), h.2⟩
      · exact Meets.pure ⟨owned_setFile .., rfl⟩

theorem filealloc_spec (h : s.filealloc = some r) : r.1.owned = s.owned := by
  obtain ⟨f, -, rfl⟩ := Option.map_eq_some_iff.mp h
  exact owned_setFile ..

theorem pipealloc_spec (c : Platform) (s : Machine) :
    Returns (s.pipealloc c) fun r => r.1.owned = s.owned := by
  unfold pipealloc
  split
  · exact Meets.pure rfl
  · next s₁ f0 h₁ =>
    have hs₁ := filealloc_spec h₁
    split
    · exact (fileclose_spec c s₁ f0).bind fun s' h => Meets.pure (h.1.trans hs₁)
    · next s₂ f1 h₂ =>
      have hs₂ := (filealloc_spec h₂).trans hs₁
      split
      · refine (fileclose_spec c s₂ f0).bind fun s₃ h₃ => ?_
        exact (fileclose_spec c s₃ f1).bind fun s' h => Meets.pure (h.1.trans (h₃.1.trans hs₂))
      · next p free hfree =>
        refine Meets.pure (Eq.trans ?_ hs₂)
        simp only [owned, procPages, pipePages, setFile, kalloc_eq_some hfree, List.map_cons,
          coe_cons_eq]
        ac_rfl

theorem fdalloc_spec {f : ℕ} (h : s.fdalloc i f = some r) : r.1.owned = s.owned := by
  obtain ⟨fd, -, rfl⟩ := Option.map_eq_some_iff.mp h
  exact owned_setProc_of_eq rfl

theorem fdclear_spec (s : Machine) (i fd : ℕ) : (s.fdclear i fd).owned = s.owned :=
  owned_setProc_of_eq rfl

theorem sysPipe_spec (c : Platform) (s : Machine) (i : ℕ) :
    Returns (s.sysPipe c i) fun s' => s'.owned = s.owned := by
  refine (pipealloc_spec c s).bind ?_
  rintro ⟨s₁, ends⟩ h₁
  cases ends with
  | none => exact Meets.pure h₁
  | some ends =>
    obtain ⟨rf, wf⟩ := ends
    dsimp only
    split
    · refine (fileclose_spec c s₁ rf).bind fun s₂ h₂ => ?_
      exact (fileclose_spec c s₂ wf).mono fun s' h => h.1.trans (h₂.1.trans h₁)
    · next s₂ fd0 h₂ =>
      have hs₂ := (fdalloc_spec h₂).trans h₁
      split
      · refine (fileclose_spec c _ rf).bind fun s₃ h₃ => ?_
        refine (fileclose_spec c s₃ wf).mono fun s' h => ?_
        exact h.1.trans (h₃.1.trans ((fdclear_spec ..).trans hs₂))
      · next s₃ fd1 h₃ => exact Meets.pure ((fdalloc_spec h₃).trans hs₂)

theorem sysClose_spec (c : Platform) (s : Machine) (i fd : ℕ) :
    Returns (s.sysClose c i fd) fun s' =>
      s'.owned = s.owned ∧ ∀ j, (s'.procs j).state = (s.procs j).state := by
  unfold sysClose
  split
  · exact Meets.pure ⟨rfl, fun _ => rfl⟩
  · split
    · exact Meets.pure ⟨rfl, fun _ => rfl⟩
    · next f _ =>
      refine (fileclose_spec c _ f).mono fun s' h => ⟨h.1.trans (fdclear_spec ..), fun j => ?_⟩
      rw [h.2, fdclear]
      exact setProc_congr Proc.state rfl

/-! ## exit and wait -/

theorem closeFiles_spec (c : Platform) (s : Machine) (i : ℕ) (fds : List ℕ) :
    Returns (s.closeFiles c i fds) fun s' =>
      s'.owned = s.owned ∧ ∀ j, (s'.procs j).state = (s.procs j).state := by
  induction fds generalizing s with
  | nil => exact Meets.pure ⟨rfl, fun _ => rfl⟩
  | cons fd fds ih =>
    exact (sysClose_spec c s i fd).bind fun s₁ h₁ => (ih s₁).mono fun s' h =>
      ⟨h.1.trans h₁.1, fun j => (h.2 j).trans (h₁.2 j)⟩

/-- A process that runs, sleeps or has exited owns its kernel stack and its address space. -/
theorem Proc.owned_of_state (h₁ : p.state ≠ .unused) (h₂ : p.state ≠ .embryo) :
    p.owned = varPage p.kstack + p.pgdir.elim 0 PageDir.owned := by
  unfold Proc.owned
  cases h : p.state <;> simp_all

theorem Proc.owned_of_running {k : Page} (hrun : p.state = .running) (hk : p.kstack = some k)
    (hd : p.pgdir = some d) : p.owned = {k} + d.owned := by
  rw [owned_of_state (by simp [hrun]) (by simp [hrun]), hk, hd]
  rfl

theorem owned_reparent (s : Machine) (i : ℕ) : (s.reparent i).owned = s.owned := by
  refine owned_eq_of_free rfl rfl rfl (congrArg (fun m => (s.free : Multiset Page) + m) ?_)
  refine Finset.sum_congr rfl fun j _ => ?_
  unfold reparent
  dsimp only
  split <;> rfl

theorem exit_spec (c : Platform) (hrun : (s.procs i).state = .running) :
    Returns (s.exit c i) fun s' => s'.owned = s.owned := by
  unfold exit
  split
  · exact Meets.throw trivial
  · refine (closeFiles_spec c s i _).bind fun s₁ h₁ => Meets.pure ?_
    have hstate : ((s₁.reparent i).procs i).state = .running := by
      rw [← hrun, ← h₁.2 i]
      unfold reparent
      dsimp only
      split <;> rfl
    refine (owned_setProc_of_eq ?_).trans ((owned_reparent ..).trans h₁.1)
    rw [Proc.owned_of_state (p := (s₁.reparent i).procs i) (by simp [hstate]) (by simp [hstate])]
    rfl

theorem wait_spec (c : Platform) (s : Machine) (i : ℕ) :
    Returns (s.wait c i) fun s' => s'.owned = s.owned := by
  unfold wait
  split
  · exact Meets.pure rfl
  · next j hfind =>
    have hj : j < nProc := List.mem_range.mp (List.mem_of_find?_eq_some hfind)
    have hzombie : (s.procs j).state = .zombie := by
      have := List.find?_some hfind
      simp only [decide_eq_true_eq] at this
      exact this.2
    dsimp only
    split
    · exact Meets.throw trivial
    · exact Meets.throw trivial
    · next kstack d hkstack hpgdir =>
      refine (kfree_spec c s.free kstack).any_error.bind fun free₁ h₁ => ?_
      refine (freevm_spec c free₁ d).any_error.bind fun free₂ h₂ => Meets.pure ?_
      have hold := Proc.owned_of_state (p := s.procs j) (by simp [hzombie]) (by simp [hzombie])
      refine owned_setProc hj ?_
      rw [hold, hkstack, hpgdir, h₂, h₁]
      exact (add_zero _).trans (add_assoc ..)

/-! ## growproc and exec -/

theorem owned_setPgdir (hrun : (s.procs i).state = .running) (sz : UserSize)
    (hd : (s.procs i).pgdir = some d) {d' : PageDir} (h : ↑free + d'.owned = ↑s.free + d.owned)
    (hi : i < nProc) :
    ({ s with free := free }.setProc i { s.procs i with pgdir := some d', sz := sz }).owned =
      s.owned := by
  refine owned_setProc hi ?_
  rw [Proc.owned_of_state (p := s.procs i) (by simp [hrun]) (by simp [hrun]),
    Proc.owned_of_state (by simp [hrun]) (by simp [hrun]), hd]
  calc (free : Multiset Page) + (varPage (s.procs i).kstack + d'.owned)
      = ↑free + d'.owned + varPage (s.procs i).kstack := by ac_rfl
    _ = ↑s.free + (varPage (s.procs i).kstack + d.owned) := by
      rw [h]
      ac_rfl

theorem growproc_spec (c : Platform) (hi : i < nProc)
    (hrun : (s.procs i).state = .running) (n : ℤ) :
    Returns (s.growproc c i n) fun s' => s'.owned = s.owned := by
  unfold growproc
  dsimp only
  split
  · exact Meets.throw trivial
  · next d hd =>
    split
    · refine (allocuvm_spec _ _).bind ?_
      rintro ⟨free, d', sz⟩ h
      split <;> exact Meets.pure (owned_setPgdir hrun _ hd h hi)
    · split
      · refine (deallocuvm_spec _ _).any_error.bind ?_
        rintro ⟨free, d', sz⟩ ⟨h, -⟩
        split <;> exact Meets.pure (owned_setPgdir hrun _ hd h hi)
      · exact Meets.pure rfl

end Machine

section Exec

open Prog

variable {σ ω : Type} {c : Platform} {free : List Page} {d : PageDir} {sz : UserSize}
  {argv : List (List UInt8)}

theorem pushStack_spec (sz : UserSize) (argv : List (List UInt8)) :
    Returns (pushStack c free d sz argv) fun r => ↑r.1 + r.2.1.owned = ↑free + d.owned := by
  refine (allocuvm_spec _ _).bind ?_
  rintro ⟨free₁, d₁, sz₁⟩ h₁
  dsimp only
  split
  · exact Meets.pure h₁
  · have hguard : ((sz₁ : ℕ) - 2 * pgSize) / pgSize < userPages := by
      have hsz := sz₁.2
      unfold kernBase at hsz
      unfold userPages pgSize
      omega
    refine (clearpteu_spec hguard).bind fun d₂ h₂ => ?_
    have h : ↑free₁ + d₂.owned = ↑free + d.owned := by rw [h₂, h₁]
    refine (Meets.trivial _).bind fun args _ => ?_
    split
    · exact Meets.pure h
    · exact (Meets.trivial _).bind fun ok _ => Meets.pure h

/-- `I O` holds while `exec` has the pages `O` in its hands, whatever a function of `vm.c` does to
the free list. -/
def ExecEnv.Tracks (e : ExecEnv σ ω) (I : Multiset Page → σ → Prop) : Prop :=
  ∀ {α : Type} {f : List Page → Except Panic (List Page × α)} {O : Multiset Page}
    (O' : α → Multiset Page), (∀ free, Returns (f free) fun r => ↑r.1 + O' r.2 = ↑free + O) →
    Triple (I O) (e.pages f) fun a => I (O' a)

namespace ExecEnv

variable {e : ExecEnv σ ω} {I J : Multiset Page → σ → Prop} {Q : σ → Prop} {i : ℕ}
  (hI : e.Tracks I)
  (hread : ∀ O off n, Keeps (I O) (e.readi off n))
include hread

theorem loadLoop_spec {O : Multiset Page} (v off sz n : ℕ) :
    Keeps (I O) (e.loadLoop d v off sz n) := by
  induction n generalizing v off sz with
  | zero => exact Triple.done
  | succ n ih =>
    unfold loadLoop
    split
    · exact Triple.fail
    · refine (hread _ _ _).bind fun r => ?_
      dsimp only
      split
      · exact Triple.done
      · exact ih _ _ _

include hI

theorem loadSegment_spec (ph : List UInt8) :
    Triple (I d.owned) (e.loadSegment c d sz ph) fun r => I r.1.owned := by
  unfold loadSegment
  dsimp only
  split
  · exact Triple.pure fun _ h => h
  split
  · exact Triple.pure fun _ h => h
  refine Triple.bind (hI (fun r => r.1.owned) fun free => allocuvm_spec _ _) fun r => ?_
  split
  · exact Triple.pure fun _ h => h
  split
  · exact Triple.pure fun _ h => h
  refine Triple.bind (Q := fun _ => I r.1.owned) ?_ fun _ => Triple.pure fun _ h => h
  unfold loaduvm
  split
  · exact Triple.fail
  · exact loadLoop_spec hread _ _ _ _

theorem loadSegments_spec (off n : ℕ) :
    Triple (I d.owned) (e.loadSegments c off n d sz) fun r => I r.1.owned := by
  induction n generalizing off d sz with
  | zero => exact Triple.pure fun _ h => h
  | succ n ih =>
    refine (hread _ _ _).bind fun r => ?_
    dsimp only
    split
    · exact Triple.pure fun _ h => h
    split
    · exact ih _
    refine (loadSegment_spec hI hread _).bind fun r => ?_
    obtain ⟨d, sz⟩ := r
    cases sz with
    | none => exact Triple.pure fun _ h => h
    | some sz => exact ih _

theorem loadImage_spec : Triple (I 0) (e.loadImage c) fun r =>
    I (r.1.elim 0 PageDir.owned) := by
  refine (hread _ _ _).bind fun r => ?_
  dsimp only
  split
  · exact Triple.pure fun _ h => h
  split
  · exact Triple.pure fun _ h => h
  refine Triple.bind (hI (fun kvm => kvm.elim 0 PageDir.owned) fun free => ?_) fun kvm => ?_
  · refine (setupkvm_spec c free).any_error.mono ?_
    rintro ⟨free', kvm⟩ h
    cases kvm with
    | none => exact congrArg (· + 0) h.1
    | some d => exact h.owned.trans (add_zero _).symm
  · cases kvm with
    | none => exact Triple.pure fun _ h => h
    | some d => exact (loadSegments_spec hI hread _ _).bind fun r => Triple.pure fun _ h => h

omit hread

theorem freePgdir_spec (pgdir : Option PageDir) :
    Triple (I (pgdir.elim 0 PageDir.owned)) (e.freePgdir c pgdir) fun _ => I 0 := by
  cases pgdir with
  | none => exact Triple.done
  | some d =>
    unfold freePgdir
    refine hI _ fun free => ?_
    exact (freevm_spec c free d).any_error.bind fun free' h => Meets.pure ((add_zero _).trans h)

/-- The rule for `exec`: `I` holds up to the end of the program headers and `J` from there on. -/
theorem exec_spec (hread : ∀ O off n, Keeps (I O) (e.readi off n))
    (hclose : ∀ O, Triple (I O) e.close fun _ => J O) (hJ : e.Tracks J)
    (hbad : ∀ s, J 0 s → Q s)
    (hcommit : ∀ d sz, Triple (J d.owned) (e.commit c i d sz) fun _ => Q) :
    Triple (I 0) (e.exec c i argv) fun _ => Q := by
  refine (loadImage_spec hI hread).bind fun r => ?_
  obtain ⟨pgdir, sz⟩ := r
  dsimp only
  split
  · refine (hclose _).bind fun _ =>
      Triple.bind (hJ (fun r => r.1.owned) fun free => pushStack_spec _ argv) fun r => ?_
    obtain ⟨d, sz⟩ := r
    cases sz with
    | none => exact (freePgdir_spec hJ (some d)).bind fun _ => Triple.pure hbad
    | some sz => exact hcommit d sz
  · exact (freePgdir_spec hI _).bind fun _ => (hclose 0).bind fun _ => Triple.pure hbad

end ExecEnv

end Exec

namespace Machine

open Prog

variable {c : Platform} {s t : Machine} {i : ℕ} {N O : Multiset Page}

/-- Of the machine `s` only the free list has changed; with the pages `O` it makes up `N`. -/
structure Holding (s : Machine) (N O : Multiset Page) (t : Machine) : Prop where
  frame : t = { s with free := t.free }
  pages : ↑t.free + O = N

theorem pages_holding {α : Type} {f : List Page → Except Panic (List Page × α)}
    {read : ℕ → ℕ → List UInt8} {N' : Multiset Page} {O' : α → Multiset Page}
    (hf : ∀ free : List Page, ↑free + O = N → Returns (f free) fun r => ↑r.1 + O' r.2 = N') :
    Triple (s.Holding N O) ((execEnv read).pages f) fun a => s.Holding N' (O' a) := by
  refine Triple.atomic fun t h => (hf t.free h.pages).bind fun r hr => Meets.pure ⟨?_, hr⟩
  rw [h.frame]

/-- What `exec` leaves: the old image, or a new one with the pages of the old one given back. -/
inductive Replaced (s : Machine) (i : ℕ) (t : Machine) : Prop where
  | bad (h : s.Holding s.free 0 t)
  | ok {d old : PageDir} {sz : UserSize} (hold : (s.procs i).pgdir = some old)
      (h : (s.setProc i { s.procs i with pgdir := some d, sz := sz }).Holding
        (s.free + old.owned) d.owned t)

theorem exec_replaced (c : Platform) (s : Machine) (i : ℕ) (file : Option (ℕ → ℕ → List UInt8))
    (argv : List (List UInt8)) : Returns (s.exec c i file argv) (s.Replaced i) := by
  cases file with
  | none => exact Meets.pure (.bad ⟨rfl, add_zero _⟩)
  | some read =>
    have htracks : (execEnv read).Tracks (s.Holding s.free) := fun _ hf =>
      pages_holding fun free h => (hf free).mono fun r hr => hr.trans h
    have hexec : Triple (s.Holding s.free 0) ((execEnv read).exec c i argv)
        fun _ => s.Replaced i := by
      refine ExecEnv.exec_spec htracks (fun _ _ _ => Triple.done) (fun _ => Triple.done) htracks
        (fun _ => .bad) fun d sz => ?_
      refine Triple.bind (Q := fun old t => old = (s.procs i).pgdir ∧
          (s.setProc i { s.procs i with pgdir := some d, sz := sz }).Holding s.free d.owned t)
        (Triple.atomic fun t h => Meets.pure ?_) fun old => Triple.and_pre fun hold => ?_
      · rw [h.frame]
        exact ⟨rfl, rfl, h.pages⟩
      · cases old with
        | none => exact Triple.fail
        | some old =>
          unfold ExecEnv.freePgdir
          refine Triple.bind (Q := fun _ => Holding _ (s.free + old.owned) d.owned)
            (pages_holding fun free h => ?_) fun _ => Triple.pure fun t h => .ok hold.symm h
          refine (freevm_spec c free old).any_error.bind fun free' h' => Meets.pure ?_
          rw [h', add_right_comm, h]
    exact (hexec.eval ⟨rfl, add_zero _⟩).map _

theorem exec_spec (c : Platform) (hi : i < nProc) (hrun : (s.procs i).state = .running)
    (file : Option (ℕ → ℕ → List UInt8)) (argv : List (List UInt8)) :
    Returns (s.exec c i file argv) fun s' => s'.owned = s.owned := by
  refine (exec_replaced c s i file argv).mono fun t ht => ?_
  cases ht with
  | bad h =>
    rw [h.frame]
    refine owned_eq_of_free rfl rfl rfl ?_
    rw [show (t.free : Multiset Page) = s.free from (add_zero _).symm.trans h.pages]
    rfl
  | ok hold h =>
    rw [h.frame]
    exact owned_setPgdir hrun _ hold h.pages hi

/-! ## fork -/

/-- What `allocproc` leaves when it finds a slot `n` and a page for the kernel stack. -/
structure Embryo (s s' : Machine) (n : ℕ) : Prop where
  slot : n < nProc
  unused : (s.procs n).state = .unused
  owned : s'.owned = s.owned
  others : ∀ j ≠ n, s'.procs j = s.procs j
  files : s'.files = s.files
  state : (s'.procs n).state = .embryo
  kstack : ∃ p, (s'.procs n).kstack = some p ∧ s.free = p :: s'.free

theorem allocproc_spec (s : Machine) :
    s.allocproc.2.elim (s.allocproc.1.owned = s.owned ∧
      (s.free = [] ∨ ∀ j < nProc, (s.procs j).state ≠ .unused)) (Embryo s s.allocproc.1) := by
  unfold allocproc
  split
  · next hfind =>
    refine ⟨rfl, .inr fun j hj hunused => ?_⟩
    have hj' := List.find?_eq_none.mp hfind j (List.mem_range.mpr hj)
    exact hj' (decide_eq_true hunused)
  · next n hfind =>
    have hn : n < nProc := List.mem_range.mp (List.mem_of_find?_eq_some hfind)
    have hunused : (s.procs n).state = .unused := by simpa using List.find?_some hfind
    have hnone : (s.procs n).owned = 0 := by rw [Proc.owned, hunused]
    dsimp only
    split
    · next hkalloc =>
      refine ⟨owned_setProc_of_eq hnone.symm, .inl ?_⟩
      cases hfree : s.free with
      | nil => rfl
      | cons p free =>
        rw [hfree] at hkalloc
        cases hkalloc
    · next kstack free hkalloc =>
      have hfree := kalloc_eq_some hkalloc
      refine ⟨hn, hunused, ?_, fun j hj => setProc_procs_of_ne _ _ hj, rfl, ?_, kstack, ?_, hfree⟩
      · refine owned_setProc (s := { s with nextpid := s.nextpid + 1 }) hn ?_
        rw [hnone, add_zero, hfree]
        exact (coe_cons_eq kstack free).symm
      · rw [setProc_procs_self]
      · rw [setProc_procs_self]

theorem dupFiles_spec (s : Machine) (ofile : ℕ → Option ℕ) (fds : List ℕ) :
    Meets (s.dupFiles ofile fds) (fun _ => ∃ fd f, ofile fd = some f ∧ (s.files f).ref < 1)
      fun s' => ∃ files, s' = { s with files := files } := by
  induction fds generalizing s with
  | nil => exact Meets.pure ⟨s.files, rfl⟩
  | cons fd fds ih =>
    rw [dupFiles]
    split
    · exact ih s
    · next f hf =>
      unfold filedup
      split
      · next href => exact Meets.throw ⟨fd, f, hf, href⟩
      · refine Meets.bind (Meets.pure rfl) ?_
        rintro s₁ rfl
        refine ((ih _).mono_error ?_).mono ?_
        · -- the counts only grow
          rintro e ⟨fd', f', hf', href'⟩
          refine ⟨fd', f', hf', ?_⟩
          rcases eq_or_ne f' f with rfl | hne
          · rw [setFile_files_self] at href'
            exact lt_of_le_of_lt (Nat.le_succ _) href'
          · rwa [setFile_files_of_ne _ _ hne] at href'
        · rintro s' ⟨files, rfl⟩
          exact ⟨files, rfl⟩

/-- `fork` comes to the point where `kalloc` gives the last free page to `copyuvm`, and the page
table to map it does not exist yet: the kernel stack, the page directory, the page tables of the
kernel's part and 1024 pages with their page table `q` times have taken all others. -/
def ForkStarves (c : Platform) (s : Machine) (i : ℕ) : Prop :=
  (∃ n < nProc, (s.procs n).state = .unused) ∧
    ∃ q, npdEntries * q < pgRoundUp (s.procs i).sz ∧
      s.free.length = c.kvmTables + 3 + (npdEntries + 1) * q

theorem starves_zero {left : ℕ} :
    Starves left 0 n ↔ ∃ q, npdEntries * q < n ∧ left = (npdEntries + 1) * q + 1 := by
  have htables : tablesBelow 0 = 0 := by
    unfold tablesBelow npdEntries
    omega
  simp only [Starves, htables, zero_add, add_zero, Nat.zero_le, true_and]

/-- The page count of `ForkStarves`, seen from `copyuvm`. -/
theorem Embryo.starves (h : Embryo s s' n) (hne : i ≠ n) :
    (∃ left, left + (1 + c.kvmTables) = s'.free.length ∧
      Starves left 0 (pgRoundUp (s'.procs i).sz)) ↔ s.ForkStarves c i := by
  obtain ⟨p, -, hfree⟩ := h.kstack
  rw [ForkStarves, hfree, List.length_cons, h.others i hne]
  constructor
  · rintro ⟨left, hleft, hstarves⟩
    obtain ⟨q, hq, rfl⟩ := starves_zero.mp hstarves
    exact ⟨⟨n, h.slot, h.unused⟩, q, hq, by omega⟩
  · rintro ⟨-, q, hq, hfree⟩
    exact ⟨(npdEntries + 1) * q + 1, by omega, starves_zero.mpr ⟨q, hq, rfl⟩⟩

/-- Nothing in the state makes `fork` panic: user memory has no holes, the open files are open, and
the free pages are the allocator's. -/
structure Forkable (c : Platform) (s : Machine) (i : ℕ) : Prop where
  memory : ∃ d, (s.procs i).pgdir = some d ∧ ∀ v < pgRoundUp (s.procs i).sz, d.pteAt v ≠ none
  files : ∀ fd f, (s.procs i).ofile fd = some f → 1 ≤ (s.files f).ref
  managed : ∀ p ∈ s.free, c.Managed p

theorem fork_spec (c : Platform) (hrun : (s.procs i).state = .running) :
    Meets (s.fork c i) (fun _ => ¬ s.Forkable c i) fun s' => ∃ lost : Multiset Page,
      s'.owned + lost = s.owned ∧ (lost ≠ 0 ↔ s.ForkStarves c i) := by
  unfold fork
  have hspec := s.allocproc_spec
  split
  · next s₁ halloc =>
    rw [halloc] at hspec
    obtain ⟨howned, hwhy⟩ := hspec
    refine Meets.pure ⟨0, (add_zero _).trans howned, iff_of_false (not_not_intro rfl) ?_⟩
    rintro ⟨⟨n, hn, hunused⟩, q, -, hlength⟩
    rcases hwhy with hfree | hfull
    · rw [hfree, List.length_nil] at hlength
      omega
    · exact hfull n hn hunused
  · next s₁ n halloc =>
    rw [halloc] at hspec
    have hne : i ≠ n := by
      rintro rfl
      rw [hspec.unused] at hrun
      cases hrun
    have hstarves := hspec.starves (c := c) hne
    have hembryo : (s₁.procs n).owned = varPage (s₁.procs n).kstack := by
      rw [Proc.owned, hspec.state]
    have hcaller : s₁.procs i = s.procs i := hspec.others i hne
    obtain ⟨kstack, hkstack, hfree⟩ := hspec.kstack
    rw [hkstack] at hembryo
    dsimp only
    rw [hcaller, hkstack]
    split
    · next hpgdir =>
      refine Meets.throw ?_
      rintro ⟨⟨d, hd, -⟩, -, -⟩
      rw [hpgdir] at hd
      cases hd
    · next src hsrc =>
      refine ((copyuvm_spec c s₁.free src _).mono_error ?_).bind ?_
      · rintro e herr ⟨⟨d, hd, hfull⟩, -, hmanaged⟩
        obtain rfl : d = src := Option.some.inj (hd.symm.trans hsrc)
        rcases herr with ⟨v, hv, hhole⟩ | ⟨-, p, hp, hbad⟩
        · exact hfull v hv hhole
        · exact hbad (hmanaged p (hfree ▸ List.mem_cons_of_mem _ hp))
      · rintro ⟨free₂, pgdir⟩ ⟨lost, hlost, hiff⟩
        rw [← hcaller, hstarves] at hiff
        cases pgdir with
        | none =>
          refine ((kfree_spec c free₂ kstack).mono_error ?_).bind fun free₃ h₃ =>
            Meets.pure ⟨lost, (owned_setProc_add hspec.slot ?_).trans hspec.owned, hiff⟩
          · rintro e ⟨-, p, hp, hbad⟩ hfork
            obtain rfl := Multiset.mem_singleton.mp hp
            exact hbad (hfork.managed p (hfree ▸ List.mem_cons_self))
          · rw [hembryo, h₃, ← hlost]
            change ↑free₂ + {kstack} + 0 + lost = ↑free₂ + 0 + lost + {kstack}
            ac_rfl
        | some d =>
          refine ((dupFiles_spec _ _ _).mono_error ?_).bind ?_
          · rintro e ⟨fd, f, hf, href⟩ hfork
            rw [show ({ s₁ with free := free₂ } : Machine).files = s.files from hspec.files] at href
            exact absurd href (not_lt.mpr (hfork.files fd f hf))
          · rintro s₃ ⟨files, rfl⟩
            refine Meets.pure ⟨lost, (owned_setProc_add (s := { s₁ with files := files })
              hspec.slot ?_).trans hspec.owned, hiff⟩
            rw [hembryo, ← hlost, Proc.owned_of_state (by simp) (by simp)]
            ac_rfl

/-! ## Every call -/

/-- The calls that take pages or give them back. -/
inductive Call : Type where
  | fork
  /-- the content of the file, if there is one, and the arguments -/
  | exec (file : Option (ℕ → ℕ → List UInt8)) (argv : List (List UInt8))
  | growproc (n : ℤ)
  | exit
  | wait
  | pipe
  | close (fd : ℕ)

/-- Process `i` makes a call. -/
def step (c : Platform) (s : Machine) (i : ℕ) : Call → Except Panic Machine
  | .fork => s.fork c i
  | .exec file argv => s.exec c i file argv
  | .growproc n => s.growproc c i n
  | .exit => s.exit c i
  | .wait => s.wait c i
  | .pipe => s.sysPipe c i
  | .close fd => s.sysClose c i fd

/-- All calls but `fork` keep `owned`, and `fork` keeps it unless it starves. -/
theorem step_spec (c : Platform) (hi : i < nProc) (hrun : (s.procs i).state = .running)
    (call : Call) :
    Returns (s.step c i call) fun s' => ∃ lost : Multiset Page,
      s'.owned + lost = s.owned ∧ (lost ≠ 0 ↔ call = .fork ∧ s.ForkStarves c i) := by
  have hkeep : call ≠ .fork → Returns (s.step c i call) (fun s' => s'.owned = s.owned) →
      Returns (s.step c i call) fun s' => ∃ lost : Multiset Page,
        s'.owned + lost = s.owned ∧ (lost ≠ 0 ↔ call = .fork ∧ s.ForkStarves c i) :=
    fun hcall hspec => hspec.mono fun s' h =>
      ⟨0, (add_zero _).trans h, iff_of_false (not_not_intro rfl) fun hfork => hcall hfork.1⟩
  cases call with
  | fork =>
    refine (fork_spec c hrun).any_error.mono ?_
    rintro s' ⟨lost, howned, hiff⟩
    exact ⟨lost, howned, hiff.trans (and_iff_right rfl).symm⟩
  | exec file argv => exact hkeep nofun (exec_spec c hi hrun file argv)
  | growproc n => exact hkeep nofun (growproc_spec c hi hrun n)
  | exit => exact hkeep nofun (exit_spec c hrun)
  | wait => exact hkeep nofun (wait_spec c s i)
  | pipe => exact hkeep nofun (sysPipe_spec c s i)
  | close fd => exact hkeep nofun ((sysClose_spec c s i fd).mono fun s' h => h.1)

end Machine

/-! ## A machine with one process -/

namespace Platform

variable (c : Platform)

/-- The kernel's entry for a virtual page. -/
def kernelPte (v : ℕ) : Option Pte :=
  (c.kmap.find? fun k => k.virt ≤ v * pgSize ∧ v * pgSize < k.virt + k.size).map fun k =>
    ⟨k.physStart / pgSize + (v - k.virt / pgSize), k.writable, false⟩

/-- The kernel's part of an address space, in the page `base` and the 1024 pages behind it. -/
def kvm (base : Page) : PageDir where
  page := base
  pde k :=
    if k ∈ c.kvmPdes then some ⟨base + 1 + k, fun x => c.kernelPte (npdEntries * k + x)⟩ else none

theorem kvm_pde (base : Page) (k : ℕ) : (c.kvm base).pde k =
    if k ∈ c.kvmPdes then some ⟨base + 1 + k, fun x => c.kernelPte (npdEntries * k + x)⟩
      else none :=
  rfl

theorem kvm_pde_user {v : ℕ} (hv : v < userPages) (base : Page) :
    (c.kvm base).pde (pdx v) = none := by
  have hk : pdx v ∉ c.kvmPdes := fun hk =>
    absurd ((c.le_of_mem_kvmPdes hk).trans (Nat.mul_div_le v npdEntries)) (not_le.mpr hv)
  rw [kvm_pde, if_neg hk]

theorem sum_singleton_range (a n : ℕ) :
    ∑ k ∈ Finset.range n, ({a + k} : Multiset Page) = Multiset.Ico a (a + n) := by
  induction n with
  | zero => simp
  | succ n ih =>
    have hlast : ({a + n} : Multiset Page) = Multiset.Ico (a + n) (a + (n + 1)) :=
      (congrArg Finset.val (Nat.Ico_succ_singleton (a + n))).symm
    rw [Finset.sum_range_succ, ih, hlast]
    exact Multiset.Ico_add_Ico_eq_Ico (by omega) (by omega)

theorem kvm_owned_le (base : ℕ) : (c.kvm base).owned ≤ Multiset.Ico base (base + 1025) := by
  have hpage : ({base} : Multiset Page) = Multiset.Ico base (base + 1) :=
    (congrArg Finset.val (Nat.Ico_succ_singleton base)).symm
  have htables : (c.kvm base).tables ≤ Multiset.Ico (base + 1) (base + 1 + npdEntries) := by
    rw [← sum_singleton_range]
    refine Finset.sum_le_sum fun k _ => ?_
    rw [kvm_pde]
    by_cases hk : k ∈ c.kvmPdes
    · rw [if_pos hk]
      exact le_rfl
    · rw [if_neg hk]
      exact Multiset.zero_le _
  have huser : (c.kvm base).user = 0 := Finset.sum_eq_zero fun v hv => by
    rw [PageDir.pteAt_eq_none (c.kvm_pde_user (Finset.mem_range.mp hv) base)]
    rfl
  have hend : base + 1 + npdEntries = base + 1025 := by unfold npdEntries; omega
  have hsplit := Multiset.Ico_add_Ico_eq_Ico (Nat.le_succ base)
    (Nat.le_add_right (base + 1) npdEntries)
  rw [PageDir.owned, huser, add_zero, ← hend, ← hsplit, ← Nat.succ_eq_add_one, ← hpage]
  exact add_le_add le_rfl htables

theorem kvmTables_le : c.kvmTables ≤ npdEntries := by
  have hsub : c.kvmPdes ⊆ Finset.range npdEntries := fun k hk =>
    Finset.mem_range.mpr (c.lt_of_mem_kvmPdes hk)
  exact (Finset.card_le_card hsub).trans (Finset.card_range _).le

end Platform

namespace Machine

theorem pgSize_lt : pgSize < kernBase + 1 := by
  unfold pgSize kernBase
  omega

section Init

variable (c : Platform)

/-- The address space of init: one page of user memory, and the kernel's part in the pages from
`kvm` on. -/
def initMem (base kvm : ℕ) : PageDir :=
  ((c.kvm kvm).addTable 0 base).setPte 0 (some ⟨base + 1, true, true⟩)

/-- init runs, in one page of memory. -/
def initProc (base kvm : ℕ) : Proc where
  state := .running
  pid := 1
  parent := none
  kstack := some (base + 2)
  pgdir := some (initMem c base kvm)
  sz := ⟨pgSize, pgSize_lt⟩
  ofile _ := none

/-- A slot that was never in use. -/
def noProc : Proc := ⟨.unused, 0, none, none, none, 0, fun _ => none⟩

/-- The first page that the machine below puts to use. -/
def initBase : ℕ := c.kend

/-- A machine with init, `n` free pages, and all others in the hands of drivers. -/
def initMachine (n : ℕ) : Machine :=
  let init := initProc c (initBase c) (initBase c + 3 + 1025)
  let kpgdir := c.kvm (initBase c + 3)
  let free := List.range' (initBase c + 3 + 1025 + 1025) n
  { free := free
    procs := fun i => if i = 0 then init else noProc
    nextpid := 2
    initproc := 0
    files := fun _ => ⟨.none, 0, false, false, 0⟩
    pipes := []
    kpgdir := kpgdir
    boot := Multiset.Ico (initBase c) (phyStop / pgSize) - (↑free + init.owned + kpgdir.owned) }

theorem kvm_pde_zero (kvm : ℕ) : (c.kvm kvm).pde 0 = none := by
  have huser : 0 < userPages := by
    unfold userPages
    omega
  have hpde := c.kvm_pde_user huser kvm
  rwa [pdx, Nat.zero_div] at hpde

theorem addTable_zero (d : PageDir) (p : Page) : (d.addTable 0 p).pde (pdx 0) ≠ none :=
  (PageDir.pde_addTable_ne_none p).mpr (.inr (Nat.zero_div _))

theorem initMem_pteAt (base kvm : ℕ) : (initMem c base kvm).pteAt 0 ≠ none := by
  rw [initMem, PageDir.pteAt_setPte (addTable_zero _ _), Function.update_self]
  exact Option.some_ne_none _

theorem initMem_owned (base kvm : ℕ) :
    (initMem c base kvm).owned = (c.kvm kvm).owned + {base} + {base + 1} := by
  have huser : 0 < userPages := by
    unfold userPages
    omega
  have htable : 0 < npdEntries := by
    unfold npdEntries
    omega
  have hpde := kvm_pde_zero c kvm
  have hpage := PageDir.owned_setPte_user (addTable_zero (c.kvm kvm) base) huser
    (some ⟨base + 1, true, true⟩)
  rw [PageDir.pteAt_addTable hpde, PageDir.pteAt_eq_none (c.kvm_pde_user huser _),
    PageDir.owned_addTable hpde htable] at hpage
  exact (add_zero _).symm.trans hpage

theorem singleton_eq_Ico (a : ℕ) : ({a} : Multiset Page) = Multiset.Ico a (a + 1) :=
  (congrArg Finset.val (Nat.Ico_succ_singleton a)).symm

theorem coe_range_eq_Ico (a n : ℕ) :
    (List.range' a n : Multiset Page) = Multiset.Ico a (a + n) := by
  rw [Multiset.Ico, Nat.Ico_eq_range', Nat.add_sub_cancel_left]

variable {c}

/-- init and `kpgdir` lie in the 2053 pages from `base` on. -/
theorem initProc_owned_le (hk : base + 3 + 1025 = k) :
    (initProc c base k).owned + (c.kvm (base + 3)).owned ≤ Multiset.Ico base (k + 1025) := by
  have hkvm := c.kvm_owned_le (base + 3)
  have hmem := c.kvm_owned_le k
  rw [hk] at hkvm
  have howned : (initProc c base k).owned = {base + 2} + (initMem c base k).owned :=
    Proc.owned_of_running rfl rfl rfl
  calc (initProc c base k).owned + (c.kvm (base + 3)).owned
      = {base} + {base + 1} + {base + 2} + (c.kvm (base + 3)).owned + (c.kvm k).owned := by
        rw [howned, initMem_owned]
        ac_rfl
    _ ≤ {base} + {base + 1} + {base + 2} + Multiset.Ico (base + 3) k +
          Multiset.Ico k (k + 1025) := by
        gcongr
    _ = Multiset.Ico base (k + 1025) := by
        rw [singleton_eq_Ico, singleton_eq_Ico, singleton_eq_Ico]
        iterate 4 rw [Multiset.Ico_add_Ico_eq_Ico (by omega) (by omega)]

theorem taken_le {n N : ℕ} (hk : base + 3 + 1025 = k) (hN : k + 1025 + n ≤ N) :
    (List.range' (k + 1025) n : Multiset Page) + (initProc c base k).owned +
      (c.kvm (base + 3)).owned ≤ Multiset.Ico base N := by
  have hinit := initProc_owned_le (c := c) hk
  calc (List.range' (k + 1025) n : Multiset Page) + (initProc c base k).owned +
        (c.kvm (base + 3)).owned
      = (initProc c base k).owned + (c.kvm (base + 3)).owned +
          Multiset.Ico (k + 1025) (k + 1025 + n) := by
        rw [coe_range_eq_Ico, add_assoc, add_comm]
    _ ≤ Multiset.Ico base (k + 1025) + Multiset.Ico (k + 1025) (k + 1025 + n) :=
        add_le_add hinit le_rfl
    _ = Multiset.Ico base (k + 1025 + n) := Multiset.Ico_add_Ico_eq_Ico (by omega) (by omega)
    _ ≤ Multiset.Ico base (k + 1025 + n) + Multiset.Ico (k + 1025 + n) N :=
        Multiset.le_add_right _ _
    _ = Multiset.Ico base N := Multiset.Ico_add_Ico_eq_Ico (by omega) hN

theorem initMachine_procs (n i : ℕ) : (initMachine c n).procs i =
    if i = 0 then initProc c (initBase c) (initBase c + 3 + 1025) else noProc :=
  rfl

theorem initMachine_free (n : ℕ) :
    (initMachine c n).free = List.range' (initBase c + 3 + 1025 + 1025) n :=
  rfl

theorem initMachine_running (n : ℕ) : ((initMachine c n).procs 0).state = .running :=
  rfl

theorem initMachine_sz (n : ℕ) : pgRoundUp ((initMachine c n).procs 0).sz = 1 := by
  have hsz : ((initMachine c n).procs 0).sz = ⟨pgSize, pgSize_lt⟩ := rfl
  rw [hsz]
  decide

theorem initMachine_starves (n : ℕ) :
    (initMachine c n).ForkStarves c 0 ↔ n = c.kvmTables + 3 := by
  have hlength : (initMachine c n).free.length = n := by rw [initMachine_free, List.length_range']
  have hslot : ((initMachine c n).procs 1).state = .unused := rfl
  have hentries : npdEntries ≠ 0 := by
    unfold npdEntries
    omega
  unfold ForkStarves
  rw [initMachine_sz, hlength]
  constructor
  · rintro ⟨-, q, hq, hn⟩
    obtain rfl : q = 0 :=
      (Nat.mul_eq_zero.mp (Nat.lt_one_iff.mp hq)).resolve_left hentries
    exact hn
  · intro hn
    exact ⟨⟨1, by decide, hslot⟩, 0, Nat.one_pos, hn⟩

variable {n : ℕ} (hn : initBase c + 3 + 1025 + 1025 + n ≤ phyStop / pgSize)

include hn

theorem initMachine_conserved : (initMachine c n).Conserved c := by
  have hprocs : (initMachine c n).procPages =
      (initProc c (initBase c) (initBase c + 3 + 1025)).owned := by
    refine (Finset.sum_eq_single 0 (fun j _ hj => ?_) (fun h => ?_)).trans ?_
    · rw [initMachine_procs, if_neg hj]
      rfl
    · exact absurd (Finset.mem_range.mpr (by decide)) h
    · rw [initMachine_procs, if_pos rfl]
  have hpipes : (initMachine c n).pipePages = 0 := rfl
  rw [Conserved, owned, hprocs, hpipes, add_zero]
  exact add_tsub_cancel_of_le (taken_le rfl hn)

/-- Nothing makes a `fork` by init panic. -/
theorem initMachine_forkable : (initMachine c n).Forkable c 0 where
  memory := by
    refine ⟨_, rfl, fun v hv => ?_⟩
    rw [initMachine_sz, Nat.lt_one_iff] at hv
    rw [hv]
    exact initMem_pteAt _ _ _
  files fd f hf := nomatch hf
  managed p hp := by
    obtain ⟨hlo, hhi⟩ := List.mem_range'_1.mp hp
    refine ⟨Nat.le_trans ?_ hlo, Nat.lt_of_lt_of_le hhi hn⟩
    rw [add_assoc, add_assoc]
    exact Nat.le_add_right (initBase c) _

theorem initMachine_fork : ∃ s', (initMachine c n).step c 0 .fork = .ok s' := by
  obtain ⟨s', hfork, -⟩ := (fork_spec c (initMachine_running n)).exists_ok
    fun _ => not_not_intro (initMachine_forkable hn)
  exact ⟨s', hfork⟩

end Init

/-- A kernel that ends below 2 MB, and a frame buffer of 3 MB. -/
def qemu : Platform where
  data := 0x80108000
  kend := 0x200
  pvramAddr := 0x80000000
  vramSize := 0x300000
  kend_pos := by decide
  data_aligned := by decide
  data_gt := by
    unfold kernLink kernBase extMem
    omega
  data_lt := by
    unfold kernBase phyStop
    omega
  vramSize_pos := by decide
  vramSize_le := by
    unfold devSpace pciBarBase pciVpOffset
    omega

theorem initBase_le {c : Platform} (hkend : c.kend = 0x200) :
    initBase c + 3 + 1025 + 1025 + (c.kvmTables + 4) ≤ phyStop / pgSize := by
  have hbase : initBase c = 512 := hkend
  have htables := c.kvmTables_le
  unfold npdEntries at htables
  unfold phyStop pgSize
  omega

theorem exists_platform :
    ∃ c : Platform, initBase c + 3 + 1025 + 1025 + (c.kvmTables + 4) ≤ phyStop / pgSize :=
  ⟨qemu, initBase_le rfl⟩

/-! ## Conservation -/

variable {c : Platform} {s : Machine} {i : ℕ}

/-- Every page keeps having one owner, whichever call is made and wherever `kalloc` runs dry, unless
the call is a `fork` that starves. -/
theorem conserved_step_iff {s' : Machine} {call : Call} (hs : s.Conserved c) (hi : i < nProc)
    (hrun : (s.procs i).state = .running) (hstep : s.step c i call = .ok s') :
    s'.Conserved c ↔ ¬ (call = .fork ∧ s.ForkStarves c i) := by
  obtain ⟨lost, howned, hlost⟩ := (step_spec c hi hrun call).of_ok hstep
  rw [Conserved] at hs ⊢
  rw [← hlost, not_not, ← hs, ← howned]
  exact left_eq_add

/-- init forks, and the free pages are enough up to the page table for the copy of its first
page. -/
theorem conserved_step_init : ∃ (c : Platform) (s s' : Machine), s.Conserved c ∧
    s.step c 0 .fork = .ok s' ∧ s'.Conserved c := by
  obtain ⟨c, hmem⟩ := exists_platform
  obtain ⟨s', hfork⟩ := initMachine_fork hmem
  have hs := initMachine_conserved hmem
  have hfed : ¬ (initMachine c (c.kvmTables + 4)).ForkStarves c 0 := fun hstarves =>
    Nat.succ_ne_self _ ((initMachine_starves _).mp hstarves)
  exact ⟨c, _, s', hs, hfork, (conserved_step_iff hs (by decide) (initMachine_running _) hfork).mpr
    fun h => hfed h.2⟩

/-- init forks with one page less: there are pages for the kernel stack, the kernel's part of the
address space and the copy of its first page, but none for the page table. The copy is lost. -/
theorem not_conserved_fork : ∃ (c : Platform) (s s' : Machine), s.Conserved c ∧
    (s.procs 0).state = .running ∧ s.step c 0 .fork = .ok s' ∧ ¬ s'.Conserved c := by
  obtain ⟨c, hmem⟩ := exists_platform
  have hmem₃ : initBase c + 3 + 1025 + 1025 + (c.kvmTables + 3) ≤ phyStop / pgSize := by omega
  obtain ⟨s', hfork, lost, howned, hlost⟩ := (fork_spec c (initMachine_running _)).exists_ok
    fun _ => not_not_intro (initMachine_forkable hmem₃)
  have hs := initMachine_conserved hmem₃
  refine ⟨c, _, s', hs, initMachine_running _, hfork, fun hs' => ?_⟩
  refine hlost.mpr ((initMachine_starves _).mpr rfl) ?_
  rw [hs, hs'] at howned
  exact add_eq_left.mp howned

end Machine

end InuOs
