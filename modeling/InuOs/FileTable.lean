import InuOs.PageOwner
import InuOs.Syscall.Sysfile

/-!
# The table of open files

A `struct file` is referred to by the descriptor slots of processes. `open`, `pipe`, `dup`, `close`
and `exit` make and drop such references, and each of them has paths on which it gives up halfway.
Two tallies are kept:

* **references**: `ref` of a file is the number of descriptor slots with it, in `slots`, and of
  references in the hands of the running call, `H` in `Files H R E`; a file that was allocated and
  has no type yet is in `R`;
* **pipe ends**: the ends of pipes that files have (`fileEnds`), or that the call has in hand (`E`),
  are the ends that are open (`openEnds`), and a pipe is there as long as one of its ends is.

Between calls, `H`, `R` and `E` are empty.
-/

namespace InuOs

namespace Machine

/-! ## The calls -/

/-- `sys_open` behind the path: `found` says that there is an inode to open. -/
def sysOpen (c : Platform) (s : Machine) (i : ℕ) (found : Bool) (omode : UInt32) :
    Except Panic Machine :=
  if found then
    match s.filealloc with
    | none => pure s
    | some (s, f) =>
      match s.fdalloc i f with
      | none => fileclose c s f
      | some (s, _) =>
        pure (s.setFile f { s.files f with
          type := .inode
          readable := omode &&& Syscall.oWronly = 0
          writable := omode &&& Syscall.oWronly ≠ 0 ∨ omode &&& Syscall.oRdwr ≠ 0 })
  else pure s

/-- `argfd`, and what is done with the file. -/
def argfd (s : Machine) (i fd : ℕ) (k : ℕ → Except Panic Machine) : Except Panic Machine :=
  if nOFile ≤ fd then pure s
  else
    match (s.procs i).ofile fd with
    | none => pure s
    | some f => k f

/-- `sys_dup`. -/
def sysDup (s : Machine) (i fd : ℕ) : Except Panic Machine :=
  s.argfd i fd fun f =>
    match s.fdalloc i f with
    | none => pure s
    | some (s, _) => s.filedup f

/-- `piperead` and `pipewrite` use the `struct pipe` in page `p`. -/
def usePipe (s : Machine) (p : Page) : Except Panic Machine :=
  if s.pipes.any fun q => q.page = p then pure s else throw .badPointer

/-- `fileread` and `filewrite`, up to what they do with the pipe or the inode. -/
def fileUse (s : Machine) (f : ℕ) (allowed : Bool) (e : Panic) : Except Panic Machine :=
  if allowed = false then pure s
  else
    match (s.files f).type with
    | .pipe => s.usePipe (s.files f).pipe
    | .inode => pure s
    | .none => throw e

/-- `fileread`. -/
def fileread (s : Machine) (f : ℕ) : Except Panic Machine :=
  s.fileUse f (s.files f).readable .fileread

/-- `filewrite`. -/
def filewrite (s : Machine) (f : ℕ) : Except Panic Machine :=
  s.fileUse f (s.files f).writable .filewrite

/-- `sys_read`. -/
def sysRead (s : Machine) (i fd : ℕ) : Except Panic Machine := s.argfd i fd s.fileread

/-- `sys_write`. -/
def sysWrite (s : Machine) (i fd : ℕ) : Except Panic Machine := s.argfd i fd s.filewrite

/-- The calls that use open files, next to those that take pages. -/
inductive FileCall : Type where
  | page (call : Call)
  | «open» (found : Bool) (omode : UInt32)
  | dup (fd : ℕ)
  | read (fd : ℕ)
  | write (fd : ℕ)

/-- Process `i` makes a call. -/
def fileStep (c : Platform) (s : Machine) (i : ℕ) : FileCall → Except Panic Machine
  | .page call => s.step c i call
  | .open found omode => s.sysOpen c i found omode
  | .dup fd => s.sysDup i fd
  | .read fd => s.sysRead i fd
  | .write fd => s.sysWrite i fd

end Machine

/-! ## Descriptor slots -/

/-- The file of a slot. -/
def slotFile (o : Option ℕ) : Multiset ℕ := o.elim 0 fun f => {f}

/-- The files that the descriptors of a process refer to. -/
def Proc.fds (p : Proc) : Multiset ℕ := ∑ fd ∈ Finset.range nOFile, slotFile (p.ofile fd)

variable {f : ℕ} {p : Proc} {q : Pipe} {x : Page × Bool} {qs : List Pipe} {w : Bool}

theorem mem_slotFile {o : Option ℕ} : f ∈ slotFile o ↔ o = some f := by
  cases o with
  | none => simp [slotFile]
  | some g => simp [slotFile, eq_comm]

theorem Proc.mem_fds : f ∈ p.fds ↔ ∃ fd < nOFile, p.ofile fd = some f := by
  simp [fds, Multiset.mem_sum, mem_slotFile]

theorem Proc.fds_eq_zero (h : ∀ fd < nOFile, p.ofile fd = none) : p.fds = 0 := by
  refine Finset.sum_eq_zero fun fd hfd => ?_
  rw [h fd (Finset.mem_range.mp hfd)]
  rfl

/-- One descriptor changes. -/
theorem Proc.fds_update (p : Proc) {fd : ℕ} (hfd : fd < nOFile) (o : Option ℕ) :
    { p with ofile := Function.update p.ofile fd o }.fds + slotFile (p.ofile fd) =
      p.fds + slotFile o :=
  sum_update slotFile p.ofile (Finset.mem_range.mpr hfd) o

namespace Machine

variable {c : Platform} {s s' : Machine} {i fd f : ℕ}

/-- The files that descriptors refer to. -/
def slots (s : Machine) : Multiset ℕ := ∑ i ∈ Finset.range nProc, (s.procs i).fds

/-- The descriptors that refer to a file, as process and number. -/
def slotsOf (s : Machine) (f : ℕ) : Finset (ℕ × ℕ) :=
  (Finset.range nProc ×ˢ Finset.range nOFile).filter fun x => (s.procs x.1).ofile x.2 = some f

theorem count_slots (s : Machine) (f : ℕ) : s.slots.count f = (s.slotsOf f).card := by
  have hslot (o : Option ℕ) : (slotFile o).count f = if o = some f then 1 else 0 := by
    cases o with
    | none => simp [slotFile]
    | some g => simp [slotFile, Multiset.count_singleton, eq_comm]
  rw [slotsOf, Finset.card_filter, Finset.sum_product, slots, Multiset.count_sum']
  refine Finset.sum_congr rfl fun i _ => ?_
  rw [Proc.fds, Multiset.count_sum']
  exact Finset.sum_congr rfl fun fd _ => hslot _

theorem mem_slots : f ∈ s.slots ↔ (s.slotsOf f).Nonempty := by
  rw [← Multiset.count_pos, count_slots, Finset.card_pos]

theorem mem_slots_of_ofile (hi : i < nProc) (hfd : fd < nOFile)
    (hf : (s.procs i).ofile fd = some f) : f ∈ s.slots := by
  rw [slots, Multiset.mem_sum]
  exact ⟨i, Finset.mem_range.mpr hi, Proc.mem_fds.mpr ⟨fd, hfd, hf⟩⟩

theorem argfd_cases (hi : i < nProc) (fd : ℕ) :
    (∀ k, s.argfd i fd k = .ok s) ∨ ∃ f ∈ s.slots, ∀ k, s.argfd i fd k = k f := by
  by_cases hfd : nOFile ≤ fd
  · exact .inl fun k => if_pos hfd
  · cases hf : (s.procs i).ofile fd with
    | none => exact .inl fun k => by rw [argfd, if_neg hfd, hf]; rfl
    | some f =>
      exact .inr ⟨f, mem_slots_of_ofile hi (Nat.lt_of_not_le hfd) hf, fun k => by
        rw [argfd, if_neg hfd, hf]⟩

/-- A slot of the process table changes. -/
theorem slots_setProc (hi : i < nProc) (p : Proc) :
    (s.setProc i p).slots + (s.procs i).fds = s.slots + p.fds :=
  sum_update Proc.fds s.procs (Finset.mem_range.mpr hi) p

/-- Only the descriptors count. -/
theorem slots_congr (h : ∀ j < nProc, (s'.procs j).ofile = (s.procs j).ofile) :
    s'.slots = s.slots :=
  Finset.sum_congr rfl fun j hj => by rw [Proc.fds, h j (Finset.mem_range.mp hj)]; rfl

/-! ## Pipe ends -/

end Machine

/-- The pipe end that a file has: the page of the pipe, and whether it is the write end. -/
def File.ends (file : File) : Multiset (Page × Bool) :=
  if file.type = .pipe then {(file.pipe, file.writable)} else 0

/-- The open ends of a pipe. -/
def Pipe.ends (q : Pipe) : Multiset (Page × Bool) :=
  (if q.readopen then {(q.page, false)} else 0) + if q.writeopen then {(q.page, true)} else 0

/-- The open ends of the pipes. -/
def openEnds (qs : List Pipe) : Multiset (Page × Bool) := (qs.map Pipe.ends).sum

theorem openEnds_cons (q : Pipe) (qs : List Pipe) : openEnds (q :: qs) = q.ends + openEnds qs := by
  simp [openEnds]

theorem Pipe.page_of_mem_ends (h : x ∈ q.ends) : x.1 = q.page := by
  rcases Multiset.mem_add.mp h with h | h <;> split at h <;> simp_all

theorem Pipe.mem_ends_iff (q : Pipe) (w : Bool) :
    (q.page, w) ∈ q.ends ↔ (if w then q.writeopen else q.readopen) = true := by
  obtain ⟨page, readopen, writeopen⟩ := q
  cases w <;> cases readopen <;> cases writeopen <;> simp [ends]

theorem mem_openEnds : x ∈ openEnds qs ↔ ∃ q ∈ qs, x ∈ q.ends := by
  induction qs with
  | nil => simp [openEnds]
  | cons q qs ih => rw [openEnds_cons, Multiset.mem_add, ih]; simp

/-- One end of a pipe is closed. -/
theorem Pipe.ends_closePipe (h : (q.page, w) ∈ q.ends) :
    q.ends = (q.page, w) ::ₘ (Machine.closePipe q w).ends := by
  obtain ⟨page, readopen, writeopen⟩ := q
  cases w <;> cases readopen <;> cases writeopen <;> simp_all [ends, Machine.closePipe]
  exact Multiset.pair_comm _ _

theorem Pipe.ends_eq_zero : q.ends = 0 ↔ (q.readopen || q.writeopen) = false := by
  obtain ⟨page, readopen, writeopen⟩ := q
  cases readopen <;> cases writeopen <;> simp [ends]

namespace Machine

variable {c : Platform} {s s' : Machine} {i fd f : ℕ}

/-- Closing an end that is open. -/
theorem closeEnd_ends {p : Page} (hp : (p, w) ∈ openEnds qs) (hpages : (qs.map Pipe.page).Nodup)
    (hopen : ∀ q ∈ qs, q.ends ≠ 0) :
    ∃ r, closeEnd p w qs = some r ∧ openEnds qs = (p, w) ::ₘ openEnds r.1 ∧
      ∀ q ∈ r.1, q.ends ≠ 0 := by
  induction qs with
  | nil => simp [openEnds] at hp
  | cons q qs ih =>
    rw [List.map_cons, List.nodup_cons] at hpages
    rw [openEnds_cons, Multiset.mem_add] at hp
    have hrest : ∀ q' ∈ qs, q'.ends ≠ 0 := fun q' hq' => hopen q' (List.mem_cons_of_mem q hq')
    rw [closeEnd]
    by_cases hq : q.page = p
    · subst hq
      have hend : (q.page, w) ∈ q.ends := by
        refine hp.resolve_right fun hmem => ?_
        obtain ⟨q', hq', hx⟩ := mem_openEnds.mp hmem
        exact hpages.1 (List.mem_map.mpr ⟨q', hq', (Pipe.page_of_mem_ends hx).symm⟩)
      have hends := Pipe.ends_closePipe hend
      rw [if_pos rfl, openEnds_cons, hends]
      split
      · next hstill =>
        refine ⟨_, rfl, ?_, fun q' hq' => ?_⟩
        · rw [openEnds_cons, Multiset.cons_add]
        · rcases List.mem_cons.mp hq' with rfl | hq'
          · simp [Pipe.ends_eq_zero, hstill]
          · exact hrest q' hq'
      · next hgone =>
        rw [Pipe.ends_eq_zero.mpr (Bool.eq_false_of_not_eq_true hgone), Multiset.cons_add, zero_add]
        exact ⟨_, rfl, rfl, hrest⟩
    · have hmem : (p, w) ∈ openEnds qs :=
        hp.resolve_left fun hx => hq (Pipe.page_of_mem_ends hx).symm
      obtain ⟨r, hr, hends, halive⟩ := ih hmem hpages.2 hrest
      rw [if_neg hq, hr]
      refine ⟨_, rfl, ?_, fun q' hq' => ?_⟩
      · rw [openEnds_cons, openEnds_cons, hends, Multiset.add_cons]
      · rcases List.mem_cons.mp hq' with rfl | hq'
        · exact hopen q' List.mem_cons_self
        · exact halive q' hq'

/-- The pipe ends that files have. -/
def fileEnds (s : Machine) : Multiset (Page × Bool) := ∑ f ∈ Finset.range nFile, (s.files f).ends

theorem fileEnds_setFile (hf : f < nFile) (file : File) :
    (s.setFile f file).fileEnds + (s.files f).ends = s.fileEnds + file.ends :=
  sum_update File.ends s.files (Finset.mem_range.mpr hf) file

theorem mem_fileEnds : x ∈ s.fileEnds ↔
    ∃ f < nFile, (s.files f).type = .pipe ∧ x = ((s.files f).pipe, (s.files f).writable) := by
  rw [fileEnds, Multiset.mem_sum]
  refine exists_congr fun f => ?_
  rw [Finset.mem_range, File.ends]
  refine and_congr_right fun _ => ?_
  split
  · next h => simp [h]
  · next h => simp [h]

/-! ## The invariant -/

/-- The table of open files while a call runs that has the references `H` and the pipe ends `E` in
hand, and has allocated the files `R` without giving them a type. -/
structure Files (H : Multiset ℕ) (R : Finset ℕ) (E : Multiset (Page × Bool)) (s : Machine) :
    Prop where
  ref : ∀ f < nFile, (s.files f).ref = (s.slots + H).count f + if f ∈ R then 1 else 0
  lt : ∀ f ∈ s.slots + H, f < nFile
  raw : ∀ f ∈ R, f < nFile ∧ f ∉ s.slots + H
  type : ∀ f < nFile, (s.files f).type = .none ↔ (s.files f).ref = 0 ∨ f ∈ R
  ends : s.fileEnds + E = openEnds s.pipes
  «open» : ∀ q ∈ s.pipes, q.ends ≠ 0

/-- What the calls on files of process `i` leave alone: they change its descriptors only, and pages
move only between the free list and the pipes. -/
structure Frame (i : ℕ) (s s' : Machine) : Prop where
  procs : ∀ j, s'.procs j = { s.procs j with ofile := (s'.procs j).ofile }
  others : ∀ j ≠ i, s'.procs j = s.procs j
  pages : (↑s'.free + s'.pipePages : Multiset Page) = ↑s.free + s.pipePages
  kpgdir : s'.kpgdir = s.kpgdir
  boot : s'.boot = s.boot
  initproc : s'.initproc = s.initproc

/-- The free pages and those of pipes are different pages of the allocator. -/
structure Pages (c : Platform) (s : Machine) : Prop where
  nodup : (↑s.free + s.pipePages : Multiset Page).Nodup
  managed : ∀ p ∈ (↑s.free + s.pipePages : Multiset Page), c.Managed p

namespace Frame

protected theorem refl (s : Machine) : Frame i s s :=
  ⟨fun _ => rfl, fun _ _ => rfl, rfl, rfl, rfl, rfl⟩

theorem trans {s₁ s₂ s₃ : Machine} (h : Frame i s₁ s₂) (h' : Frame i s₂ s₃) : Frame i s₁ s₃ where
  procs j := by
    rw [h'.procs j, h.procs j]
  others j hj := (h'.others j hj).trans (h.others j hj)
  pages := h'.pages.trans h.pages
  kpgdir := h'.kpgdir.trans h.kpgdir
  boot := h'.boot.trans h.boot
  initproc := h'.initproc.trans h.initproc

theorem setFile (s : Machine) (f : ℕ) (file : File) : Frame i s (s.setFile f file) :=
  ⟨fun _ => rfl, fun _ _ => rfl, rfl, rfl, rfl, rfl⟩

theorem setOfile (s : Machine) (i : ℕ) (ofile : ℕ → Option ℕ) :
    Frame i s (s.setProc i { s.procs i with ofile := ofile }) := by
  refine ⟨fun j => ?_, fun j hj => setProc_procs_of_ne _ _ hj, rfl, rfl, rfl, rfl⟩
  rcases eq_or_ne j i with rfl | hne
  · rw [setProc_procs_self]
  · rw [setProc_procs_of_ne _ _ hne]

theorem fdclear (s : Machine) (i fd : ℕ) : Frame i s (s.fdclear i fd) := .setOfile ..

theorem state (h : Frame i s s') (j : ℕ) : (s'.procs j).state = (s.procs j).state := by
  rw [h.procs j]

theorem keep (h : Frame i s s') (hs : s.Pages c) : s'.Pages c :=
  ⟨by rw [h.pages]; exact hs.nodup, by rw [h.pages]; exact hs.managed⟩

theorem owned (h : Frame i s s') : s'.owned = s.owned := by
  have hprocs : s'.procPages = s.procPages := Finset.sum_congr rfl fun j _ => by rw [h.procs j]; rfl
  have hpages : (↑s'.free + s'.procPages + s'.pipePages : Multiset Page) =
      ↑s.free + s.procPages + s.pipePages := by
    rw [add_right_comm, h.pages, hprocs, add_right_comm]
  rw [Machine.owned, Machine.owned, hpages, h.kpgdir, h.boot]

end Frame

theorem fdalloc_eq (ha : s.fdalloc i f = some (s', fd)) :
    fd < nOFile ∧ (s.procs i).ofile fd = none ∧
      s' = s.setProc i
        { s.procs i with ofile := Function.update (s.procs i).ofile fd (some f) } := by
  obtain ⟨fd', hfind, heq⟩ := Option.map_eq_some_iff.mp ha
  obtain ⟨rfl, rfl⟩ := Prod.mk.inj heq
  exact ⟨List.mem_range.mp (List.mem_of_find?_eq_some hfind), by simpa using List.find?_some hfind,
    rfl⟩

namespace Files

variable {H H' : Multiset ℕ} {R R' : Finset ℕ} {E E' : Multiset (Page × Bool)}

theorem ref_pos (h : Files H R E s) (hf : f ∈ s.slots + H) : 0 < (s.files f).ref := by
  have hcount := Multiset.count_pos.mpr hf
  rw [h.ref f (h.lt f hf)]
  omega

/-- A file changes, and with it what the call has in hand. -/
theorem setFile (h : Files H R E s) (hf : f < nFile) {file : File}
    (hH : ∀ g ≠ f, H'.count g = H.count g) (hR : ∀ g ≠ f, g ∈ R' ↔ g ∈ R)
    (href : file.ref = (s.slots + H').count f + if f ∈ R' then 1 else 0)
    (hraw : f ∈ R' → f ∉ s.slots + H') (htype : file.type = .none ↔ file.ref = 0 ∨ f ∈ R')
    (hends : file.ends + E' = (s.files f).ends + E) : Files H' R' E' (s.setFile f file) := by
  have hcount (g : ℕ) (hg : g ≠ f) : (s.slots + H').count g = (s.slots + H).count g := by
    rw [Multiset.count_add, Multiset.count_add, hH g hg]
  have hmem (g : ℕ) (hg : g ≠ f) : g ∈ s.slots + H' ↔ g ∈ s.slots + H := by
    rw [← Multiset.count_pos, hcount g hg, Multiset.count_pos]
  refine ⟨fun g hg => ?_, fun g hg => ?_, fun g hg => ?_, fun g hg => ?_, ?_, h.open⟩
  · rcases eq_or_ne g f with rfl | hne
    · rw [setFile_files_self]
      exact href
    · rw [setFile_files_of_ne _ _ hne, h.ref g hg, ← hcount g hne]
      simp only [hR g hne]
      rfl
  · rcases eq_or_ne g f with rfl | hne
    · exact hf
    · exact h.lt g ((hmem g hne).mp hg)
  · rcases eq_or_ne g f with rfl | hne
    · exact ⟨hf, hraw hg⟩
    · obtain ⟨hlt, hout⟩ := h.raw g ((hR g hne).mp hg)
      exact ⟨hlt, fun hin => hout ((hmem g hne).mp hin)⟩
  · rcases eq_or_ne g f with rfl | hne
    · rw [setFile_files_self]
      exact htype
    · rw [setFile_files_of_ne _ _ hne, hR g hne]
      exact h.type g hg
  · refine add_right_cancel (b := (s.files f).ends) ?_
    calc (s.setFile f file).fileEnds + E' + (s.files f).ends
        = (s.setFile f file).fileEnds + (s.files f).ends + E' := add_right_comm ..
      _ = s.fileEnds + ((s.files f).ends + E) := by
        rw [fileEnds_setFile hf, add_assoc, hends]
      _ = openEnds s.pipes + (s.files f).ends := by
        rw [← h.ends]
        ac_rfl

/-- `filealloc` takes a file that nobody refers to. -/
theorem filealloc (h : Files H R E s) (ha : s.filealloc = some (s', f)) :
    (f < nFile ∧ f ∉ s.slots + H ∧ f ∉ R) ∧ Files H (insert f R) E s' ∧ Frame i s s' := by
  obtain ⟨f', hfind, heq⟩ := Option.map_eq_some_iff.mp ha
  obtain ⟨rfl, rfl⟩ := Prod.mk.inj heq
  have hf : f' < nFile := List.mem_range.mp (List.mem_of_find?_eq_some hfind)
  have hzero : (s.files f').ref = 0 := by simpa using List.find?_some hfind
  have href := h.ref f' hf
  have hraw : f' ∉ R := fun hin => by
    rw [if_pos hin] at href
    omega
  have hout : f' ∉ s.slots + H := fun hin => (h.ref_pos hin).ne' hzero
  have htype : (s.files f').type = .none := (h.type f' hf).mpr (.inl hzero)
  refine ⟨⟨hf, hout, hraw⟩, ?_, .setFile ..⟩
  refine h.setFile hf (fun _ _ => rfl) (fun g hg => ?_) ?_ (fun _ => hout) ?_ rfl
  · rw [Finset.mem_insert, or_iff_right hg]
  · rw [Multiset.count_eq_zero.mpr hout, if_pos (Finset.mem_insert_self f' R)]
  · exact iff_of_true htype (.inr (Finset.mem_insert_self f' R))

theorem ref_of_raw (h : Files H R E s) (hf : f ∈ R) : (s.files f).ref = 1 := by
  obtain ⟨hlt, hout⟩ := h.raw f hf
  rw [h.ref f hlt, Multiset.count_eq_zero.mpr hout, if_pos hf]

theorem ends_of_raw (h : Files H R E s) (hf : f ∈ R) : (s.files f).ends = 0 := by
  have htype : (s.files f).type = .none := (h.type f (h.raw f hf).1).mpr (.inr hf)
  rw [File.ends, htype, if_neg nofun]

/-- A file that has no type yet is given back. -/
theorem fileclose_raw (h : Files H R E s) (hf : f ∈ R) :
    ∃ s', s.fileclose c f = .ok s' ∧ Files H (R.erase f) E s' ∧ Frame i s s' := by
  have hone := h.ref_of_raw hf
  obtain ⟨hlt, hout⟩ := h.raw f hf
  have htype : (s.files f).type = .none := (h.type f hlt).mpr (.inr hf)
  refine ⟨s.setFile f { s.files f with ref := 0, type := .none }, ?_, ?_, .setFile ..⟩
  · rw [Machine.fileclose]
    rw [if_neg (by omega), if_neg (by omega), if_neg (by rw [htype]; exact nofun)]
    rfl
  · refine h.setFile hlt (fun _ _ => rfl) (fun g hg => ?_) ?_ (fun hin => ?_) ?_ ?_
    · rw [Finset.mem_erase, and_iff_right hg]
    · rw [Multiset.count_eq_zero.mpr hout, if_neg (Finset.notMem_erase f R)]
    · exact absurd hin (Finset.notMem_erase f R)
    · exact iff_of_true rfl (.inl rfl)
    · rw [h.ends_of_raw hf]
      rfl

/-- A file gets its type, and takes a pipe end if it has one. -/
theorem setType (h : Files H R (E' + E) s) (hf : f ∈ R) (file : File)
    (href : file.ref = (s.files f).ref) (htype : file.type ≠ .none) (hends : file.ends = E') :
    Files (f ::ₘ H) (R.erase f) E (s.setFile f file) := by
  obtain ⟨hlt, hout⟩ := h.raw f hf
  have hone := h.ref_of_raw hf
  have hcount : (s.slots + f ::ₘ H).count f = 1 := by
    rw [Multiset.add_cons, Multiset.count_cons_self, Multiset.count_eq_zero.mpr hout]
  refine h.setFile hlt (fun g hg => Multiset.count_cons_of_ne hg _) (fun g hg => ?_) ?_
    (fun hin => absurd hin (Finset.notMem_erase f R)) ?_ ?_
  · rw [Finset.mem_erase, and_iff_right hg]
  · rw [hcount, if_neg (Finset.notMem_erase f R), href, hone]
  · refine iff_of_false htype ?_
    rw [href, hone]
    exact fun hbad => hbad.elim nofun (Finset.notMem_erase f R)
  · rw [h.ends_of_raw hf, hends, zero_add]

/-- `filedup` of a file that somebody refers to. -/
theorem filedup (h : Files H R E s) (hf : f ∈ s.slots + H) :
    s.filedup f = .ok (s.setFile f { s.files f with ref := (s.files f).ref + 1 }) ∧
      Files (f ::ₘ H) R E (s.setFile f { s.files f with ref := (s.files f).ref + 1 }) := by
  have hpos := h.ref_pos hf
  have hlt := h.lt f hf
  have hraw : f ∉ R := fun hin => (h.raw f hin).2 hf
  refine ⟨if_neg (by omega), ?_⟩
  refine h.setFile hlt (fun g hg => Multiset.count_cons_of_ne hg _) (fun _ _ => Iff.rfl) ?_
    (fun hin => absurd hin hraw) ?_ rfl
  · rw [h.ref f hlt, Multiset.add_cons, Multiset.count_cons_self, if_neg hraw]
  · refine iff_of_false (fun hnone => ?_) (fun hbad => hbad.elim nofun hraw)
    exact ((h.type f hlt).mp hnone).elim hpos.ne' hraw

/-- The part of `fileclose` under the lock. -/
theorem drop (h : Files (f ::ₘ H) R E s) :
    if 1 < (s.files f).ref then
      Files H R E (s.setFile f { s.files f with ref := (s.files f).ref - 1 })
    else Files H R ((s.files f).ends + E)
      (s.setFile f { s.files f with ref := 0, type := .none }) := by
  have hf : f ∈ s.slots + f ::ₘ H := Multiset.mem_add.mpr (.inr (Multiset.mem_cons_self f H))
  have hpos := h.ref_pos hf
  have hlt := h.lt f hf
  have hraw : f ∉ R := fun hin => (h.raw f hin).2 hf
  have href := h.ref f hlt
  rw [Multiset.add_cons, Multiset.count_cons_self, if_neg hraw, Nat.add_zero] at href
  have hothers (g : ℕ) (hg : g ≠ f) : H.count g = (f ::ₘ H).count g :=
    (Multiset.count_cons_of_ne hg _).symm
  split
  · next hmany =>
    refine h.setFile hlt hothers (fun _ _ => Iff.rfl) ?_ (fun hin => absurd hin hraw) ?_ rfl
    · rw [if_neg hraw]
      exact Nat.sub_eq_of_eq_add href
    · refine iff_of_false (fun hnone => ?_) (fun hbad => hbad.elim (fun hzero => ?_) hraw)
      · exact ((h.type f hlt).mp hnone).elim hpos.ne' hraw
      · exact absurd hzero (by dsimp only; omega)
  · refine h.setFile hlt hothers (fun _ _ => Iff.rfl) ?_ (fun hin => absurd hin hraw)
      (iff_of_true rfl (.inl rfl)) ?_
    · rw [if_neg hraw]
      dsimp only
      omega
    · exact zero_add _

/-- `pipeclose` of an end that is open. -/
theorem pipeclose {p : Page} (h : Files H R ((p, w) ::ₘ E) s) (hs : s.Pages c) :
    ∃ s', s.pipeclose c p w = .ok s' ∧ Files H R E s' ∧ Frame i s s' := by
  have hmem : (p, w) ∈ openEnds s.pipes := by
    rw [← h.ends]
    exact Multiset.mem_add.mpr (.inr (Multiset.mem_cons_self _ _))
  have hnodup : (s.pipes.map Pipe.page).Nodup := by
    have hpipes := Multiset.nodup_of_le (Multiset.le_add_left s.pipePages ↑s.free) hs.nodup
    exact Multiset.coe_nodup.mp hpipes
  obtain ⟨⟨pipes, last⟩, hclose, hends, hopen⟩ := closeEnd_ends hmem hnodup h.open
  have hpages := closeEnd_spec hclose
  have hnew : s.fileEnds + E = openEnds pipes := by
    have hold := h.ends
    rw [hends, Multiset.add_cons] at hold
    exact (Multiset.cons_inj_right _).mp hold
  rw [Machine.pipeclose, hclose]
  cases last with
  | false =>
    rw [if_neg Bool.false_ne_true, add_zero] at hpages
    refine ⟨_, rfl, ⟨h.ref, h.lt, h.raw, h.type, hnew, hopen⟩, fun _ => rfl,
      fun _ _ => rfl, ?_, rfl, rfl, rfl⟩
    rw [pipePages, pipePages, hpages]
  | true =>
    have hmanaged : c.Managed p := by
      refine hs.managed p (Multiset.mem_add.mpr (.inr ?_))
      rw [pipePages, hpages]
      exact Multiset.mem_add.mpr (.inr (Multiset.mem_singleton_self p))
    have hfree : kfree c s.free p = .ok (p :: s.free) := if_pos hmanaged
    rw [hfree]
    refine ⟨_, rfl, ⟨h.ref, h.lt, h.raw, h.type, hnew, hopen⟩, fun _ => rfl,
      fun _ _ => rfl, ?_, rfl, rfl, rfl⟩
    rw [coe_cons_eq, pipePages, pipePages, hpages]
    ac_rfl

/-- `fileclose` of a reference in hand. -/
theorem fileclose (h : Files (f ::ₘ H) R E s) (hs : s.Pages c) :
    ∃ s', s.fileclose c f = .ok s' ∧ Files H R E s' ∧ Frame i s s' := by
  have hpos := h.ref_pos (Multiset.mem_add.mpr (.inr (Multiset.mem_cons_self f H)))
  have hdrop := h.drop
  rw [Machine.fileclose]
  rw [if_neg (by omega)]
  split
  · next hmany =>
    rw [if_pos hmany] at hdrop
    exact ⟨_, rfl, hdrop, .setFile ..⟩
  · next hlast =>
    rw [if_neg hlast, File.ends] at hdrop
    split
    · next hpipe =>
      rw [if_pos hpipe, Multiset.singleton_add] at hdrop
      obtain ⟨s', hclose, hfiles, hframe⟩ :=
        hdrop.pipeclose (c := c) (i := i) ⟨hs.nodup, hs.managed⟩
      exact ⟨s', hclose, hfiles, (Frame.setFile ..).trans hframe⟩
    · next hpipe =>
      rw [if_neg hpipe, zero_add] at hdrop
      exact ⟨_, rfl, hdrop, .setFile ..⟩

/-- The descriptors of a process change, and references move between them and the hand of the
call. -/
theorem setOfile (h : Files H R E s) (hi : i < nProc) {ofile : ℕ → Option ℕ}
    (hmove : { s.procs i with ofile := ofile }.fds + H' = (s.procs i).fds + H) :
    Files H' R E (s.setProc i { s.procs i with ofile := ofile }) := by
  have hslots : (s.setProc i { s.procs i with ofile := ofile }).slots + H' = s.slots + H := by
    refine add_right_cancel (b := (s.procs i).fds) ?_
    rw [add_right_comm, slots_setProc hi, add_assoc, hmove]
    ac_rfl
  refine ⟨?_, ?_, ?_, h.type, h.ends, h.open⟩
  · rw [hslots]
    exact h.ref
  · rw [hslots]
    exact h.lt
  · rw [hslots]
    exact h.raw

/-- A reference goes into a free descriptor. -/
theorem fdset (h : Files (f ::ₘ H) R E s) (hi : i < nProc) (hfd : fd < nOFile)
    (hnone : (s.procs i).ofile fd = none) :
    Files H R E
      (s.setProc i { s.procs i with ofile := Function.update (s.procs i).ofile fd (some f) }) := by
  refine h.setOfile hi ?_
  have hfds := (s.procs i).fds_update hfd (some f)
  rw [hnone, show slotFile none = 0 from rfl, add_zero] at hfds
  rw [hfds, add_assoc]
  rfl

/-- A descriptor is cleared, and its reference is in hand. -/
theorem fdclear (h : Files H R E s) (hi : i < nProc) (hfd : fd < nOFile)
    (hf : (s.procs i).ofile fd = some f) : Files (f ::ₘ H) R E (s.fdclear i fd) := by
  refine h.setOfile hi ?_
  have hfds := (s.procs i).fds_update hfd none
  rw [hf] at hfds
  rw [← Multiset.singleton_add, ← add_assoc]
  exact congrArg (· + H) (hfds.trans (add_zero _))

/-- The table of open files does not depend on anything else. -/
theorem congr (h : Files H R E s) (hofile : ∀ j < nProc, (s'.procs j).ofile = (s.procs j).ofile)
    (hfiles : s'.files = s.files) (hpipes : s'.pipes = s.pipes) : Files H R E s' := by
  have hslots := slots_congr hofile
  have hends : s'.fileEnds = s.fileEnds := by rw [fileEnds, hfiles]; rfl
  exact ⟨by rw [hslots, hfiles]; exact h.ref, by rw [hslots]; exact h.lt,
    by rw [hslots]; exact h.raw, by rw [hfiles]; exact h.type, by rw [hends, hpipes]; exact h.ends,
    by rw [hpipes]; exact h.open⟩

/-- A new pipe, with both of its ends in hand. -/
theorem newPipe (h : Files H R E s) (free : List Page) (p : Page) :
    Files H R ({(p, false)} + ({(p, true)} + E))
      { s with free := free, pipes := ⟨p, true, true⟩ :: s.pipes } := by
  refine ⟨h.ref, h.lt, h.raw, h.type, ?_, fun q hq => ?_⟩
  · have hnew : (⟨p, true, true⟩ : Pipe).ends = {(p, false)} + {(p, true)} := rfl
    rw [openEnds_cons, hnew, ← h.ends]
    ac_rfl
  · rcases List.mem_cons.mp hq with rfl | hq
    · rw [ne_eq, Pipe.ends_eq_zero]
      exact nofun
    · exact h.open q hq

end Files

/-! ## The calls keep the invariant -/

section Calls

variable (h : Files 0 ∅ 0 s)

include h

theorem pipealloc_files : ∃ r, s.pipealloc c = .ok r ∧ Frame i s r.1 ∧
    Files (r.2.elim 0 fun ends => ends.1 ::ₘ ends.2 ::ₘ 0) ∅ 0 r.1 := by
  rw [pipealloc]
  cases h₀ : s.filealloc with
  | none => exact ⟨_, rfl, .refl s, h⟩
  | some r₀ =>
    obtain ⟨s₀, f0⟩ := r₀
    obtain ⟨⟨hlt₀, -, -⟩, hfiles₀, hframe₀⟩ := h.filealloc (i := i) h₀
    dsimp only
    cases h₁ : s₀.filealloc with
    | none =>
      obtain ⟨s', hclose, hfiles, hframe⟩ :=
        hfiles₀.fileclose_raw (c := c) (i := i) (Finset.mem_insert_self f0 ∅)
      rw [Finset.erase_insert (Finset.notMem_empty f0)] at hfiles
      refine ⟨(s', none), ?_, hframe₀.trans hframe, hfiles⟩
      rw [hclose]
      rfl
    | some r₁ =>
      obtain ⟨s₁, f1⟩ := r₁
      obtain ⟨⟨hlt₁, -, hne⟩, hfiles₁, hframe₁⟩ := hfiles₀.filealloc (i := i) h₁
      replace hne : f0 ≠ f1 := fun heq => hne (heq ▸ Finset.mem_insert_self f0 ∅)
      have hmem₀ : f0 ∈ insert f1 (insert f0 (∅ : Finset ℕ)) :=
        Finset.mem_insert_of_mem (Finset.mem_insert_self f0 ∅)
      have hmem₁ : f1 ∈ (insert f1 (insert f0 (∅ : Finset ℕ))).erase f0 :=
        Finset.mem_erase.mpr ⟨hne.symm, Finset.mem_insert_self f1 _⟩
      have hempty : ((insert f1 (insert f0 (∅ : Finset ℕ))).erase f0).erase f1 = ∅ := by
        ext g
        simp only [Finset.mem_erase, Finset.mem_insert, Finset.notMem_empty]
        tauto
      dsimp only
      cases hkalloc : kalloc s₁.free with
      | none =>
        obtain ⟨s₂, hclose, hfiles, hframe⟩ := hfiles₁.fileclose_raw (c := c) (i := i) hmem₀
        obtain ⟨s₃, hclose', hfiles', hframe'⟩ := hfiles.fileclose_raw (c := c) (i := i) hmem₁
        rw [hempty] at hfiles'
        refine ⟨(s₃, none), ?_, ((hframe₀.trans hframe₁).trans hframe).trans hframe', hfiles'⟩
        rw [hclose]
        change (s₂.fileclose c f1 >>= fun s => pure (s, none)) = _
        rw [hclose']
        rfl
      | some r =>
        obtain ⟨p, free⟩ := r
        have hpipe := hfiles₁.newPipe free p
        let s₂ := Machine.setFile { s₁ with free := free, pipes := ⟨p, true, true⟩ :: s₁.pipes } f0
          { s₁.files f0 with type := .pipe, readable := true, writable := false, pipe := p }
        have hread : Files (f0 ::ₘ 0) _ _ s₂ := hpipe.setType hmem₀ _ rfl nofun rfl
        have hwrite := hread.setType hmem₁ { s₂.files f1 with
          type := .pipe, readable := false, writable := true, pipe := p } rfl nofun rfl
        rw [hempty, Multiset.cons_swap] at hwrite
        have hnew : Frame i s₁ { s₁ with free := free, pipes := ⟨p, true, true⟩ :: s₁.pipes } := by
          refine ⟨fun _ => rfl, fun _ _ => rfl, ?_, rfl, rfl, rfl⟩
          rw [kalloc_eq_some hkalloc, coe_cons_eq, pipePages, pipePages, List.map_cons, coe_cons_eq]
          ac_rfl
        exact ⟨_, rfl, ((hframe₀.trans hframe₁).trans hnew).trans
          ((Frame.setFile ..).trans (Frame.setFile ..)), hwrite⟩

theorem sysOpen_files (hi : i < nProc) (found : Bool) (omode : UInt32) :
    ∃ s', s.sysOpen c i found omode = .ok s' ∧ Files 0 ∅ 0 s' ∧ Frame i s s' := by
  cases found with
  | false => exact ⟨s, rfl, h, .refl s⟩
  | true =>
    rw [sysOpen, if_pos rfl]
    cases h₀ : s.filealloc with
    | none => exact ⟨s, rfl, h, .refl s⟩
    | some r =>
      obtain ⟨s₁, f⟩ := r
      obtain ⟨-, hfiles₁, hframe₁⟩ := h.filealloc (i := i) h₀
      have hmem := Finset.mem_insert_self f (∅ : Finset ℕ)
      dsimp only
      cases h₁ : s₁.fdalloc i f with
      | none =>
        obtain ⟨s₂, hclose, hfiles₂, hframe₂⟩ := hfiles₁.fileclose_raw (c := c) (i := i) hmem
        rw [Finset.erase_insert (Finset.notMem_empty f)] at hfiles₂
        exact ⟨s₂, hclose, hfiles₂, hframe₁.trans hframe₂⟩
      | some r =>
        obtain ⟨s₂, fd⟩ := r
        obtain ⟨hfd, hnone, rfl⟩ := fdalloc_eq h₁
        -- the assignments do not depend on the descriptor
        have hnoEnd : Files 0 (insert f ∅) (0 + 0) s₁ := hfiles₁
        have htyped := hnoEnd.setType hmem { s₁.files f with
          type := .inode
          readable := omode &&& Syscall.oWronly = 0
          writable := omode &&& Syscall.oWronly ≠ 0 ∨ omode &&& Syscall.oRdwr ≠ 0 } rfl nofun rfl
        rw [Finset.erase_insert (Finset.notMem_empty f)] at htyped
        exact ⟨_, rfl, htyped.fdset hi hfd hnone,
          hframe₁.trans ((Frame.setOfile ..).trans (Frame.setFile ..))⟩

theorem sysDup_files (hi : i < nProc) (fd : ℕ) :
    ∃ s', s.sysDup i fd = .ok s' ∧ Files 0 ∅ 0 s' ∧ Frame i s s' := by
  rcases argfd_cases (s := s) hi fd with hnone | ⟨f, hmem, hsome⟩
  · exact ⟨s, hnone _, h, .refl s⟩
  · rw [sysDup, hsome]
    cases h₀ : s.fdalloc i f with
    | none => exact ⟨s, rfl, h, .refl s⟩
    | some r =>
      obtain ⟨s₁, fd'⟩ := r
      obtain ⟨hfd', hnone, rfl⟩ := fdalloc_eq h₀
      have hmem' : f ∈ s.slots + 0 := by rwa [add_zero]
      have hpos := h.ref_pos hmem'
      -- the descriptor does not matter to `filedup`
      refine ⟨_, ?_, (h.filedup hmem').2.fdset hi hfd' hnone,
        (Frame.setOfile ..).trans (Frame.setFile ..)⟩
      exact if_neg (Nat.not_lt.mpr hpos)

/-- A descriptor refers to a file with a type; if it is a pipe, the pipe is there. -/
theorem fileUse_files (hf : f ∈ s.slots) (allowed : Bool) (e : Panic) :
    s.fileUse f allowed e = .ok s := by
  have hmem : f ∈ s.slots + 0 := by rwa [add_zero]
  have hlt := h.lt f hmem
  rw [fileUse]
  split
  · rfl
  · cases ht : (s.files f).type with
    | none => exact (((h.type f hlt).mp ht).elim (h.ref_pos hmem).ne' (Finset.notMem_empty f)).elim
    | inode => rfl
    | pipe =>
      have hend : ((s.files f).pipe, (s.files f).writable) ∈ openEnds s.pipes := by
        rw [← h.ends, add_zero]
        exact mem_fileEnds.mpr ⟨f, hlt, ht, rfl⟩
      obtain ⟨q, hq, hx⟩ := mem_openEnds.mp hend
      refine if_pos (List.any_eq_true.mpr ⟨q, hq, decide_eq_true ?_⟩)
      exact (Pipe.page_of_mem_ends hx).symm

theorem sysRead_files (hi : i < nProc) (fd : ℕ) : s.sysRead i fd = .ok s := by
  rcases argfd_cases (s := s) hi fd with hnone | ⟨f, hmem, hsome⟩
  · exact hnone _
  · exact (hsome _).trans (fileUse_files h hmem _ _)

theorem sysWrite_files (hi : i < nProc) (fd : ℕ) : s.sysWrite i fd = .ok s := by
  rcases argfd_cases (s := s) hi fd with hnone | ⟨f, hmem, hsome⟩
  · exact hnone _
  · exact (hsome _).trans (fileUse_files h hmem _ _)

variable (hs : s.Pages c)

include hs

theorem sysPipe_files (hi : i < nProc) :
    ∃ s', s.sysPipe c i = .ok s' ∧ Files 0 ∅ 0 s' ∧ Frame i s s' := by
  obtain ⟨⟨s₁, ends⟩, halloc, hframe₁, hfiles₁⟩ := pipealloc_files (c := c) (i := i) h
  have hs₁ := hframe₁.keep hs
  rw [sysPipe, halloc]
  cases ends with
  | none => exact ⟨s₁, rfl, hfiles₁, hframe₁⟩
  | some ends =>
    obtain ⟨rf, wf⟩ := ends
    change Files (rf ::ₘ wf ::ₘ 0) ∅ 0 s₁ at hfiles₁
    dsimp only [bind, Except.bind]
    cases h₀ : s₁.fdalloc i rf with
    | none =>
      obtain ⟨s₂, hclose, hfiles₂, hframe₂⟩ := hfiles₁.fileclose (i := i) hs₁
      obtain ⟨s₃, hclose', hfiles₃, hframe₃⟩ := hfiles₂.fileclose (i := i) (hframe₂.keep hs₁)
      refine ⟨s₃, ?_, hfiles₃, (hframe₁.trans hframe₂).trans hframe₃⟩
      rw [hclose]
      exact hclose'
    | some r =>
      obtain ⟨s₂, fd0⟩ := r
      obtain ⟨hfd, hnone, rfl⟩ := fdalloc_eq h₀
      have hfiles₂ := hfiles₁.fdset hi hfd hnone
      have hframe₂ := hframe₁.trans
        (.setOfile s₁ i (Function.update (s₁.procs i).ofile fd0 (some rf)))
      dsimp only
      cases h₁ : Machine.fdalloc _ i wf with
      | none =>
        have hclear := hfiles₂.fdclear (f := rf) hi hfd (by
          rw [setProc_procs_self]
          exact Function.update_self ..)
        have hframe₃ := hframe₂.trans (.fdclear _ i fd0)
        obtain ⟨s₃, hclose, hfiles₃, hframe₄⟩ := hclear.fileclose (i := i) (hframe₃.keep hs)
        obtain ⟨s₄, hclose', hfiles₄, hframe₅⟩ :=
          hfiles₃.fileclose (i := i) ((hframe₃.trans hframe₄).keep hs)
        refine ⟨s₄, ?_, hfiles₄, (hframe₃.trans hframe₄).trans hframe₅⟩
        rw [hclose]
        exact hclose'
      | some r =>
        obtain ⟨s₃, fd1⟩ := r
        obtain ⟨hfd', hnone', rfl⟩ := fdalloc_eq h₁
        exact ⟨_, rfl, hfiles₂.fdset hi hfd' hnone', hframe₂.trans (.setOfile ..)⟩

theorem sysClose_files (hi : i < nProc) (fd : ℕ) :
    ∃ s', s.sysClose c i fd = .ok s' ∧ Files 0 ∅ 0 s' ∧ Frame i s s' ∧
      (fd < nOFile → (s'.procs i).ofile fd = none) ∧
      ∀ fd', (s.procs i).ofile fd' = none → (s'.procs i).ofile fd' = none := by
  rw [sysClose]
  split
  · next hfd => exact ⟨s, rfl, h, .refl s, fun hlt => absurd hlt (Nat.not_lt.mpr hfd), fun _ => id⟩
  · next hfd =>
    cases hf : (s.procs i).ofile fd with
    | none => exact ⟨s, rfl, h, .refl s, fun _ => hf, fun _ => id⟩
    | some f =>
      have hclear := h.fdclear hi (Nat.lt_of_not_le hfd) hf
      have hframe := Frame.fdclear s i fd
      obtain ⟨s', hclose, hfiles, hframe'⟩ := hclear.fileclose (i := i) (hframe.keep hs)
      have hprocs : s'.procs = (s.fdclear i fd).procs := ((fileclose_spec c _ f).of_ok hclose).2
      refine ⟨s', hclose, hfiles, hframe.trans hframe', fun _ => ?_, fun fd' hnone => ?_⟩
      · rw [hprocs, Machine.fdclear, setProc_procs_self]
        exact Function.update_self ..
      · rw [hprocs, Machine.fdclear, setProc_procs_self]
        rcases eq_or_ne fd' fd with rfl | hne
        · exact Function.update_self ..
        · exact (Function.update_of_ne hne ..).trans hnone

theorem closeFiles_files (hi : i < nProc) (fds : List ℕ) :
    ∃ s', s.closeFiles c i fds = .ok s' ∧ Files 0 ∅ 0 s' ∧ Frame i s s' ∧
      (∀ fd ∈ fds, fd < nOFile → (s'.procs i).ofile fd = none) ∧
      ∀ fd, (s.procs i).ofile fd = none → (s'.procs i).ofile fd = none := by
  induction fds generalizing s with
  | nil => exact ⟨s, rfl, h, .refl s, fun _ hfd => absurd hfd List.not_mem_nil, fun _ => id⟩
  | cons fd fds ih =>
    obtain ⟨s₁, hclose, hfiles₁, hframe₁, hfd, hkeep₁⟩ := sysClose_files h hs hi fd
    obtain ⟨s₂, hrest, hfiles₂, hframe₂, hfds, hkeep₂⟩ := ih hfiles₁ (hframe₁.keep hs)
    refine ⟨s₂, ?_, hfiles₂, hframe₁.trans hframe₂, fun fd' hmem hlt => ?_,
      fun fd' hnone => hkeep₂ fd' (hkeep₁ fd' hnone)⟩
    · rw [closeFiles, hclose]
      exact hrest
    · rcases List.mem_cons.mp hmem with rfl | hmem
      · exact hkeep₂ fd' (hfd hlt)
      · exact hfds fd' hmem hlt

theorem exit_files (hi : i < nProc) (hinit : i ≠ s.initproc) :
    ∃ s', s.exit c i = .ok s' ∧ Files 0 ∅ 0 s' ∧
      (↑s'.free + s'.pipePages : Multiset Page) = ↑s.free + s.pipePages ∧
      (s'.procs i).state = .zombie ∧ (∀ fd < nOFile, (s'.procs i).ofile fd = none) ∧
      ∀ j ≠ i, (s'.procs j).state = (s.procs j).state ∧ (s'.procs j).ofile = (s.procs j).ofile := by
  obtain ⟨s₁, hclose, hfiles, hframe, hnone, -⟩ := closeFiles_files h hs hi (List.range nOFile)
  have hreparent (j : ℕ) : ((s₁.reparent i).procs j).state = (s₁.procs j).state ∧
      ((s₁.reparent i).procs j).ofile = (s₁.procs j).ofile := by
    unfold reparent
    dsimp only
    split
    · exact ⟨rfl, rfl⟩
    · exact ⟨rfl, rfl⟩
  refine ⟨(s₁.reparent i).setProc i { (s₁.reparent i).procs i with state := .zombie }, ?_,
    hfiles.congr (fun j _ => ?_) rfl rfl, hframe.pages, ?_, fun fd hfd => ?_, fun j hj => ?_⟩
  · rw [exit, if_neg hinit, hclose]
    rfl
  · rcases eq_or_ne j i with rfl | hne
    · rw [setProc_procs_self]
      exact (hreparent j).2
    · rw [setProc_procs_of_ne _ _ hne]
      exact (hreparent j).2
  · rw [setProc_procs_self]
  · rw [setProc_procs_self]
    rw [(hreparent i).2]
    exact hnone fd (List.mem_range.mpr hfd) hfd
  · rw [setProc_procs_of_ne _ _ hj, (hreparent j).1, (hreparent j).2, hframe.others j hj]
    exact ⟨rfl, rfl⟩

end Calls

end Machine

end InuOs
