import InuOs.Syscall.Fs

/-!
# What a call has in its hands

While it runs, a call holds references to inodes, locks of inodes and of buffers, and it may be
inside a log operation. `Owns` says what it holds, next to the references `B.ref` that others have,
and each function gets one triple that says how it changes that:

* `iget` and `idup` give a reference and `iput` takes one;
* `ilock` and `bread` give a lock, `iunlock` and `brelse` take it;
* `iput` and `log_write` are made inside a log operation only.

No triple needs to know what is on the disk.
-/

namespace InuOs.Syscall

open Prog

/-! ## Log operations -/

/-- Follow `begin_op` and `end_op` through a trace; `log_write` and `iput` belong between them. -/
def scan : Bool → List Event → Option Bool
  | op, [] => some op
  | false, .beginOp :: es => scan true es
  | true, .endOp :: es => scan false es
  | true, .logWrite :: es => scan true es
  | true, .iput :: es => scan true es
  | _, _ => none

theorem scan_append (op : Bool) (es fs : List Event) :
    scan op (es ++ fs) = (scan op es).bind fun op => scan op fs := by
  induction es generalizing op with
  | nil => rfl
  | cons e es ih =>
    cases op <;> cases e
    all_goals first
      | rfl
      | exact ih _

/-! ## Holdings -/

/-- What is not in the hands of the call. -/
structure Base : Type where
  /-- the references to each cache entry that others have -/
  ref : ℕ → ℕ
  machine : Machine
  cwd : ℕ → Option ℕ
  fip : ℕ → ℕ
  /-- the trace before the call -/
  trace : List Event

/-- The call is in a log operation if `op` is set; it has the references `T`, the locks `L` of
inodes and `K` of buffers. -/
structure Owns (B : Base) (op : Bool) (T L K : Multiset ℕ) (s : State) : Prop where
  ref : ∀ j < nInode, (s.icache j).ref = B.ref j + T.count j
  lock : ∀ j, (s.icache j).lock = none ↔ j ∉ L
  nodup : L.Nodup
  buf : ∀ b, s.buf b = none ↔ b ∉ K
  nodup_buf : K.Nodup
  trace : ∃ es, s.trace = B.trace ++ es ∧ scan false es = some op
  machine : s.machine = B.machine
  cwd : s.cwd = B.cwd
  fip : s.fip = B.fip

variable {B : Base} {op : Bool} {T L K : Multiset ℕ} {s s' : State} {sb : Superblock} {p j b : ℕ}

namespace Owns

/-- The disk and the log do not count. -/
theorem congr (h : Owns B op T L K s) (hcache : s'.icache = s.icache) (hbuf : s'.buf = s.buf)
    (htrace : s'.trace = s.trace)
    (hrest : (s'.machine, s'.cwd, s'.fip) = (s.machine, s.cwd, s.fip)) :
    Owns B op T L K s' := by
  simp only [Prod.mk.injEq] at hrest
  obtain ⟨hmachine, hcwd, hfip⟩ := hrest
  refine ⟨?_, ?_, h.nodup, ?_, h.nodup_buf, ?_, hmachine.trans h.machine, hcwd.trans h.cwd,
    hfip.trans h.fip⟩
  · rw [hcache]
    exact h.ref
  · rw [hcache]
    exact h.lock
  · rw [hbuf]
    exact h.buf
  · rw [htrace]
    exact h.trace

/-- One cache entry changes. -/
theorem setInode (h : Owns B op T L K s) {T' L' : Multiset ℕ} {ip : Inode}
    (href : j < nInode → ip.ref = B.ref j + T'.count j)
    (hT : ∀ i ≠ j, T'.count i = T.count i) (hlock : ip.lock = none ↔ j ∉ L')
    (hL : ∀ i ≠ j, i ∈ L' ↔ i ∈ L) (hnodup : L'.Nodup) :
    Owns B op T' L' K (s.setInode j ip) := by
  refine ⟨fun i hi => ?_, fun i => ?_, hnodup, h.buf, h.nodup_buf, h.trace, h.machine, h.cwd, h.fip⟩
  · rcases eq_or_ne i j with rfl | hne
    · rw [State.setInode_self]
      exact href hi
    · rw [State.setInode_of_ne _ _ hne, hT i hne]
      exact h.ref i hi
  · rcases eq_or_ne i j with rfl | hne
    · rw [State.setInode_self]
      exact hlock
    · rw [State.setInode_of_ne _ _ hne, hL i hne]
      exact h.lock i

/-- A cache entry changes, but not its reference count and its lock. -/
theorem setInode_same (h : Owns B op T L K s) {ip : Inode} (href : ip.ref = (s.icache j).ref)
    (hlock : ip.lock = (s.icache j).lock) : Owns B op T L K (s.setInode j ip) :=
  h.setInode (fun hj => href.trans (h.ref j hj)) (fun _ _ => rfl) (by rw [hlock]; exact h.lock j)
    (fun _ _ => Iff.rfl) h.nodup

theorem emit (h : Owns B op T L K s) {e : Event} {op' : Bool} (he : scan op [e] = some op') :
    Owns B op' T L K (s.emit e) := by
  obtain ⟨es, htrace, hscan⟩ := h.trace
  refine ⟨h.ref, h.lock, h.nodup, h.buf, h.nodup_buf, ⟨es ++ [e], ?_, ?_⟩, h.machine, h.cwd, h.fip⟩
  · rw [State.emit, htrace, List.append_assoc]
  · rw [scan_append, hscan]
    exact he

end Owns

/-! ## Buffers and the log -/

theorem bread_owns : Triple (Owns B op T L K) (bread p b) fun _ => Owns B op T L (b ::ₘ K) := by
  refine Triple.bind (Q := fun _ => Owns B op T L (b ::ₘ K)) (Triple.await ?_) fun _ =>
    Triple.get fun _ hs => hs
  intro s h s' hpass
  split at hpass
  · next hfree =>
    cases hpass
    have hb : b ∉ K := (h.buf b).mp hfree
    refine ⟨h.ref, h.lock, h.nodup, fun i => ?_, Multiset.nodup_cons.mpr ⟨hb, h.nodup_buf⟩, h.trace,
      h.machine, h.cwd, h.fip⟩
    rcases eq_or_ne i b with rfl | hne
    · simp
    · simp [hne, h.buf i]
  · cases hpass

theorem brelse_owns : Triple (Owns B op T L (b ::ₘ K)) (brelse b) fun _ => Owns B op T L K := by
  refine Triple.update fun s h => ?_
  split
  · exact Meets.throw True.intro
  · obtain ⟨hb, hnodup⟩ := Multiset.nodup_cons.mp h.nodup_buf
    refine Meets.pure ⟨h.ref, h.lock, h.nodup, fun i => ?_, hnodup,
      h.trace, h.machine, h.cwd, h.fip⟩
    rcases eq_or_ne i b with rfl | hne
    · simp [hb]
    · have hi := h.buf i
      simp [hne] at hi ⊢
      exact hi

theorem setData_owns {data : Block} : Keeps (Owns B op T L K) (setData b data) :=
  Triple.modify fun _ h => h.congr rfl rfl rfl rfl

theorem bwrite_owns : Keeps (Owns B op T L K) (bwrite b) := by
  refine Triple.update fun s h => ?_
  split
  · exact Meets.throw True.intro
  · exact Meets.pure h

theorem beginOp_owns : Triple (Owns B false T L K) beginOp fun _ => Owns B true T L K := by
  refine Triple.await ?_
  intro s h s' hpass
  obtain ⟨log, -, rfl⟩ := Option.map_eq_some_iff.mp hpass
  exact (h.emit (e := .beginOp) rfl).congr rfl rfl rfl rfl

theorem logWrite_owns : Keeps (Owns B true T L K) (logWrite b) := by
  refine Triple.update fun s h => ?_
  refine (Meets.trivial s.log.logWriteCheck).bind fun _ _ => Meets.pure ?_
  exact (h.emit (e := .logWrite) rfl).congr rfl rfl rfl rfl

theorem get_owns {α : Type} {f : State → α} :
    Keeps (Owns B op T L K) (Prog.get f : Code α) :=
  Triple.get fun _ h => h

/-- A test that leads to a `panic`. -/
theorem check_owns {c : Prop} [Decidable c] {e : Panic} :
    Keeps (Owns B op T L K) (Prog.when c (Prog.fail e) : Code Unit) :=
  Triple.whenever fun _ => Triple.fail

theorem writeLogFrom_owns (tail : ℕ) (bs : List UInt32) :
    Keeps (Owns B op T L K) (writeLogFrom p tail bs) := by
  induction bs generalizing tail with
  | nil => exact Triple.done
  | cons b bs ih =>
    refine get_owns.bind fun start => bread_owns.bind fun _ => bread_owns.bind fun data => ?_
    exact setData_owns.bind fun _ => bwrite_owns.bind fun _ => brelse_owns.bind fun _ =>
      brelse_owns.bind fun _ => ih (tail + 1)

theorem installFrom_owns (tail : ℕ) (bs : List UInt32) :
    Keeps (Owns B op T L K) (installFrom p tail bs) := by
  induction bs generalizing tail with
  | nil => exact Triple.done
  | cons b bs ih =>
    refine get_owns.bind fun start => bread_owns.bind fun data => bread_owns.bind fun _ => ?_
    rw [Multiset.cons_swap]
    exact setData_owns.bind fun _ => bwrite_owns.bind fun _ => brelse_owns.bind fun _ =>
      brelse_owns.bind fun _ => ih (tail + 1)

theorem writeHead_owns : Keeps (Owns B op T L K) (writeHead p) :=
  get_owns.bind fun _ => bread_owns.bind fun _ => setData_owns.bind fun _ =>
    bwrite_owns.bind fun _ => brelse_owns

theorem commit_owns : Keeps (Owns B op T L K) (commit p) := by
  refine get_owns.bind fun log => Triple.whenever fun _ => ?_
  refine (writeLogFrom_owns _ _).bind fun _ => writeHead_owns.bind fun _ => ?_
  exact (installFrom_owns _ _).bind fun _ =>
    (Triple.modify fun _ h => h.congr rfl rfl rfl rfl).bind fun _ => writeHead_owns

theorem endOp_owns : Triple (Owns B true T L K) (endOp p) fun _ => Owns B false T L K := by
  refine Triple.bind (Q := fun _ => Owns B false T L K) ?_ fun doCommit => ?_
  · refine Triple.atomic fun s h => (Meets.trivial s.log.endOp).bind fun r _ => Meets.pure ?_
    exact (h.emit (e := .endOp) rfl).congr rfl rfl rfl rfl
  · refine Triple.whenever fun _ => commit_owns.bind fun _ => ?_
    exact Triple.modify fun _ h => h.congr rfl rfl rfl rfl

/-! ## Blocks -/

theorem bzero_owns : Keeps (Owns B true T L K) (bzero p b) :=
  bread_owns.bind fun _ => setData_owns.bind fun _ => logWrite_owns.bind fun _ => brelse_owns

theorem ballocLoop_owns (js : List ℕ) : Keeps (Owns B true T L K) (ballocLoop sb p js) := by
  induction js with
  | nil => exact Triple.fail
  | cons j js ih =>
    refine bread_owns.bind fun data => ?_
    split
    · exact setData_owns.bind fun _ => logWrite_owns.bind fun _ => brelse_owns.bind fun _ =>
        bzero_owns.bind fun _ => Triple.done
    · exact brelse_owns.bind fun _ => ih

theorem balloc_owns : Keeps (Owns B true T L K) (balloc sb p) :=
  ballocLoop_owns _

theorem bfree_owns (b : UInt32) : Keeps (Owns B true T L K) (bfree sb p b) := by
  refine bread_owns.bind fun data => ?_
  exact check_owns.bind fun _ => setData_owns.bind fun _ => logWrite_owns.bind fun _ => brelse_owns

/-! ## Inodes -/

theorem setValid_owns {valid : Bool} :
    Keeps (Owns B op T L K)
      (Prog.modify fun s => s.setInode j { s.icache j with valid := valid } : Code Unit) :=
  Triple.modify fun _ h => h.setInode_same rfl rfl

theorem setCore_owns {f : Dinode → Dinode} : Keeps (Owns B op T L K) (setCore j f) :=
  Triple.modify fun _ h => h.setInode_same rfl rfl

theorem iupdate_owns : Keeps (Owns B true T L K) (iupdate sb p j) :=
  get_owns.bind fun _ => bread_owns.bind fun _ => get_owns.bind fun _ => setData_owns.bind fun _ =>
    logWrite_owns.bind fun _ => brelse_owns

theorem iget_owns {inum : ℕ} :
    Triple (Owns B op T L K) (iget inum) fun j => Owns B op (j ::ₘ T) L K := by
  refine Triple.atomic fun s h => ?_
  have hcount (j i : ℕ) (hne : i ≠ j) : (j ::ₘ T).count i = T.count i :=
    Multiset.count_cons_of_ne hne T
  split
  · next j hfind =>
    refine Meets.pure (h.setInode (fun hj => ?_) (hcount j) (h.lock j) (fun _ _ => Iff.rfl) h.nodup)
    rw [h.ref j hj, Multiset.count_cons_self, Nat.add_assoc]
  · split
    · exact Meets.throw True.intro
    · next j hfind =>
      refine Meets.pure (h.setInode (fun hj => ?_) (hcount j) (h.lock j)
        (fun _ _ => Iff.rfl) h.nodup)
      have hzero : (s.icache j).ref = 0 := by simpa using List.find?_some hfind
      have href := h.ref j hj
      rw [Multiset.count_cons_self]
      dsimp only
      omega

theorem idup_owns : Triple (Owns B op T L K) (idup j) fun i => Owns B op (i ::ₘ T) L K := by
  refine Triple.bind (Q := fun _ => Owns B op (j ::ₘ T) L K) (Triple.modify fun s h => ?_) fun _ =>
    Triple.pure fun _ h => h
  refine h.setInode (fun hj => ?_) (fun i hne => Multiset.count_cons_of_ne hne T) (h.lock j)
    (fun _ _ => Iff.rfl) h.nodup
  rw [h.ref j hj, Multiset.count_cons_self, Nat.add_assoc]

theorem iallocLoop_owns (type : UInt16) (inums : List ℕ) :
    Triple (Owns B true T L K) (iallocLoop sb p type inums) fun j => Owns B true (j ::ₘ T) L K := by
  induction inums with
  | nil => exact Triple.fail
  | cons inum inums ih =>
    refine bread_owns.bind fun data => ?_
    split
    · exact setData_owns.bind fun _ => logWrite_owns.bind fun _ =>
        brelse_owns.bind fun _ => iget_owns
    · exact brelse_owns.bind fun _ => ih

theorem ialloc_owns (type : UInt16) :
    Triple (Owns B true T L K) (ialloc sb p type) fun j => Owns B true (j ::ₘ T) L K :=
  iallocLoop_owns type _

theorem acquiresleep_owns :
    Triple (Owns B op T L K) (acquiresleep p j) fun _ => Owns B op T (j ::ₘ L) K := by
  refine Triple.await ?_
  intro s h s' hpass
  split at hpass
  · next hfree =>
    cases hpass
    have hj : j ∉ L := (h.lock j).mp hfree
    refine h.setInode (fun hj => h.ref j hj) (fun _ _ => rfl) ?_ (fun i hne => ?_)
      (Multiset.nodup_cons.mpr ⟨hj, h.nodup⟩)
    · simp
    · simp [hne]
  · cases hpass

theorem releasesleep_owns :
    Triple (Owns B op T (j ::ₘ L) K)
      (Prog.modify fun s => s.setInode j { s.icache j with lock := none } : Code Unit) fun _ =>
      Owns B op T L K := by
  refine Triple.modify fun s h => ?_
  obtain ⟨hj, hnodup⟩ := Multiset.nodup_cons.mp h.nodup
  refine h.setInode (fun hj => h.ref j hj) (fun _ _ => rfl) ?_ (fun i hne => ?_) hnodup
  · simp [hj]
  · simp [hne]

theorem ilockRead_owns : Keeps (Owns B op T L K) (ilockRead sb p j) := by
  refine get_owns.bind fun _ => bread_owns.bind fun _ => setCore_owns.bind fun _ => ?_
  exact brelse_owns.bind fun _ => setValid_owns.bind fun _ => get_owns.bind fun _ => check_owns

theorem ilock_owns : Triple (Owns B op T L K) (ilock sb p j) fun _ => Owns B op T (j ::ₘ L) K := by
  refine get_owns.bind fun _ => check_owns.bind fun _ => acquiresleep_owns.bind fun _ => ?_
  exact get_owns.bind fun _ => Triple.whenever fun _ => ilockRead_owns

theorem iunlock_owns : Triple (Owns B op T (j ::ₘ L) K) (iunlock j) fun _ => Owns B op T L K := by
  refine Triple.update fun s h => ?_
  split
  · exact Meets.throw True.intro
  · obtain ⟨hj, hnodup⟩ := Multiset.nodup_cons.mp h.nodup
    refine Meets.pure (h.setInode (fun hj => h.ref j hj) (fun _ _ => rfl) ?_
      (fun i hne => ?_) hnodup)
    · simp [hj]
    · simp [hne]

/-! ## The content of an inode -/

theorem bmapLoad_owns : Keeps (Owns B true T L K) (bmapLoad sb p j) := by
  refine get_owns.bind fun din => ?_
  split
  · exact balloc_owns.bind fun _ => setCore_owns.bind fun _ => Triple.done
  · exact Triple.done

theorem bmapEntry_owns {ind bn : ℕ} : Keeps (Owns B true T L K) (bmapEntry sb p ind bn) := by
  refine bread_owns.bind fun data => ?_
  split
  · exact balloc_owns.bind fun _ => setData_owns.bind fun _ => logWrite_owns.bind fun _ =>
      brelse_owns.bind fun _ => Triple.done
  · exact brelse_owns.bind fun _ => Triple.done

theorem bmap_owns (bn : ℕ) : Keeps (Owns B true T L K) (bmap sb p j bn) := by
  unfold bmap
  split
  · refine get_owns.bind fun din => ?_
    split
    · exact balloc_owns.bind fun _ => setCore_owns.bind fun _ => Triple.done
    · exact Triple.done
  · split
    · exact bmapLoad_owns.bind fun _ => bmapEntry_owns
    · exact Triple.fail

theorem itruncDirect_owns (ks : List ℕ) : Keeps (Owns B true T L K) (itruncDirect sb p j ks) := by
  induction ks with
  | nil => exact Triple.done
  | cons k ks ih =>
    refine get_owns.bind fun din => Triple.bind (Triple.whenever fun _ => ?_)
      fun _ => ih
    exact (bfree_owns _).bind fun _ => setCore_owns

theorem itruncIndirect_owns (data : Block) (ks : List ℕ) :
    Keeps (Owns B true T L K) (itruncIndirect sb p data ks) := by
  induction ks with
  | nil => exact Triple.done
  | cons k ks ih =>
    exact Triple.bind (Triple.whenever fun _ => bfree_owns _) fun _ => ih

theorem itrunc_owns : Keeps (Owns B true T L K) (itrunc sb p j) := by
  refine (itruncDirect_owns _).bind fun _ => get_owns.bind fun din => ?_
  refine Triple.bind (Q := fun _ => Owns B true T L K) (Triple.whenever fun _ => ?_) ?_
  · exact bread_owns.bind fun data => (itruncIndirect_owns data _).bind fun _ =>
      brelse_owns.bind fun _ => (bfree_owns _).bind fun _ => setCore_owns
  · exact fun _ => setCore_owns.bind fun _ => iupdate_owns

theorem iputFree_owns : Keeps (Owns B true T L K) (iputFree sb p j) :=
  itrunc_owns.bind fun _ => setCore_owns.bind fun _ => iupdate_owns.bind fun _ => setValid_owns

/-- **`iput`** takes a reference, inside a log operation. -/
theorem iput_owns :
    Triple (Owns B true (j ::ₘ T) L K) (iput sb p j) fun _ => Owns B true T L K := by
  refine Triple.bind (Q := fun _ => Owns B true (j ::ₘ T) L K)
    (Triple.modify fun _ h => h.emit (by rfl)) fun _ => ?_
  refine acquiresleep_owns.bind fun _ => get_owns.bind fun ip => ?_
  refine (Triple.whenever fun _ => iputFree_owns).bind fun _ => ?_
  refine releasesleep_owns.bind fun _ => Triple.modify fun s h => ?_
  refine h.setInode (fun hj => ?_) (fun i hne => (Multiset.count_cons_of_ne hne T).symm) (h.lock j)
    (fun _ _ => Iff.rfl) h.nodup
  have href := h.ref j hj
  rw [Multiset.count_cons_self] at href
  dsimp only
  omega

theorem iunlockput_owns :
    Triple (Owns B true (j ::ₘ T) (j ::ₘ L) K) (iunlockput sb p j) fun _ => Owns B true T L K :=
  iunlock_owns.bind fun _ => iput_owns

theorem input_owns {f : State → List (Option UInt8)} :
    Keeps (Owns B op T L K) (Prog.modify fun s => { s with input := f s } : Code Unit) :=
  Triple.modify fun _ h => h.congr rfl rfl rfl rfl

theorem consoleLoop_owns (target n : ℕ) (dst : List UInt8) :
    Keeps (Owns B op T L K) (consoleLoop target n dst) := by
  induction n generalizing dst with
  | zero => exact Triple.done
  | succ n ih =>
    refine Triple.bind (Q := fun _ => Owns B op T L K) (Triple.await ?_) fun _ => ?_
    · intro s h s' hpass
      split at hpass
      · cases hpass
      · cases hpass
        exact h
    · refine get_owns.bind fun c => ?_
      split
      · exact input_owns.bind fun _ => Triple.done
      · split
        · exact (Triple.whenever fun _ => input_owns).bind fun _ => Triple.done
        · refine input_owns.bind fun _ => ?_
          split
          · exact Triple.done
          · exact ih _

theorem consoleread_owns (n : ℕ) : Keeps (Owns B op T (j ::ₘ L) K) (consoleread sb p j n) :=
  iunlock_owns.bind fun _ => (consoleLoop_owns _ _ _).bind fun _ => ilock_owns.bind fun _ =>
    Triple.done

theorem consolewrite_owns (n : ℕ) : Keeps (Owns B op T (j ::ₘ L) K) (consolewrite sb p j n) :=
  iunlock_owns.bind fun _ => ilock_owns.bind fun _ => Triple.done

theorem readiLoop_owns (off n : ℕ) : Keeps (Owns B true T L K) (readiLoop sb p j off n) := by
  induction n using Nat.strong_induction_on generalizing off with
  | _ n ih =>
    rw [readiLoop]
    split
    · exact Triple.done
    · next hn =>
      refine (bmap_owns _).bind fun _ => bread_owns.bind fun _ => brelse_owns.bind fun _ => ?_
      exact (ih _ (Nat.sub_lt (Nat.pos_of_ne_zero hn) (chunk_pos hn off)) _).bind fun _ =>
        Triple.done

theorem readi_owns (off n : ℕ) : Keeps (Owns B true T (j ::ₘ L) K) (readi sb p j off n) := by
  refine get_owns.bind fun din => ?_
  split
  · split
    · exact consoleread_owns n
    · exact Triple.done
  · split
    · exact Triple.done
    · exact (readiLoop_owns _ _).bind fun _ => Triple.done

theorem writeiLoop_owns (off : ℕ) (src : List UInt8) :
    Keeps (Owns B true T L K) (writeiLoop sb p j off src) := by
  induction hlen : src.length using Nat.strong_induction_on generalizing off src with
  | _ n ih =>
    rw [writeiLoop]
    split
    · exact Triple.done
    · next hsrc =>
      refine (bmap_owns _).bind fun _ => bread_owns.bind fun _ => setData_owns.bind fun _ => ?_
      refine logWrite_owns.bind fun _ => brelse_owns.bind fun _ => ih _ ?_ _ _ rfl
      rw [List.length_drop, ← hlen]
      exact Nat.sub_lt (Nat.pos_of_ne_zero hsrc) (chunk_pos hsrc off)

theorem writei_owns (off : ℕ) (src : List UInt8) :
    Keeps (Owns B true T (j ::ₘ L) K) (writei sb p j off src) := by
  refine get_owns.bind fun din => ?_
  split
  · split
    · exact consolewrite_owns _
    · exact Triple.done
  · split
    · exact Triple.done
    · split
      · exact Triple.done
      · refine (writeiLoop_owns _ _).bind fun _ => get_owns.bind fun din => ?_
        refine Triple.bind (Q := fun _ => Owns B true T (j ::ₘ L) K)
          (Triple.whenever fun _ => ?_) fun _ => Triple.done
        exact setCore_owns.bind fun _ => iupdate_owns

/-! ## Directories and paths -/

theorem dirlookupLoop_owns (name : List UInt8) (count off : ℕ) :
    Keeps (Owns B true T (j ::ₘ L) K) (dirlookupLoop sb p j name count off) := by
  induction count generalizing off with
  | zero => exact Triple.done
  | succ count ih =>
    refine (readi_owns _ _).bind fun r => ?_
    dsimp only
    split
    · exact Triple.fail
    · split
      · exact ih _
      · split
        · exact Triple.done
        · exact ih _

/-- The references with the inode that a lookup returned. -/
def gain (r : Option ℕ) (T : Multiset ℕ) : Multiset ℕ := r.elim T (· ::ₘ T)

@[simp] theorem gain_some (j : ℕ) (T : Multiset ℕ) : gain (some j) T = j ::ₘ T := rfl

theorem dirlookup_owns (name : List UInt8) :
    Triple (Owns B true T (j ::ₘ L) K) (dirlookup sb p j name) fun r =>
      Owns B true (gain (r.map Prod.fst) T) (j ::ₘ L) K := by
  refine get_owns.bind fun din => ?_
  split
  · exact Triple.fail
  · refine (dirlookupLoop_owns _ _ _).bind fun found => ?_
    split
    · exact Triple.pure fun _ h => h
    · exact iget_owns.bind fun _ => Triple.pure fun _ h => h

theorem dirlinkLoop_owns (count off : ℕ) :
    Keeps (Owns B true T (j ::ₘ L) K) (dirlinkLoop sb p j count off) := by
  induction count generalizing off with
  | zero => exact Triple.done
  | succ count ih =>
    refine (readi_owns _ _).bind fun r => ?_
    dsimp only
    split
    · exact Triple.fail
    · split
      · exact Triple.done
      · exact ih _

theorem dirlink_owns (name : List UInt8) (inum : ℕ) :
    Keeps (Owns B true T (j ::ₘ L) K) (dirlink sb p j name inum) := by
  refine (dirlookup_owns name).bind fun found => ?_
  split
  · exact iput_owns.bind fun _ => Triple.done
  · refine get_owns.bind fun _ => (dirlinkLoop_owns _ _).bind fun _ =>
      (writei_owns _ _).bind fun _ => ?_
    split
    · exact Triple.fail
    · exact Triple.done

theorem namexLoop_owns (parent : Bool) (j : ℕ) (path : Path) (name : List UInt8) :
    Triple (Owns B true (j ::ₘ T) L K) (namexLoop sb p parent j path name) fun r =>
      Owns B true (gain r.1 T) L K := by
  induction hlen : path.length using Nat.strong_induction_on generalizing j path name with
  | _ n ih =>
    rw [namexLoop]
    split
    · split
      · exact iput_owns.bind fun _ => Triple.pure fun _ h => h
      · exact Triple.pure fun _ h => h
    · next name rest hskip =>
      refine ilock_owns.bind fun _ => get_owns.bind fun din => ?_
      split
      · exact iunlockput_owns.bind fun _ => Triple.pure fun _ h => h
      · split
        · exact iunlock_owns.bind fun _ => Triple.pure fun _ h => h
        · refine (dirlookup_owns name).bind fun next => ?_
          cases next with
          | none => exact iunlockput_owns.bind fun _ => Triple.pure fun _ h => h
          | some next =>
            refine Triple.bind (iunlockput_owns.weaken fun s h => ?_) fun _ =>
              ih _ (hlen ▸ length_of_skipelem hskip) next.1 rest name rfl
            rwa [Multiset.cons_swap]

/-- **`namex`** gives one reference, to the inode that it returns. -/
theorem namex_owns (path : Path) (parent : Bool) :
    Triple (Owns B true T L K) (namex sb p path parent) fun r => Owns B true (gain r.1 T) L K := by
  unfold namex
  split
  · exact iget_owns.bind fun j => namexLoop_owns parent j path []
  · refine get_owns.bind fun cwd => ?_
    split
    · exact Triple.fail
    · exact idup_owns.bind fun j => namexLoop_owns parent j path []

theorem namei_owns (path : Path) :
    Triple (Owns B true T L K) (namei sb p path) fun r => Owns B true (gain r T) L K :=
  (namex_owns path false).bind fun _ => Triple.pure fun _ h => h

theorem nameiparent_owns (path : Path) :
    Triple (Owns B true T L K) (nameiparent sb p path) fun r => Owns B true (gain r.1 T) L K :=
  namex_owns path true

end InuOs.Syscall
