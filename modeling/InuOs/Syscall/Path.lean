import InuOs.Syscall.Directory
import Mathlib.Data.List.TakeWhile

/-!
# Path resolution is component-wise lookup

`skipelem`, called again and again, yields the components of a path (`elements_eq_components`).
`resolve` looks them up one after the other in the maps of the directories on the disk. `namei` and
`nameiparent` return what `resolve` says exactly if every inode in which they look up a component is
in use (`InUse`): `ilock` panics at one that is free, and the entry `..` of a working directory that
has been removed can lead to one. The inode cache may be in any state in which two of its slots are
free: one for the directory at hand and one for the next.

A run of `namex` holds at most two references more than there were, and one lock. `Holding` says so;
each operation on the cache has a lemma from `Holding` to `Holding`.
-/

namespace InuOs.Syscall

open Prog Slots

/-! ## Components -/

/-- The components of a path, cut to the length of a name. -/
def components (path : Path) : List (List UInt8) :=
  ((path.splitOn slash).filter (· ≠ [])).map (·.take dirSiz)

theorem components_append_cons (s t : Path) :
    components (s ++ slash :: t) = components s ++ components t := by
  have hsplit : (s ++ slash :: t).splitOn slash = s.splitOn slash ++ t.splitOn slash :=
    List.splitOnP_append_cons s t (beq_self_eq_true slash)
  rw [components, hsplit, List.filter_append, List.map_append]
  rfl

theorem components_of_notMem {w : Path} (hne : w ≠ []) (hw : ∀ c ∈ w, c ≠ slash) :
    components w = [w.take dirSiz] := by
  have hsplit : w.splitOn slash = [w] := by
    refine List.splitOnP_eq_singleton fun c hc => ?_
    exact beq_eq_false_iff_ne.mpr (hw c hc)
  rw [components, hsplit, List.filter_cons_of_pos (by simpa using hne)]
  rfl

/-- Leading slashes do not matter. -/
theorem components_dropWhile (s : Path) : components (s.dropWhile (· = slash)) = components s := by
  induction s with
  | nil => rfl
  | cons c s ih =>
    by_cases hc : c = slash
    · subst hc
      rw [List.dropWhile_cons_of_pos (by simp), ih]
      exact (components_append_cons [] s).symm
    · rw [List.dropWhile_cons_of_neg (by simpa using hc)]

variable {s : Path} {c : UInt8} {sb : Superblock} {js' : List ℕ} {s' : State}

theorem eq_false_of_dropWhile {q : UInt8 → Bool} {t : Path} (h : s.dropWhile q = c :: t) :
    q c = false := by
  have hhead := List.head?_dropWhile_not q s
  rwa [h] at hhead

/-- The first component, and what follows it. -/
theorem components_cons (hc : c ≠ slash) :
    components (c :: s) = ((c :: s).takeWhile (· ≠ slash)).take dirSiz ::
      components ((c :: s).dropWhile (· ≠ slash)) := by
  have hfirst : (c :: s).takeWhile (fun c => decide (c ≠ slash)) ≠ [] := by
    rw [List.takeWhile_cons_of_pos (by simpa using hc)]
    exact List.cons_ne_nil _ _
  have hword : ∀ x ∈ (c :: s).takeWhile (fun c => decide (c ≠ slash)), x ≠ slash := by
    intro x hx
    simpa using List.mem_takeWhile_imp hx
  have hsplit := List.takeWhile_append_dropWhile (p := fun c => decide (c ≠ slash)) (l := c :: s)
  have hone := components_of_notMem hfirst hword
  cases hrest : (c :: s).dropWhile fun c => decide (c ≠ slash) with
  | nil =>
    rw [hrest, List.append_nil] at hsplit
    rw [hsplit] at hone ⊢
    exact hone
  | cons x t =>
    have hx : x = slash := by simpa using eq_false_of_dropWhile hrest
    subst hx
    rw [hrest] at hsplit
    rw [← hsplit, components_append_cons, hone, hsplit]
    exact congrArg _ (components_append_cons [] t).symm

section Skipelem

variable {path rest : Path} {name : List UInt8}

theorem components_of_skipelem_none (h : skipelem path = none) : components path = [] := by
  unfold skipelem at h
  dsimp only at h
  split at h
  · next hnil =>
    rw [← components_dropWhile, hnil]
    rfl
  · exact nomatch h

/-- What `skipelem` does on a path behind its leading slashes. -/
theorem skipelem_cases (h : skipelem path = some (name, rest)) : ∃ c s, c ≠ slash ∧
    path.dropWhile (· = slash) = c :: s ∧ name = ((c :: s).takeWhile (· ≠ slash)).take dirSiz ∧
    rest = ((c :: s).dropWhile (· ≠ slash)).dropWhile (· = slash) := by
  unfold skipelem at h
  dsimp only at h
  split at h
  · exact nomatch h
  · next hne =>
    obtain ⟨rfl, rfl⟩ := Prod.mk.inj (Option.some.inj h)
    obtain ⟨c, s, hcons⟩ := List.exists_cons_of_ne_nil hne
    rw [hcons]
    exact ⟨c, s, by simpa using eq_false_of_dropWhile hcons, rfl, rfl, rfl⟩

/-- `skipelem` splits off the first component. -/
theorem components_of_skipelem (h : skipelem path = some (name, rest)) :
    components path = name :: components rest := by
  obtain ⟨c, s, hc, hpath, rfl, rfl⟩ := skipelem_cases h
  rw [← components_dropWhile path, hpath, components_cons hc, components_dropWhile]

/-- What `skipelem` leaves is empty exactly if no component follows. -/
theorem rest_eq_nil_iff (h : skipelem path = some (name, rest)) :
    rest = [] ↔ components rest = [] := by
  obtain ⟨c, s, -, -, -, hrest⟩ := skipelem_cases h
  constructor
  · rintro rfl
    rfl
  · intro hnone
    cases hcons : rest with
    | nil => rfl
    | cons x t =>
      have hx : x ≠ slash := by simpa using eq_false_of_dropWhile (hrest.symm.trans hcons)
      rw [hcons, components_cons hx] at hnone
      exact absurd hnone (List.cons_ne_nil _ _)

end Skipelem

/-- What `skipelem` yields, called again and again. -/
def elements (path : Path) : List (List UInt8) :=
  match _h : skipelem path with
  | none => []
  | some (name, rest) => name :: elements rest
termination_by path.length
decreasing_by exact length_of_skipelem _h

theorem elements_eq_components (path : Path) : elements path = components path := by
  fun_induction elements path with
  | case1 path h => exact (components_of_skipelem_none h).symm
  | case2 path name rest h ih => rw [ih, components_of_skipelem h]

/-! ## Lookup -/

/-- One lookup: nothing is found in what is no directory. -/
def walk (sb : Superblock) (d : Disk) (i : ℕ) (name : List UInt8) : Option ℕ :=
  if (sb.dinode d i).type = tDir then dirMap sb d i (nameKey name) else none

/-- The inode reached from `i` by looking up one component after the other. -/
def resolve (sb : Superblock) (d : Disk) (i : ℕ) (cs : List (List UInt8)) : Option ℕ :=
  cs.foldlM (walk sb d) i

/-- The directory reached by all components but the last one, and that component. -/
def resolveParent (sb : Superblock) (d : Disk) (i : ℕ) (cs : List (List UInt8)) :
    Option (ℕ × List UInt8) := do
  let c ← cs.getLast?
  let x ← resolve sb d i cs.dropLast
  if (sb.dinode d x).type = tDir then pure (x, c) else none

/-- Every inode in which a component is looked up is in use: those to which the components before it
lead. Where the whole path leads does not matter. -/
def InUse (sb : Superblock) (d : Disk) (i : ℕ) (cs : List (List UInt8)) : Prop :=
  ∀ n < cs.length, ∀ x ∈ resolve sb d i (cs.take n), (sb.dinode d x).type ≠ 0

instance (sb : Superblock) (d : Disk) (i : ℕ) (cs : List (List UInt8)) :
    Decidable (InUse sb d i cs) :=
  inferInstanceAs (Decidable (∀ n < cs.length, ∀ x ∈ resolve sb d i (cs.take n), _))

section Resolve

variable {sb : Superblock} {d : Disk} {i : ℕ} {c : List UInt8} {cs : List (List UInt8)}

theorem resolve_cons : resolve sb d i (c :: cs) = (walk sb d i c).bind fun x => resolve sb d x cs :=
  List.foldlM_cons

theorem inUse_nil : InUse sb d i [] := fun _ hn => absurd hn (Nat.not_lt_zero _)

theorem inUse_cons : InUse sb d i (c :: cs) ↔
    (sb.dinode d i).type ≠ 0 ∧ ∀ x, walk sb d i c = some x → InUse sb d x cs := by
  constructor
  · refine fun h => ⟨h 0 (Nat.succ_pos _) i rfl, fun x hx n hn y hy => ?_⟩
    refine h (n + 1) (Nat.succ_lt_succ hn) y ?_
    rw [List.take_succ_cons, resolve_cons, hx]
    exact hy
  · rintro ⟨htype, hrest⟩ (_ | n) hn x hx
    · exact Option.some.inj hx ▸ htype
    · rw [List.take_succ_cons, resolve_cons] at hx
      obtain ⟨y, hy, hx⟩ := Option.bind_eq_some_iff.mp hx
      exact hrest y hy n (Nat.lt_of_succ_lt_succ hn) x hx

theorem resolveParent_singleton :
    resolveParent sb d i [c] = if (sb.dinode d i).type = tDir then some (i, c) else none := rfl

theorem resolveParent_cons (hcs : cs ≠ []) : resolveParent sb d i (c :: cs) =
    (walk sb d i c).bind fun x => resolveParent sb d x cs := by
  have hlast : (c :: cs).getLast? = cs.getLast? := by
    rw [List.getLast?_cons, List.getLast?_eq_some_getLast hcs]
    rfl
  rw [resolveParent, hlast, List.dropLast_cons_of_ne_nil hcs, resolve_cons]
  simp only [resolveParent, List.getLast?_eq_some_getLast hcs]
  cases walk sb d i c <;> rfl

/-- The last component is looked up in the directory of the others. -/
theorem resolve_of_resolveParent {x : ℕ} (h : resolveParent sb d i cs = some (x, c)) :
    (sb.dinode d x).type = tDir ∧ resolve sb d i cs = dirMap sb d x (nameKey c) := by
  rcases List.eq_nil_or_concat cs with rfl | ⟨init, last, rfl⟩
  · exact nomatch h
  · rw [List.concat_eq_append] at h ⊢
    rw [resolveParent, List.getLast?_concat, List.dropLast_concat] at h
    cases hinit : resolve sb d i init with
    | none =>
      rw [hinit] at h
      exact nomatch h
    | some y =>
      rw [hinit] at h
      change (if (sb.dinode d y).type = tDir then some (y, last) else none) = some (x, c) at h
      split at h
      · next htype =>
        obtain ⟨rfl, rfl⟩ := Prod.mk.inj (Option.some.inj h)
        have hsplit : resolve sb d i (init ++ [last]) =
            (resolve sb d i init).bind fun z => resolve sb d z [last] := List.foldlM_append
        refine ⟨htype, ?_⟩
        rw [hsplit, hinit, Option.bind_some, resolve_cons, walk, if_pos htype]
        cases dirMap sb d y (nameKey last) <;> rfl
      · exact nomatch h

end Resolve

/-- The directories have whole entries and no holes. An entry names an inode that has a link or is
in the cache, or one that is free. -/
structure Tree (sb : Superblock) (s : State) : Prop where
  dir : ∀ i < sb.ninodes, (sb.dinode s.disk i).type = tDir → IsDir (sb.dinode s.disk i) s.disk
  entry : ∀ i < sb.ninodes, (sb.dinode s.disk i).type = tDir → ∀ key x,
    dirMap sb s.disk i key = some x → x < sb.ninodes ∧ ((sb.dinode s.disk x).type ≠ 0 →
      (sb.dinode s.disk x).nlink ≠ 0 ∨ ∃ k < nInode, 0 < (s.icache k).ref ∧ (s.icache k).inum = x)

/-! ## What a run holds -/

/-- The run holds a reference to each of the slots `js` on top of those of `s₀`, and the lock of
slot `l`. The disk is as it was, and what is cached agrees with it and is not free. -/
structure Holding (sb : Superblock) (s₀ : State) (js : List ℕ)
    (l : Option ℕ) (s : State) : Prop where
  disk : s.disk = s₀.disk
  buf : ∀ b, s.buf b = none
  lock : ∀ k, (s.icache k).lock ≠ none ↔ l = some k
  core : ∀ k, 0 < (s.icache k).ref → (s.icache k).valid = true →
    (s.icache k).din = sb.dinode s.disk (s.icache k).inum ∧ (s.icache k).din.type ≠ 0
  ref : ∀ k, (s.icache k).ref = (s₀.icache k).ref + js.count k
  inum : ∀ k, 0 < (s₀.icache k).ref → (s.icache k).inum = (s₀.icache k).inum

namespace Holding

variable {sb : Superblock} {s₀ s : State} {js : List ℕ} {l : Option ℕ} {j k p x : ℕ}

theorem ref_pos (h : Holding sb s₀ js l s) (hj : j ∈ js) : 0 < (s.icache j).ref := by
  have hcount := List.count_pos_iff.mpr hj
  rw [h.ref]
  omega

theorem lock_none (h : Holding sb s₀ js none s) (k : ℕ) : (s.icache k).lock = none := by
  by_contra hne
  cases (h.lock k).mp hne

theorem congr (h : Holding sb s₀ js l s) (hjs : ∀ m, js.count m = js'.count m) :
    Holding sb s₀ js' l s :=
  { h with ref := fun m => by rw [h.ref, hjs] }

/-- A change of one slot. -/
theorem update (h : Holding sb s₀ js l s) {ip : Inode} {l' : Option ℕ}
    (hcache : s'.icache = Function.update s.icache k ip)
    (hrest : (s'.disk, s'.buf) = (s.disk, s.buf))
    (hlock : ip.lock ≠ none ↔ l' = some k) (hl : ∀ m, m ≠ k → (l' = some m ↔ l = some m))
    (hcore : 0 < ip.ref → ip.valid = true → ip.din = sb.dinode s.disk ip.inum ∧ ip.din.type ≠ 0)
    (href : ip.ref = (s₀.icache k).ref + js'.count k) (hjs : ∀ m, m ≠ k → js'.count m = js.count m)
    (hinum : 0 < (s₀.icache k).ref → ip.inum = (s₀.icache k).inum) : Holding sb s₀ js' l' s' := by
  obtain ⟨hdisk, hbuf⟩ := Prod.mk.inj hrest
  have hself : s'.icache k = ip := by rw [hcache, Function.update_self]
  have hother {m : ℕ} (hm : m ≠ k) : s'.icache m = s.icache m := by
    rw [hcache, Function.update_of_ne hm]
  refine ⟨hdisk.trans h.disk, hbuf ▸ h.buf, fun m => ?_, fun m => ?_, fun m => ?_, fun m => ?_⟩
  · rcases eq_or_ne m k with rfl | hne
    · rw [hself, hlock]
    · rw [hother hne, h.lock, hl m hne]
  · rcases eq_or_ne m k with rfl | hne
    · rw [hself, hdisk]
      exact hcore
    · rw [hother hne, hdisk]
      exact h.core m
  · rcases eq_or_ne m k with rfl | hne
    · rw [hself, href]
    · rw [hother hne, h.ref, hjs m hne]
  · rcases eq_or_ne m k with rfl | hne
    · rw [hself]
      exact hinum
    · rw [hother hne]
      exact h.inum m

theorem got (h : Holding sb s₀ js l s) : Holding sb s₀ (k :: js) l (s.got k x) := by
  have href := h.ref k
  have hcache : (s.got k x).icache = Function.update s.icache k (gotInode s k x) := rfl
  refine h.update hcache rfl ?_ (fun _ _ => Iff.rfl) ?_ ?_ ?_ ?_
  · rw [← h.lock, gotInode]
    split <;> rfl
  · rw [gotInode]
    split
    · next hpos => exact fun _ => h.core k hpos
    · simp
  · rw [List.count_cons_self, gotInode]
    split <;> (dsimp only; omega)
  · exact fun m hm => List.count_cons_of_ne hm.symm
  · intro hpos
    rw [gotInode, if_pos (by omega)]
    exact h.inum k hpos

/-- The inode number of a slot that is in use stays. -/
theorem inum_got (hpos : 0 < (s.icache j).ref) :
    ((s.got k x).icache j).inum = (s.icache j).inum := by
  rcases eq_or_ne j k with rfl | hne
  · rw [State.got, State.setInode_self, gotInode, if_pos hpos]
  · rw [State.got, State.setInode_of_ne _ _ hne]

theorem ilock (h : Holding sb s₀ js none s) (hj : j ∈ js)
    (htype : (sb.dinode s.disk (s.icache j).inum).type ≠ 0) :
    ∃ s', (Syscall.ilock sb p j).runS s = .ok ((), s') ∧ Holding sb s₀ js (some j) s' ∧
      (s'.icache j).inum = (s.icache j).inum ∧
      (s'.icache j).din = sb.dinode s'.disk (s.icache j).inum := by
  have hpos := h.ref_pos hj
  have hdin : (lockedInode sb s.disk p (s.icache j)).din = sb.dinode s.disk (s.icache j).inum := by
    rw [lockedInode]
    split
    · next hvalid => exact (h.core j hpos hvalid).1
    · rfl
  have htype' : (lockedInode sb s.disk p (s.icache j)).din.type ≠ 0 := by rwa [hdin]
  refine ⟨_, runS_ilock hpos (h.lock_none j) h.buf fun _ => htype, ?_, ?_, ?_⟩
  · refine h.update (k := j) rfl rfl ?_ ?_ (fun _ _ => ⟨hdin, htype'⟩) (h.ref j)
      (fun _ _ => rfl) (h.inum j)
    · simp [lockedInode]
    · intro m hm
      simp [hm.symm]
  · rw [State.setInode_self]
    rfl
  · rw [State.setInode_self]
    exact hdin

/-- Of an inode that is free nothing is cached, and `ilock` panics. -/
theorem ilock_free (h : Holding sb s₀ js none s) (hj : j ∈ js)
    (htype : (sb.dinode s.disk (s.icache j).inum).type = 0) :
    ∃ s', (Syscall.ilock sb p j).runS s = .error (.fail .ilockNoType, s') := by
  have hpos := h.ref_pos hj
  have hvalid : (s.icache j).valid = false := by
    by_contra hne
    obtain ⟨hdin, htype'⟩ := h.core j hpos (eq_true_of_ne_false hne)
    exact htype' (hdin ▸ htype)
  rw [runS_ilock_eq hpos (h.lock_none j) h.buf, when_pos ⟨hvalid, htype⟩]
  exact ⟨_, rfl⟩

theorem iunlock (h : Holding sb s₀ js (some j) s) (hj : j ∈ js) :
    ∃ s', (Syscall.iunlock j).runS s = .ok ((), s') ∧ Holding sb s₀ js none s' ∧
      ∀ m, (s'.icache m).inum = (s.icache m).inum := by
  have hpos := h.ref_pos hj
  refine ⟨_, runS_iunlock hpos ((h.lock j).mpr rfl), ?_, fun m => ?_⟩
  · refine h.update (k := j) rfl rfl (by simp) ?_ (fun _ => h.core j hpos)
      (h.ref j) (fun _ _ => rfl)
      (h.inum j)
    intro m hm
    simp [hm.symm]
  · rcases eq_or_ne m j with rfl | hne
    · rw [State.setInode_self]
    · rw [State.setInode_of_ne _ _ hne]

/-- Dropping a reference does not free the inode: it has a link, or it was in use before. -/
theorem iput (h : Holding sb s₀ js none s) (hj : j ∈ js)
    (hlink : (s₀.icache j).ref = 0 → (sb.dinode s.disk (s.icache j).inum).type ≠ 0 →
      (sb.dinode s.disk (s.icache j).inum).nlink ≠ 0) :
    ∃ s', (Syscall.iput sb p j).runS s = .ok ((), s') ∧ Holding sb s₀ (js.erase j) none s' ∧
      ∀ m, (s'.icache m).inum = (s.icache m).inum := by
  have hpos := h.ref_pos hj
  have href := h.ref j
  have hcount := List.count_pos_iff.mpr hj
  have hkeep : ¬ ((s.icache j).valid = true ∧ (s.icache j).din.nlink = 0 ∧
    (s.icache j).ref = 1) := by
    rintro ⟨hvalid, hzero, hone⟩
    obtain ⟨hdin, htype⟩ := h.core j hpos hvalid
    rw [hdin] at hzero htype
    exact hlink (by omega) htype hzero
  refine ⟨_, runS_iput (h.lock_none j) hkeep, ?_, fun m => ?_⟩
  · refine h.update (k := j) rfl rfl ?_ (fun _ _ => Iff.rfl)
      (fun _ => h.core j hpos) ?_ ?_ (h.inum j)
    · exact h.lock j
    · rw [List.count_erase_self]
      dsimp only
      omega
    · exact fun m hm => List.count_erase_of_ne hm
  · rcases eq_or_ne m j with rfl | hne
    · rw [State.setInode_self]
    · exact congrArg Inode.inum (State.setInode_of_ne _ _ hne)

theorem iunlockput (h : Holding sb s₀ js (some j) s) (hj : j ∈ js)
    (hlink : (s₀.icache j).ref = 0 → (sb.dinode s.disk (s.icache j).inum).type ≠ 0 →
      (sb.dinode s.disk (s.icache j).inum).nlink ≠ 0) :
    ∃ s', (Syscall.iunlockput sb p j).runS s = .ok ((), s') ∧ Holding sb s₀ (js.erase j) none s' ∧
      ∀ m, (s'.icache m).inum = (s.icache m).inum := by
  obtain ⟨s₁, hrun₁, h₁, hinum₁⟩ := h.iunlock hj
  have hdisk : s₁.disk = s.disk := h₁.disk.trans h.disk.symm
  obtain ⟨s₂, hrun₂, h₂, hinum₂⟩ := h₁.iput (p := p) hj (by rwa [hdisk, hinum₁])
  exact ⟨s₂, (runS_bind_ok hrun₁).trans hrun₂, h₂, fun m => (hinum₂ m).trans (hinum₁ m)⟩

end Holding

/-! ## The loop of `namex` -/

/-- Two slots of the cache are free. -/
def TwoFree (s : State) : Prop :=
  ∃ k₁ k₂, k₁ ≠ k₂ ∧ k₁ < nInode ∧ k₂ < nInode ∧ (s.icache k₁).ref = 0 ∧ (s.icache k₂).ref = 0

/-- The run has come to inode `x`, in slot `j`. -/
structure Reached (sb : Superblock) (s₀ : State) (j x : ℕ) (s : State) : Prop where
  holding : Holding sb s₀ [j] none s
  inum : (s.icache j).inum = x
  lt : x < sb.ninodes
  link : (s₀.icache j).ref = 0 → (sb.dinode s₀.disk x).type ≠ 0 → (sb.dinode s₀.disk x).nlink ≠ 0

section Loop

variable {sb : Superblock} {s₀ s : State} {p j x : ℕ} {path rest : Path} {name nm : List UInt8}

/-- While one slot is held, there is one for the next inode. -/
theorem TwoFree.igetSlot (h : TwoFree s₀) {l : Option ℕ} (hs : Holding sb s₀ [j] l s) (y : ℕ) :
    ∃ k, igetSlot s y = some k := by
  obtain ⟨k₁, k₂, hne, hlt₁, hlt₂, hfree₁, hfree₂⟩ := h
  have hfree {k : ℕ} (hk : k ≠ j) (hzero : (s₀.icache k).ref = 0) : (s.icache k).ref = 0 := by
    rw [hs.ref, hzero, List.count_singleton, if_neg (by simpa using hk.symm)]
  rcases eq_or_ne k₁ j with rfl | hk
  · exact igetSlot_of_free hlt₂ (hfree hne.symm hfree₂) y
  · exact igetSlot_of_free hlt₁ (hfree hk hfree₁) y

theorem namexLoop_of_none (h : skipelem path = none) (parent : Bool) :
    namexLoop sb p parent j path nm = if parent then do
      iput sb p j
      pure (none, nm)
    else pure (some j, nm) := by
  rw [namexLoop]
  split
  · rfl
  · next hsome =>
    rw [h] at hsome
    exact nomatch hsome

theorem namexLoop_of_some (h : skipelem path = some (name, rest)) (parent : Bool) :
    namexLoop sb p parent j path nm = (do
      ilock sb p j
      let din ← core j
      if din.type ≠ tDir then do
        iunlockput sb p j
        pure (none, name)
      else if parent ∧ rest = [] then do
        iunlock j
        pure (some j, name)
      else do
        let next ← dirlookup sb p j name
        iunlockput sb p j
        match next with
        | none => pure (none, name)
        | some (next, _) => namexLoop sb p parent next rest name) := by
  rw [namexLoop]
  split
  · next hnone =>
    rw [h] at hnone
    exact nomatch hnone
  · next name' rest' hsome =>
    obtain ⟨rfl, rfl⟩ := Prod.mk.inj (Option.some.inj (h.symm.trans hsome))
    rfl

/-- The inode is locked and looked at. -/
theorem Reached.lock (h : Reached sb s₀ j x s) (htype : (sb.dinode s₀.disk x).type ≠ 0) :
    ∃ s', (ilock sb p j).runS s = .ok ((), s') ∧ Holding sb s₀ [j] (some j) s' ∧
      (s'.icache j).inum = x ∧ (s'.icache j).din = sb.dinode s₀.disk x := by
  obtain ⟨s', hrun, h', hinum, hdin⟩ := h.holding.ilock (p := p) List.mem_cons_self
    (by rwa [h.holding.disk, h.inum])
  rw [h.inum] at hinum hdin
  exact ⟨s', hrun, h', hinum, by rw [hdin, h'.disk]⟩

/-- The inode is given back. -/
theorem Reached.iunlockput {js : List ℕ} (h : Reached sb s₀ j x s)
    (h' : Holding sb s₀ js (some j) s')
    (hj : j ∈ js) (hinum : (s'.icache j).inum = x) :
    ∃ s'', (iunlockput sb p j).runS s' = .ok ((), s'') ∧ Holding sb s₀ (js.erase j) none s'' ∧
      ∀ m, (s''.icache m).inum = (s'.icache m).inum :=
  h'.iunlockput hj (by rw [h'.disk, hinum]; exact h.link)

/-- The next inode is in a slot that was in use before, or has a link: the slot is a new one, or the
one of the inode at hand. -/
theorem Reached.link_next {k l y} (h : Reached sb s₀ j x s) (h' : Holding sb s₀ [j] l s')
    (hinum : (s'.icache j).inum = x) (hk : igetSlot s' y = some k)
    (hlink : (sb.dinode s₀.disk y).type ≠ 0 → (sb.dinode s₀.disk y).nlink ≠ 0 ∨
      ∃ m < nInode, 0 < (s₀.icache m).ref ∧ (s₀.icache m).inum = y)
    (hzero : (s₀.icache k).ref = 0) (htype : (sb.dinode s₀.disk y).type ≠ 0) :
    (sb.dinode s₀.disk y).nlink ≠ 0 := by
  rcases (igetSlot_spec hk).2 with ⟨hpos, rfl⟩ | ⟨-, hnew⟩
  · obtain rfl : k = j := by
      by_contra hne
      rw [h'.ref, hzero, List.count_singleton, if_neg (by simpa using Ne.symm hne)] at hpos
      exact Nat.lt_irrefl 0 hpos
    rw [hinum] at htype ⊢
    exact h.link hzero htype
  · refine (hlink htype).resolve_right ?_
    rintro ⟨m, hm, hpos, rfl⟩
    refine hnew m hm ?_ (h'.inum m hpos)
    rw [h'.ref]
    exact Nat.add_pos_left hpos _

section

variable (h : Reached sb s₀ j x s) (ht : Tree sb s₀)
include h ht

/-- What is traversed is no directory, or the name is not in it. -/
theorem Reached.lookup_none (nm : List UInt8)
    (parent : Bool) (hskip : skipelem path = some (name, rest))
    (htype₀ : (sb.dinode s₀.disk x).type ≠ 0)
    (hgo : ¬ (parent ∧ rest = []) ∨ (sb.dinode s₀.disk x).type ≠ tDir)
    (hwalk : walk sb s₀.disk x name = none) :
    ∃ s', (namexLoop sb p parent j path nm).runS s = .ok ((none, name), s') ∧
      Holding sb s₀ [] none s' := by
  obtain ⟨s₁, hlock, h₁, hinum, hdin⟩ := h.lock (p := p) htype₀
  obtain ⟨s₂, hput, h₂, -⟩ := h.iunlockput (p := p) h₁ List.mem_cons_self hinum
  rw [List.erase_cons_head] at h₂
  rw [namexLoop_of_some hskip, runS_bind_ok hlock, runS_bind_ok (runS_core ..), hdin]
  by_cases htype : (sb.dinode s₀.disk x).type = tDir
  · rw [if_neg (not_not.mpr htype), if_neg (hgo.resolve_right (not_not.mpr htype))]
    rw [walk, if_pos htype] at hwalk
    have hdir : IsDir (s₁.icache j).din s₁.disk := by
      rw [hdin, h₁.disk]
      exact ht.dir x h.lt htype
    have hfind : findFrom (nameKey name) (slots (s₁.icache j).din s₁.disk) 0 = none := by
      rw [hdin, h₁.disk]
      exact Option.map_eq_none_iff.mp hwalk
    rw [runS_bind_ok (runS_dirlookup_none hdir h₁.buf hfind), runS_bind_ok hput]
    exact ⟨s₂, rfl, h₂⟩
  · rw [if_pos htype, runS_bind_ok hput]
    exact ⟨s₂, rfl, h₂⟩

/-- **One turn** goes on to the next inode. -/
theorem Reached.lookup_some (hfree : TwoFree s₀)
    (nm : List UInt8) (parent : Bool) (hskip : skipelem path = some (name, rest))
    (hgo : ¬ (parent ∧ rest = [])) {y : ℕ}
    (hwalk : walk sb s₀.disk x name = some y) :
    ∃ k s', (namexLoop sb p parent j path nm).runS s = (namexLoop sb p parent k rest name).runS s' ∧
      Reached sb s₀ k y s' := by
  rw [walk] at hwalk
  split at hwalk
  · next htype =>
    obtain ⟨s₁, hlock, h₁, hinum, hdin⟩ := h.lock (p := p) (by rw [htype]; decide)
    rw [namexLoop_of_some hskip, runS_bind_ok hlock, runS_bind_ok (runS_core ..), hdin]
    rw [if_neg (not_not.mpr htype), if_neg hgo]
    have hdir : IsDir (s₁.icache j).din s₁.disk := by
      rw [hdin, h₁.disk]
      exact ht.dir x h.lt htype
    obtain ⟨⟨x', n⟩, hfind, hx'⟩ := Option.map_eq_some_iff.mp hwalk
    obtain rfl : x' = y := hx'
    obtain ⟨hlt, hlink⟩ := ht.entry x h.lt htype _ _ hwalk
    have hfind' : findFrom (nameKey name) (slots (s₁.icache j).din s₁.disk) 0 = some (x', n) := by
      rw [hdin, h₁.disk]
      exact hfind
    obtain ⟨k, hk⟩ := hfree.igetSlot h₁ x'
    rw [runS_bind_ok (runS_dirlookup_some hdir h₁.buf hfind' hk)]
    have hgot : Holding sb s₀ [k, j] (some j) (s₁.got k x') := h₁.got
    have hinum' : ((s₁.got k x').icache j).inum = x :=
      (Holding.inum_got (h₁.ref_pos List.mem_cons_self)).trans hinum
    obtain ⟨s₂, hput, h₂, hsame⟩ := h.iunlockput (p := p) hgot (by simp) hinum'
    rw [runS_bind_ok hput]
    have hcount (m : ℕ) : (List.erase [k, j] j).count m = [k].count m := by
      simp [List.count_erase, List.count_cons]
    exact ⟨k, s₂, rfl, ⟨h₂.congr hcount, (hsame k).trans (inum_got hk), hlt,
      h.link_next h₁ hinum hk hlink⟩⟩
  · cases hwalk

/-- The loop of `namei`. -/
theorem Reached.namexLoop (hfree : TwoFree s₀) (path : Path) (nm : List UInt8)
    (huse : InUse sb s₀.disk x (components path)) :
    ∃ r s', (namexLoop sb p false j path nm).runS s = .ok (r, s') ∧
      match resolve sb s₀.disk x (components path) with
      | none => r.1 = none ∧ Holding sb s₀ [] none s'
      | some y => ∃ k, r.1 = some k ∧ Reached sb s₀ k y s' := by
  induction path using elements.induct generalizing j x s nm with
  | case1 path hskip =>
    rw [components_of_skipelem_none hskip, namexLoop_of_none hskip]
    exact ⟨_, s, rfl, j, rfl, h⟩
  | case2 path name rest hskip ih =>
    rw [components_of_skipelem hskip] at huse ⊢
    rw [resolve_cons]
    obtain ⟨htype, huse⟩ := inUse_cons.mp huse
    have hgo : ¬ (false = true ∧ rest = []) := fun hc => Bool.false_ne_true hc.1
    cases hwalk : walk sb s₀.disk x name with
    | none =>
      obtain ⟨s', hrun, hs'⟩ := h.lookup_none (p := p) ht nm false hskip htype (.inl hgo) hwalk
      exact ⟨_, s', hrun, rfl, hs'⟩
    | some y =>
      obtain ⟨k, s₁, hrun, h₁⟩ := h.lookup_some (p := p) ht hfree nm false hskip hgo hwalk
      obtain ⟨r, s', hrun', hr⟩ := ih h₁ name (huse y hwalk)
      exact ⟨r, s', hrun.trans hrun', hr⟩

/-- The loop of `nameiparent`. -/
theorem Reached.namexLoop_parent (hfree : TwoFree s₀) (path : Path) (nm : List UInt8)
    (huse : InUse sb s₀.disk x (components path)) :
    ∃ r s', (Syscall.namexLoop sb p true j path nm).runS s = .ok (r, s') ∧
      match resolveParent sb s₀.disk x (components path) with
      | none => r.1 = none ∧ Holding sb s₀ [] none s'
      | some (y, c) => ∃ k, r = (some k, c) ∧ Reached sb s₀ k y s' := by
  induction path using elements.induct generalizing j x s nm with
  | case1 path hskip =>
    obtain ⟨s', hrun, hs', -⟩ := h.holding.iput (p := p) List.mem_cons_self
      (by rw [h.holding.disk, h.inum]; exact h.link)
    rw [List.erase_cons_head] at hs'
    rw [components_of_skipelem_none hskip, namexLoop_of_none hskip]
    exact ⟨(none, nm), s', runS_bind_ok hrun, rfl, hs'⟩
  | case2 path name rest hskip ih =>
    rw [components_of_skipelem hskip] at huse ⊢
    obtain ⟨hfirst, huse⟩ := inUse_cons.mp huse
    by_cases hrest : rest = []
    · rw [(rest_eq_nil_iff hskip).mp hrest, resolveParent_singleton]
      by_cases htype : (sb.dinode s₀.disk x).type = tDir
      · -- stop one level early
        obtain ⟨s₁, hlock, h₁, hinum, hdin⟩ := h.lock (p := p) hfirst
        obtain ⟨s₂, hunlock, h₂, hsame⟩ := h₁.iunlock List.mem_cons_self
        rw [if_pos htype, namexLoop_of_some hskip, runS_bind_ok hlock,
          runS_bind_ok (runS_core ..), hdin,
          if_neg (not_not.mpr htype), if_pos ⟨rfl, hrest⟩, runS_bind_ok hunlock]
        exact ⟨_, s₂, rfl, j, rfl, h₂, (hsame j).trans hinum, h.lt, h.link⟩
      · have hwalk : walk sb s₀.disk x name = none := if_neg htype
        obtain ⟨s', hrun, hs'⟩ := h.lookup_none (p := p) ht nm true hskip hfirst (.inr htype) hwalk
        rw [if_neg htype]
        exact ⟨_, s', hrun, rfl, hs'⟩
    · have hgo : ¬ (true = true ∧ rest = []) := fun hc => hrest hc.2
      rw [resolveParent_cons fun hnil => hrest ((rest_eq_nil_iff hskip).mpr hnil)]
      cases hwalk : walk sb s₀.disk x name with
      | none =>
        obtain ⟨s', hrun, hs'⟩ := h.lookup_none (p := p) ht nm true hskip hfirst (.inl hgo) hwalk
        exact ⟨_, s', hrun, rfl, hs'⟩
      | some y =>
        obtain ⟨k, s₁, hrun, h₁⟩ := h.lookup_some (p := p) ht hfree nm true hskip hgo hwalk
        obtain ⟨r, s', hrun', hr⟩ := ih h₁ name (huse y hwalk)
        exact ⟨r, s', hrun.trans hrun', hr⟩

/-- Both loops panic at the first free inode in which they have to look up a component. -/
theorem Reached.namexLoop_panics (hfree : TwoFree s₀) (path : Path) (nm : List UInt8)
    (parent : Bool)
    (huse : ¬ InUse sb s₀.disk x (components path)) :
    ∃ s', (Syscall.namexLoop sb p parent j path nm).runS s = .error (.fail .ilockNoType, s') := by
  induction path using elements.induct generalizing j x s nm with
  | case1 path hskip =>
    rw [components_of_skipelem_none hskip] at huse
    exact absurd inUse_nil huse
  | case2 path name rest hskip ih =>
    rw [components_of_skipelem hskip, inUse_cons] at huse
    by_cases htype : (sb.dinode s₀.disk x).type = 0
    · obtain ⟨s', hlock⟩ := h.holding.ilock_free (p := p) List.mem_cons_self
        (by rwa [h.holding.disk, h.inum])
      rw [namexLoop_of_some hskip]
      exact ⟨s', runS_bind_error hlock⟩
    · -- some component is left behind the one at hand
      obtain ⟨y, hwalk, huse⟩ : ∃ y, walk sb s₀.disk x name = some y ∧
          ¬ InUse sb s₀.disk y (components rest) := by
        by_contra hall
        exact huse ⟨htype, fun y hwalk => by_contra fun hy => hall ⟨y, hwalk, hy⟩⟩
      have hgo : ¬ (parent = true ∧ rest = []) := by
        rintro ⟨-, rfl⟩
        exact huse inUse_nil
      obtain ⟨k, s₁, hrun, h₁⟩ := h.lookup_some (p := p) ht hfree nm parent hskip hgo hwalk
      obtain ⟨s', hrun'⟩ := ih h₁ name huse
      exact ⟨s', hrun.trans hrun'⟩

end

end Loop

/-! ## Paths -/

/-- Nobody is in the file system, and what is cached agrees with the disk and is not free. -/
structure Calm (sb : Superblock) (s : State) : Prop where
  lock : ∀ k, (s.icache k).lock = none
  buf : ∀ b, s.buf b = none
  core : ∀ k, 0 < (s.icache k).ref → (s.icache k).valid = true →
    (s.icache k).din = sb.dinode s.disk (s.icache k).inum ∧ (s.icache k).din.type ≠ 0

theorem Calm.holding {s : State} (h : Calm sb s) : Holding sb s [] none s := { h with
  disk := rfl
  lock k := by simp [h.lock k]
  ref _ := rfl
  inum _ _ := rfl }

/-- The inode where a path starts: the root, or the working directory in slot `c`. -/
def startIno (s : State) (c : ℕ) (path : Path) : ℕ :=
  if path.head? = some slash then rootIno else (s.icache c).inum

/-- Process `p` has its working directory in slot `c`, and the root has a link unless it is free. -/
structure Rooted (sb : Superblock) (s : State) (p c : ℕ) : Prop where
  root_lt : rootIno < sb.ninodes
  root_nlink : (sb.dinode s.disk rootIno).type ≠ 0 → (sb.dinode s.disk rootIno).nlink ≠ 0
  cwd : s.cwd p = some c
  cwd_ref : 0 < (s.icache c).ref
  cwd_lt : (s.icache c).inum < sb.ninodes

section Resolution

variable {sb : Superblock} {s : State} {p c : ℕ}

/-- `namex` enters its loop at the start of the path. -/
theorem Rooted.namex (h : Rooted sb s p c) (hcalm : Calm sb s) (hfree : TwoFree s) (path : Path)
    (parent : Bool) :
    ∃ j s', (namex sb p path parent).runS s = (namexLoop sb p parent j path []).runS s' ∧
      Reached sb s j (startIno s c path) s' := by
  rw [Syscall.namex, startIno]
  split
  · obtain ⟨k₁, k₂, -, hlt, -, hzero, -⟩ := hfree
    obtain ⟨k, hk⟩ := igetSlot_of_free hlt hzero rootIno
    exact ⟨k, s.got k rootIno, runS_bind_ok (runS_iget hk), hcalm.holding.got,
      inum_got hk, h.root_lt, fun _ => h.root_nlink⟩
  · refine ⟨c, s.setInode c { s.icache c with ref := (s.icache c).ref + 1 }, ?_, ?_, ?_, h.cwd_lt,
      fun hzero => absurd hzero h.cwd_ref.ne'⟩
    · rw [runS_bind_ok (runS_get ..), h.cwd]
      exact runS_bind_ok (runS_idup ..)
    · refine hcalm.holding.update (k := c) rfl rfl ?_ (fun _ _ => Iff.rfl) ?_ ?_ ?_ fun _ => rfl
      · simp [hcalm.lock c]
      · exact fun _ => hcalm.core c h.cwd_ref
      · rw [List.count_singleton_self]
      · exact fun m hm => List.count_cons_of_ne hm.symm
    · rw [State.setInode_self]

/-- The run returns 0, or the slot of inode `x`, with one reference more and nothing else
changed. -/
def Finds (sb : Superblock) (s : State) (r : Except (Halt Panic Wait) (Option ℕ × State)) :
    Option ℕ → Prop
  | none => ∃ s', r = .ok (none, s') ∧ Holding sb s [] none s'
  | some x => ∃ k s', r = .ok (some k, s') ∧ (s'.icache k).inum = x ∧ Holding sb s [k] none s'

/-- `nameiparent` returns the directory of the last component together with that component, and
looking it up there gives what `namei` has to return; or it returns 0 if there is no such
directory. -/
def FindsParent (sb : Superblock) (s : State) (p i : ℕ) (path : Path) : Prop :=
  match resolveParent sb s.disk i (components path) with
  | none =>
    ∃ name s', (nameiparent sb p path).run s = .ok ((none, name), s') ∧ Holding sb s [] none s'
  | some (x, name) => ∃ k s', (nameiparent sb p path).run s = .ok ((some k, name), s') ∧
      (s'.icache k).inum = x ∧ Holding sb s [k] none s' ∧
      ∃ s'', (ilock sb p k).run s' = .ok ((), s'') ∧
        Yields sb p s'' k name (resolve sb s.disk i (components path))

theorem FindsParent.exists_ok {i : ℕ} {path : Path} (h : FindsParent sb s p i path) :
    ∃ r, (nameiparent sb p path).run s = .ok r := by
  rw [FindsParent] at h
  split at h
  · obtain ⟨name, s', hrun, -⟩ := h
    exact ⟨_, hrun⟩
  · obtain ⟨k, s', hrun, -⟩ := h
    exact ⟨_, hrun⟩

theorem Finds.exists_ok {r : Except (Halt Panic Wait) (Option ℕ × State)} {o : Option ℕ}
    (h : Finds sb s r o) : ∃ q, r = .ok q := by
  cases o with
  | none =>
    obtain ⟨s', hrun, -⟩ := h
    exact ⟨_, hrun⟩
  | some x =>
    obtain ⟨k, s', hrun, -⟩ := h
    exact ⟨_, hrun⟩

section

variable (hcalm : Calm sb s) (htree : Tree sb s) (hrooted : Rooted sb s p c) (hfree : TwoFree s)
  (path : Path)
include hcalm htree hrooted hfree

theorem namei_finds (huse : InUse sb s.disk (startIno s c path) (components path)) :
    Finds sb s ((namei sb p path).run s)
      (resolve sb s.disk (startIno s c path) (components path)) := by
  obtain ⟨j, s₁, hstart, hreached⟩ := hrooted.namex hcalm hfree path false
  obtain ⟨⟨r, nm⟩, s', hloop, hr⟩ := hreached.namexLoop (p := p) htree hfree path [] huse
  have hrun : (namei sb p path).run s = .ok (r, s') :=
    run_of_runS_ok (runS_bind_ok (hstart.trans hloop))
  rw [hrun]
  cases hresolve : resolve sb s.disk (startIno s c path) (components path) with
  | none =>
    rw [hresolve] at hr
    obtain ⟨rfl, hs'⟩ := hr
    exact ⟨s', rfl, hs'⟩
  | some x =>
    rw [hresolve] at hr
    obtain ⟨k, rfl, hs'⟩ := hr
    exact ⟨k, s', rfl, hs'.inum, hs'.holding⟩

theorem nameiparent_finds (huse : InUse sb s.disk (startIno s c path) (components path)) :
    FindsParent sb s p (startIno s c path) path := by
  obtain ⟨j, s₁, hstart, hreached⟩ := hrooted.namex hcalm hfree path true
  obtain ⟨⟨r, nm⟩, s', hloop, hr⟩ := hreached.namexLoop_parent (p := p) htree hfree path [] huse
  have hrun : (nameiparent sb p path).run s = .ok ((r, nm), s') :=
    run_of_runS_ok (hstart.trans hloop)
  rw [FindsParent, hrun]
  rcases hparent : resolveParent sb s.disk (startIno s c path) (components path) with _ | ⟨x, name⟩
  · rw [hparent] at hr
    obtain ⟨rfl, hs'⟩ := hr
    exact ⟨nm, s', rfl, hs'⟩
  · rw [hparent] at hr
    obtain ⟨k, heq, hs'⟩ := hr
    obtain ⟨htype, hlast⟩ := resolve_of_resolveParent hparent
    obtain ⟨s'', hlock, h'', -, hdin⟩ := hs'.lock (p := p) (by rw [htype]; decide)
    refine ⟨k, s', by rw [heq], hs'.inum, hs'.holding, s'', run_of_runS_ok hlock, ?_⟩
    have hdir : IsDir (s''.icache k).din s''.disk := by
      rw [hdin, h''.disk]
      exact htree.dir x hs'.lt htype
    have hyields := hdir.yields (p := p) h''.buf (i := x) (by rw [hdin, h''.disk]) name
    rwa [h''.disk, ← hlast] at hyields

/-- A path through a free inode panics. -/
theorem namex_panics (parent : Bool)
    (huse : ¬ InUse sb s.disk (startIno s c path) (components path)) :
    ∃ s', (namex sb p path parent).runS s = .error (.fail .ilockNoType, s') := by
  obtain ⟨j, s₁, hstart, hreached⟩ := hrooted.namex hcalm hfree path parent
  obtain ⟨s', hloop⟩ := hreached.namexLoop_panics (p := p) htree hfree path [] parent huse
  exact ⟨s', hstart.trans hloop⟩

end

/-- **Path resolution.** For every path `skipelem` yields its components. `namei` returns the inode
that is reached by looking them up, and 0 where there is none, exactly if every inode in which a
component is looked up is in use. Exactly then, too, `nameiparent` returns the directory of the last
component together with that component, or 0 where there is none, and looking the component up there
gives what `namei` returns. -/
theorem namei_resolve_iff (sb : Superblock) (s : State) (p c : ℕ) (hcalm : Calm sb s)
    (htree : Tree sb s) (hrooted : Rooted sb s p c) (hfree : TwoFree s) (path : Path) :
    elements path = components path ∧
    (Finds sb s ((namei sb p path).run s)
        (resolve sb s.disk (startIno s c path) (components path)) ↔
      InUse sb s.disk (startIno s c path) (components path)) ∧
    (FindsParent sb s p (startIno s c path) path ↔
      InUse sb s.disk (startIno s c path) (components path)) := by
  refine ⟨elements_eq_components path,
    ⟨fun hfinds => ?_, namei_finds hcalm htree hrooted hfree path⟩,
    ⟨fun hfinds => ?_, nameiparent_finds hcalm htree hrooted hfree path⟩⟩
  · by_contra huse
    obtain ⟨s', hrun⟩ := namex_panics hcalm htree hrooted hfree path false huse
    obtain ⟨r, hok⟩ := hfinds.exists_ok
    rw [namei, run_of_runS_error (runS_bind_error hrun)] at hok
    cases hok
  · by_contra huse
    obtain ⟨s', hrun⟩ := namex_panics hcalm htree hrooted hfree path true huse
    obtain ⟨r, hok⟩ := hfinds.exists_ok
    rw [nameiparent, run_of_runS_error hrun] at hok
    cases hok

/-- A directory that has been removed while it was a working directory. -/
def removedDir : Dinode :=
  { Fs.freshDinode tDir with size := 32, addrs := fun k => if k = 0 then 100 else 0 }

/-- The working directory of process 0 has been removed, and then its parent. -/
def removedCwd : State :=
  { openRoot with
    disk := Function.update (mkfsSuperblock.putDinode (emptyImage mkfsSuperblock) 3 removedDir) 100
      (zeroBlock.paste 0 (direntBytes 3 dot ++ direntBytes 2 dotdot))
    icache := fun j =>
      if j = 0 then ⟨3, 1, none, true, removedDir⟩ else ⟨0, 0, none, false, Fs.freshDinode 0⟩ }

theorem dinode_removedCwd {i : ℕ} (hi : i < mkfsSuperblock.ninodes) :
    mkfsSuperblock.dinode removedCwd.disk i =
      if i = 3 then removedDir else mkfsSuperblock.dinode (emptyImage mkfsSuperblock) i :=
  (layout_mkfsSuperblock.dinode_update hi (by decide)).trans (Superblock.dinode_putDinode ..)

/-- The only inode that is in use is the working directory. -/
theorem eq_of_type_removedCwd {i : ℕ} (hi : i < mkfsSuperblock.ninodes)
    (htype : (mkfsSuperblock.dinode removedCwd.disk i).type ≠ 0) : i = 3 := by
  by_contra hne
  rw [dinode_removedCwd hi, if_neg hne, type_emptyImage layout_mkfsSuperblock hi] at htype
  exact htype rfl

theorem tree_removedCwd : Tree mkfsSuperblock removedCwd := by
  have htable : dirTable (fileBytes mkfsSuperblock removedCwd.disk 3) =
      [some (nameKey dot, 3), some (nameKey dotdot, 2)] := by
    decide +kernel
  refine ⟨fun i hi htype => ?_, fun i hi htype key x hx => ?_⟩
  · obtain rfl := eq_of_type_removedCwd hi (by rw [htype]; decide)
    refine ⟨htype, fun bn hbn => ?_, by decide +kernel⟩
    rw [dinode_removedCwd hi, if_pos rfl] at hbn ⊢
    have hbn : bn * 512 < 32 := hbn
    obtain rfl : bn = 0 := by omega
    decide +kernel
  · obtain rfl := eq_of_type_removedCwd hi (by rw [htype]; decide)
    rw [dirMap, htable] at hx
    obtain ⟨⟨y, n⟩, hfind, hy⟩ := Option.map_eq_some_iff.mp hx
    obtain rfl : y = x := hy
    have hmem := List.mem_of_getElem? (getElem?_of_findFrom hfind).2
    obtain rfl | rfl : y = 3 ∨ y = 2 := by
      simp only [List.mem_cons, Option.some.injEq, Prod.mk.injEq, List.not_mem_nil,
        or_false] at hmem
      exact hmem.imp And.right And.right
    · exact ⟨by decide, fun _ => .inr ⟨0, by decide, by decide, rfl⟩⟩
    · exact ⟨by decide, fun hne => absurd (eq_of_type_removedCwd (by decide) hne) (by decide)⟩

/-- In a working directory that has been removed, with its parent, `./..` leads to the free inode,
as it should, but `../x` has to look into it. -/
theorem namei_resolve_iff_removedCwd :
    Finds mkfsSuperblock removedCwd
      ((namei mkfsSuperblock 0 [46, 47, 46, 46]).run removedCwd) (some 2) ∧
      ¬ Finds mkfsSuperblock removedCwd ((namei mkfsSuperblock 0 [46, 46, 47, 120]).run removedCwd)
        none := by
  have hcalm : Calm mkfsSuperblock removedCwd := by
    refine ⟨fun k => ?_, fun _ => rfl, fun k href hvalid => ?_⟩
    · dsimp only [removedCwd]
      split <;> rfl
    · obtain rfl : k = 0 := by
        by_contra hne
        simp [removedCwd, hne] at href
      exact ⟨((dinode_removedCwd (by decide)).trans (if_pos rfl)).symm, by decide⟩
  have hrooted : Rooted mkfsSuperblock removedCwd 0 0 :=
    ⟨by decide, fun hne => absurd (eq_of_type_removedCwd (by decide) hne) (by decide), rfl,
      by decide, by decide⟩
  have hfree : TwoFree removedCwd :=
    ⟨1, 2, by decide, by decide, by decide, by decide, by decide⟩
  have hiff := namei_resolve_iff mkfsSuperblock removedCwd 0 0 hcalm tree_removedCwd hrooted hfree
  have hto : resolve mkfsSuperblock removedCwd.disk 3 (components [46, 47, 46, 46]) = some 2 := by
    decide +kernel
  have hnone : resolve mkfsSuperblock removedCwd.disk 3 (components [46, 46, 47, 120]) = none := by
    decide +kernel
  refine ⟨hto ▸ (hiff [46, 47, 46, 46]).2.1.mpr (by decide +kernel), fun hfinds => ?_⟩
  rw [← hnone] at hfinds
  exact absurd ((hiff [46, 46, 47, 120]).2.1.mp hfinds) (by decide +kernel)

/-- **A working directory whose parent has been removed.** Its entry `..` still names the inode,
which is free: the path `../x` does not lead to 0, `ilock` panics. -/
theorem namei_removedCwd :
    resolve mkfsSuperblock removedCwd.disk 3 (components [46, 46, 47, 120]) = none ∧
      (namei mkfsSuperblock 0 [46, 46, 47, 120]).run removedCwd = .error (.fail .ilockNoType) :=
  ⟨by decide +kernel, eq_error_of_map (by decide +kernel)⟩

end Resolution

end InuOs.Syscall
