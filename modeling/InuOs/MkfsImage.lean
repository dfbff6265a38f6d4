import InuOs.Dirent
import InuOs.Mkfs

/-!
# The images that mkfs builds

What `main` builds, step by step: `Built` is kept by the loop over the files, for as long as there
are inodes. `mkfs` returns if everything fits (`mkfs_ok`), and then its image is consistent unless
one of two things has happened (`mkfs_consistent_iff`):

* There are more than `NINODES - 2` files. `ialloc` does not compare `freeinode` with `NINODES`.
* The entries of the root directory fill its last block. `main` rounds the size of the root
  directory up to the *next* multiple of `BSIZE`, and there is no block for the last 512 bytes then.
-/

namespace InuOs.Mkfs

open Image (need)

/-! ## The loops -/

/-- What the loop over `read` appends. -/
def readBytes : List (List UInt8) → List UInt8
  | [] => []
  | buf :: rest => if buf.length = 0 then [] else buf ++ readBytes rest

/-- The content of a file. -/
def Input.bytes (f : Input) : List UInt8 := readBytes (f.reads.getD [])

variable {m n : ℕ} {f : Input} {fs files : List Input}

theorem blocks_mono (h : m ≤ n) : blocks m ≤ blocks n :=
  blocks_le_iff.mpr (h.trans (blocks_le_iff.mp le_rfl))

theorem need_mono (h : m ≤ n) : need (blocks m) ≤ need (blocks n) := by
  have hle := blocks_mono h
  rw [need, need]
  split
  · rw [if_pos (by omega)]
    omega
  · split <;> omega

variable {img img' : Image} {bs : ℕ → List UInt8} {i : ℕ}

theorem Built.read (h : Built img bs) (hi : 1 ≤ i) (hi' : i < img.freeinode)
    {reads : List (List UInt8)} (hreads : appendReads img i reads = .ok img') :
    Built img' (Function.update bs i (bs i ++ readBytes reads)) ∧
      img'.freeinode = img.freeinode ∧
      img'.freeblock + need (blocks (bs i).length) ≤
        img.freeblock + need (blocks (bs i ++ readBytes reads).length) := by
  induction reads generalizing img bs with
  | nil =>
    obtain rfl := Except.ok.inj hreads
    rw [readBytes, List.append_nil, Function.update_eq_self]
    exact ⟨h, rfl, le_rfl⟩
  | cons buf rest ih =>
    rw [appendReads] at hreads
    rw [readBytes]
    by_cases hbuf : buf.length = 0
    · rw [if_pos hbuf] at hreads
      obtain rfl := Except.ok.inj hreads
      rw [if_pos hbuf, List.append_nil, Function.update_eq_self]
      exact ⟨h, rfl, le_rfl⟩
    · rw [if_neg hbuf] at hreads
      rw [if_neg hbuf]
      cases happend : img.iappend i buf with
      | error e =>
        rw [happend] at hreads
        cases hreads
      | ok img₁ =>
        rw [happend] at hreads
        obtain ⟨hbuilt, hfreeinode, hcount⟩ := h.iappend hi hi' hbuf happend
        obtain ⟨hbuilt', hfreeinode', hcount'⟩ := ih hbuilt (hfreeinode ▸ hi') hreads
        rw [Function.update_self, List.append_assoc] at hbuilt' hcount'
        rw [Function.update_idem] at hbuilt'
        exact ⟨hbuilt', hfreeinode'.trans hfreeinode, by omega⟩

theorem Built.read_ok (h : Built img bs) (hi : 1 ≤ i) (hi' : i < img.freeinode)
    (reads : List (List UInt8)) (hmax : (bs i ++ readBytes reads).length ≤ maxFile * bSize)
    (hroom : img.freeblock + need (blocks (bs i ++ readBytes reads).length) ≤
      fsSize + need (blocks (bs i).length)) : ∃ img', appendReads img i reads = .ok img' := by
  induction reads generalizing img bs with
  | nil => exact ⟨img, rfl⟩
  | cons buf rest ih =>
    rw [appendReads]
    by_cases hbuf : buf.length = 0
    · exact ⟨img, if_pos hbuf⟩
    · rw [readBytes, if_neg hbuf, ← List.append_assoc] at hmax hroom
      have hle : (bs i ++ buf).length ≤ (bs i ++ buf ++ readBytes rest).length := by
        simp only [List.length_append]
        omega
      have hneed := need_mono hle
      obtain ⟨img₁, happend⟩ := h.iappend_ok hi hi' (hle.trans hmax) (by omega)
      obtain ⟨hbuilt, hfreeinode, hcount⟩ := h.iappend hi hi' hbuf happend
      obtain ⟨img', hrest⟩ := ih hbuilt (hfreeinode ▸ hi') (by rwa [Function.update_self])
        (by rw [Function.update_self]; omega)
      exact ⟨img', by rw [if_neg hbuf, happend]; exact hrest⟩

/-- The bytes of the inodes when the files `fs` have been added to those of `bs`, from inode `n`
on. -/
def after (n : ℕ) (bs : ℕ → List UInt8) : List Input → ℕ → List UInt8
  | [] => bs
  | f :: fs => after (n + 1)
      (Function.update (Function.update bs rootIno (bs rootIno ++ direntBytes n f.name)) n f.bytes)
      fs

/-- A file goes to the next inode and gets an entry in the root directory. -/
theorem Built.addFile (h : Built img bs) (hroot : rootIno < img.freeinode)
    (hlt : img.freeinode < nInodes) (hfile : addFile img f = .ok img') :
    Built img' (Function.update (Function.update bs rootIno
      (bs rootIno ++ direntBytes img.freeinode f.name)) img.freeinode f.bytes) ∧
      img'.freeinode = img.freeinode + 1 ∧
      img'.freeblock + need (blocks (bs rootIno).length) ≤ img.freeblock +
        need (blocks ((bs rootIno).length + direntSize)) + need (blocks f.bytes.length) := by
  rw [Mkfs.addFile] at hfile
  split at hfile
  · cases hfile
  · split at hfile
    · cases hfile
    · rename_i reads hreads
      have hne : rootIno ≠ img.freeinode := hroot.ne
      obtain ⟨img₁, halloc, hbuilt₁, hfreeinode₁, hfreeblock₁⟩ :=
        h.ialloc hlt (show typeFile = if img.freeinode = rootIno then tDir else typeFile from
          (if_neg hne.symm).symm)
      rw [halloc] at hfile
      change (img₁.iappend _ _ >>= fun img₂ => appendReads img₂ img.freeinode reads) = _ at hfile
      obtain ⟨img₂, happend, hread⟩ := exists_of_bind_eq_ok hfile
      obtain ⟨hbuilt₂, hfreeinode₂, hcount₂⟩ :=
        hbuilt₁.iappend (show 1 ≤ rootIno from le_rfl) (by omega)
        (by rw [length_direntBytes]; decide) happend
      obtain ⟨hbuilt₃, hfreeinode₃, hcount₃⟩ := hbuilt₂.read h.pos (by omega) hread
      rw [Function.update_of_ne hne, List.length_append, length_direntBytes] at hcount₂
      rw [Function.update_of_ne hne.symm, Function.update_self, List.nil_append] at hbuilt₃ hcount₃
      rw [Function.update_of_ne hne, Function.update_comm hne.symm,
        Function.update_idem] at hbuilt₃
      have hbytes : f.bytes = readBytes reads := by rw [Input.bytes, hreads]; rfl
      have hzero : need (blocks ([] : List UInt8).length) = 0 := rfl
      rw [hbytes]
      exact ⟨hbuilt₃, by omega, by omega⟩

/-- It is added if it is readable, its name has no `/`, it is not too long and there are blocks. -/
theorem Built.addFile_ok (h : Built img bs) (hroot : rootIno < img.freeinode)
    (hlt : img.freeinode < nInodes) (hslash : 47 ∉ f.argv) (hopen : f.reads ≠ none)
    (hmax : (bs rootIno).length + direntSize ≤ maxFile * bSize)
    (hmax' : f.bytes.length ≤ maxFile * bSize)
    (hroom : img.freeblock + need (blocks ((bs rootIno).length + direntSize)) +
      need (blocks f.bytes.length) ≤ fsSize + need (blocks (bs rootIno).length)) :
    ∃ img', Mkfs.addFile img f = .ok img' := by
  obtain ⟨reads, hreads⟩ := Option.ne_none_iff_exists'.mp hopen
  have hbytes : f.bytes = readBytes reads := by rw [Input.bytes, hreads]; rfl
  have hne : rootIno ≠ img.freeinode := hroot.ne
  obtain ⟨img₁, halloc, hbuilt₁, hfreeinode₁, hfreeblock₁⟩ :=
    h.ialloc hlt (show typeFile = if img.freeinode = rootIno then tDir else typeFile from
      (if_neg hne.symm).symm)
  obtain ⟨img₂, happend⟩ := hbuilt₁.iappend_ok (i := rootIno)
    (p := direntBytes img.freeinode f.name) le_rfl (by omega)
    (by rwa [Function.update_of_ne hne, List.length_append, length_direntBytes])
    (by rw [Function.update_of_ne hne, List.length_append, length_direntBytes]; omega)
  obtain ⟨hbuilt₂, hfreeinode₂, hcount₂⟩ :=
    hbuilt₁.iappend (show 1 ≤ rootIno from le_rfl) (by omega)
    (by rw [length_direntBytes]; decide) happend
  rw [Function.update_of_ne hne, List.length_append, length_direntBytes] at hcount₂
  have hnil : Function.update (Function.update bs img.freeinode []) rootIno
      (Function.update bs img.freeinode [] rootIno ++ direntBytes img.freeinode f.name)
      img.freeinode = [] := by
    rw [Function.update_of_ne hne.symm, Function.update_self]
  obtain ⟨img', hread⟩ := hbuilt₂.read_ok h.pos (by omega) reads
    (by rwa [hnil, List.nil_append, ← hbytes])
    (by
      rw [hnil, List.nil_append, ← hbytes]
      omega)
  refine ⟨img', ?_⟩
  rw [Mkfs.addFile, if_neg hslash, hreads]
  rw [halloc]
  dsimp only [bind, Except.bind]
  rw [happend]
  exact hread

/-- The blocks that files take. -/
def cost (fs : List Input) : ℕ := (fs.map fun f => need (blocks f.bytes.length)).sum

/-- The root directory has an entry for each inode, and one more for itself. -/
def RootEntries (img : Image) (bs : ℕ → List UInt8) : Prop :=
  rootIno < img.freeinode ∧ (bs rootIno).length = direntSize * img.freeinode

theorem RootEntries.addFile (h : RootEntries img bs)
    (hfreeinode : img'.freeinode = img.freeinode + 1) :
    RootEntries img' (Function.update (Function.update bs rootIno
      (bs rootIno ++ direntBytes img.freeinode f.name)) img.freeinode f.bytes) := by
  obtain ⟨hroot, hlen⟩ := h
  refine ⟨by omega, ?_⟩
  rw [Function.update_of_ne hroot.ne, Function.update_self, List.length_append, hlen,
    length_direntBytes, hfreeinode, Nat.mul_succ]

theorem Built.addFiles (h : Built img bs) (hroot : RootEntries img bs)
    (hlt : img.freeinode + fs.length ≤ nInodes) (hfiles : addFiles img fs = .ok img') :
    Built img' (after img.freeinode bs fs) ∧ RootEntries img' (after img.freeinode bs fs) ∧
      img'.freeinode = img.freeinode + fs.length := by
  induction fs generalizing img bs with
  | nil =>
    obtain rfl := Except.ok.inj hfiles
    exact ⟨h, hroot, rfl⟩
  | cons f fs ih =>
    rw [List.length_cons] at hlt ⊢
    obtain ⟨img₁, hfile, hrest⟩ := exists_of_bind_eq_ok hfiles
    obtain ⟨hbuilt, hfreeinode, -⟩ := h.addFile hroot.1 (by omega) hfile
    obtain ⟨hbuilt', hroot', hfreeinode'⟩ :=
      ih hbuilt (hroot.addFile hfreeinode) (by omega) hrest
    rw [hfreeinode] at hbuilt' hroot'
    exact ⟨hbuilt', hroot', by omega⟩

theorem length_root_le (h : Built img bs) : direntSize * (img.freeinode + 1) ≤ maxFile * bSize := by
  have hle : img.freeinode ≤ 200 := h.inodes
  calc direntSize * (img.freeinode + 1) ≤ direntSize * 201 := Nat.mul_le_mul_left _ (by omega)
    _ ≤ maxFile * bSize := by decide

theorem Built.addFiles_ok (h : Built img bs) (hroot : RootEntries img bs)
    (hlt : img.freeinode + fs.length ≤ nInodes)
    (hfs : ∀ f ∈ fs, 47 ∉ f.argv ∧ f.reads ≠ none ∧ f.bytes.length ≤ maxFile * bSize)
    (hroom : img.freeblock + need (blocks (direntSize * (img.freeinode + fs.length))) + cost fs ≤
      fsSize + need (blocks (direntSize * img.freeinode))) :
    ∃ img', Mkfs.addFiles img fs = .ok img' := by
  induction fs generalizing img bs with
  | nil => exact ⟨img, rfl⟩
  | cons f fs ih =>
    rw [List.length_cons] at hlt hroom
    rw [cost, List.map_cons, List.sum_cons, ← cost] at hroom
    obtain ⟨hslash, hopen, hmax⟩ := hfs f List.mem_cons_self
    have hentry : (bs rootIno).length + direntSize = direntSize * (img.freeinode + 1) := by
      rw [hroot.2, Nat.mul_succ]
    have hmono : need (blocks (direntSize * (img.freeinode + 1))) ≤
        need (blocks (direntSize * (img.freeinode + (fs.length + 1)))) :=
      need_mono (Nat.mul_le_mul_left _ (by omega))
    obtain ⟨img₁, hfile⟩ := h.addFile_ok hroot.1 (by omega) hslash hopen
      (by rw [hentry]; exact length_root_le h) hmax (by rw [hentry, hroot.2]; omega)
    obtain ⟨hbuilt, hfreeinode, hcount⟩ := h.addFile hroot.1 (by omega) hfile
    rw [hentry, hroot.2] at hcount
    obtain ⟨img', hrest⟩ := ih hbuilt (hroot.addFile hfreeinode) (by omega)
      (fun g hg => hfs g (List.mem_cons_of_mem f hg))
      (by
        have hcomm : img.freeinode + 1 + fs.length = img.freeinode + (fs.length + 1) := by omega
        rw [hfreeinode, hcomm]
        omega)
    refine ⟨img', ?_⟩
    rw [Mkfs.addFiles, hfile]
    exact hrest

/-! ## The start -/

theorem foldl_wsect_zero (n : ℕ) :
    (List.range n).foldl (fun img i => img.wsect i zeroBlock) created =
    { created with length := n } := by
  induction n with
  | zero => rfl
  | succ n ih =>
    rw [List.range_succ, List.foldl_concat, ih, Image.wsect]
    simp [created]

theorem start_eq : start = { created with
    length := fsSize, disk := Function.update (fun _ => zeroBlock) 1 sbBlock } := by
  rw [start, foldl_wsect_zero]
  rfl

/-- An inode of zeros. -/
theorem dinode_zero {d : Disk} {i : ℕ} (h : d (sb.iblock i) = zeroBlock) :
    sb.dinode d i = Fs.freshDinode 0 := by
  simp only [Superblock.dinode, h, Block.dinode, Dinode.ofWords, zeroBlock_getWord]
  rfl

theorem built_start : Built start fun _ => [] := by
  have hdinode (i : ℕ) (hi : i < nInodes) : sb.dinode start.virt i = Fs.freshDinode 0 := by
    have hlt := iblock_lt hi
    have hge : sb.inodestart ≤ sb.iblock i := Nat.le_add_left _ _
    have hne : sb.iblock i ≠ 1 := fun h => absurd (h ▸ hge) (by decide)
    refine dinode_zero ?_
    rw [Image.virt_of_ne hlt.ne, start_eq]
    exact Function.update_of_ne hne sbBlock fun _ => zeroBlock
  have hready : start.Ready := by
    rw [start_eq]
    refine ⟨rfl, le_rfl, by decide, fun b hb => ?_⟩
    have hb' : nMeta ≤ b := hb
    have hmeta : 1 < nMeta := by decide
    exact Function.update_of_ne (show b ≠ 1 by omega) sbBlock fun _ => zeroBlock
  have hfreeinode : start.freeinode = 1 := by rw [start_eq]; rfl
  have hfreeblock : start.freeblock = nMeta := by rw [start_eq]; rfl
  constructor
  case ready => exact hready
  case wellFormed =>
    refine wellFormed_of_free (fun i hi => by rw [hdinode i hi]; rfl) fun b hb => ?_
    rw [Image.bit_virt (hb.trans (by decide)), hfreeblock]
    rfl
  case pos => exact hfreeinode.ge
  case inodes =>
    rw [hfreeinode]
    decide
  case free => exact fun i hi _ => hdinode i hi
  case writes =>
    rw [start_eq]
    exact nofun
  case file => exact fun j hj hj' => absurd hj' (by omega)

/-- The bytes of the inodes behind `makeRoot`. -/
def rootBytes : ℕ → List UInt8 :=
  Function.update (fun _ => []) rootIno (direntBytes rootIno [46] ++ direntBytes rootIno [46, 46])

theorem length_rootBytes : (rootBytes rootIno).length = direntSize * 2 := by
  rw [rootBytes, Function.update_self, List.length_append, length_direntBytes, length_direntBytes,
    Nat.mul_two]

theorem makeRoot_spec : ∃ img, makeRoot = .ok img ∧ Built img rootBytes ∧ img.freeinode = 2 ∧
    img.freeblock ≤ nMeta + 1 := by
  have hfreeinode : start.freeinode = 1 := by rw [start_eq]; rfl
  have hfreeblock : start.freeblock = nMeta := by rw [start_eq]; rfl
  have hlength : ∀ name, (direntBytes rootIno name).length ≠ 0 := fun name => by
    rw [length_direntBytes]
    decide
  obtain ⟨img₀, halloc, hbuilt₀, hfreeinode₀, hfreeblock₀⟩ := built_start.ialloc
    (by rw [hfreeinode]; decide)
    (show tDir = if start.freeinode = rootIno then tDir else typeFile from
      (if_pos hfreeinode).symm)
  rw [hfreeinode, Function.update_eq_self] at hbuilt₀
  -- the entry `"."`
  obtain ⟨img₁, happend₁⟩ := hbuilt₀.iappend_ok (i := rootIno) (p := direntBytes rootIno [46])
    le_rfl (by rw [hfreeinode₀, hfreeinode]; decide)
    (by rw [List.nil_append, length_direntBytes]; decide)
    (by
      rw [List.nil_append, length_direntBytes, hfreeblock₀, hfreeblock]
      decide)
  obtain ⟨hbuilt₁, hfreeinode₁, hcount₁⟩ := hbuilt₀.iappend (show 1 ≤ rootIno from le_rfl)
    (by rw [hfreeinode₀, hfreeinode]; decide) (hlength _) happend₁
  rw [List.nil_append] at hbuilt₁ hcount₁
  rw [length_direntBytes, hfreeblock₀, hfreeblock] at hcount₁
  -- the entry `".."`
  obtain ⟨img₂, happend₂⟩ := hbuilt₁.iappend_ok (i := rootIno) (p := direntBytes rootIno [46, 46])
    le_rfl (by rw [hfreeinode₁, hfreeinode₀, hfreeinode]; decide)
    (by
      decide)
    (by
      have hone : img₁.freeblock ≤ nMeta + 1 := hcount₁
      exact (Nat.add_le_add_right hone _).trans (by decide))
  obtain ⟨hbuilt₂, hfreeinode₂, hcount₂⟩ := hbuilt₁.iappend (show 1 ≤ rootIno from le_rfl)
    (by rw [hfreeinode₁, hfreeinode₀, hfreeinode]; decide) (hlength _) happend₂
  rw [Function.update_self, Function.update_idem] at hbuilt₂
  rw [Function.update_self, List.length_append, length_direntBytes, length_direntBytes] at hcount₂
  refine ⟨img₂, ?_, hbuilt₂, by rw [hfreeinode₂, hfreeinode₁, hfreeinode₀, hfreeinode], ?_⟩
  · rw [makeRoot, halloc]
    dsimp only [bind, Except.bind]
    rw [hfreeinode, if_neg (by decide)]
    rw [show (1 : ℕ) = rootIno from rfl, happend₁]
    exact happend₂
  · have hone : img₁.freeblock ≤ nMeta + 1 := hcount₁
    have hsame : need (blocks (direntSize + direntSize)) = need (blocks direntSize) := by decide
    omega

/-! ## The end -/

/-- The size that `main` gives the root directory. -/
def rounded (size : ℕ) : ℕ := (size / bSize + 1) * bSize

/-- The root inode of a finished image. -/
def finalRoot (img : Image) : Dinode :=
  { sb.dinode img.virt rootIno with
    size := UInt32.ofNat (rounded (sb.dinode img.virt rootIno).size.toNat) }

theorem Built.finish (h : Built img bs) :
    ∃ img', finish img = .ok img' ∧ img'.disk = sb.putDinode img.virt rootIno (finalRoot img) ∧
      img'.freeinode = img.freeinode ∧
      ∀ b ∈ img'.writes, sb.inodestart ≤ b ∧ b < sb.bmapstart := by
  have hlt : rootIno < nInodes := by decide
  obtain ⟨img₁, hwinode, hvirt, hready, hfreeblock, hfreeinode, hwrites⟩ :=
    h.ready.winode hlt (finalRoot img)
  have hused : img₁.freeblock < bSize * 8 := hready.hi.trans_lt (by decide)
  refine ⟨img₁.wsect sb.bmapstart (Image.mapBlock img₁.freeblock), ?_, hvirt, hfreeinode, ?_⟩
  · rw [Mkfs.finish, h.ready.rinode hlt]
    dsimp only [bind, Except.bind]
    rw [← rounded, ← finalRoot, hwinode]
    dsimp only
    rw [Image.balloc, if_pos hused]
    rfl
  · intro b hb
    have hb' : b ∈ img₁.writes := hb
    rw [hwrites] at hb'
    exact h.writes_append hlt b hb'

/-! ## The counter of inodes -/

/-- Each file takes one inode, whether there is one or not. -/
theorem freeinode_addFiles (img : Image) (fs : List Input) :
    Meets (addFiles img fs) (fun _ => True)
      fun img' => img'.freeinode = img.freeinode + fs.length := by
  induction fs generalizing img with
  | nil => exact Meets.pure rfl
  | cons f fs ih =>
    have hfile : Meets (addFile img f) (fun _ => True)
        fun img' => img'.freeinode = img.freeinode + 1 := by
      rw [addFile]
      split
      · exact Meets.throw trivial
      · split
        · exact Meets.throw trivial
        · rename_i reads _
          have halloc : Meets (img.ialloc typeFile) (fun _ => True)
              fun r => r.1.freeinode = img.freeinode + 1 :=
            (Image.keeps_winode _ _ _).bind fun img₁ h₁ => Meets.pure h₁
          refine halloc.bind fun r hr => ?_
          refine (Image.keeps_iappend r.1 rootIno _).bind fun img₁ h₁ => ?_
          exact (Image.keeps_appendReads img₁ r.2 reads).mono
            fun img₂ h₂ => h₂.trans (h₁.trans hr)
    refine hfile.bind fun img₁ h₁ => (ih img₁).mono fun img₂ h₂ => ?_
    rw [List.length_cons]
    omega

/-- The parts of a run of `main` to its end. -/
theorem mkfs_parts (h : mkfs files = .ok img) : ∃ img₀ img₁,
    Built img₀ rootBytes ∧ img₀.freeinode = 2 ∧ addFiles img₀ files = .ok img₁ ∧
      finish img₁ = .ok img := by
  obtain ⟨img₀, hroot, hbuilt, hfreeinode, -⟩ := makeRoot_spec
  rw [mkfs, hroot] at h
  change (addFiles img₀ files >>= finish) = _ at h
  obtain ⟨img₁, hfiles, hfinish⟩ := exists_of_bind_eq_ok h
  exact ⟨img₀, img₁, hbuilt, hfreeinode, hfiles, hfinish⟩

theorem freeinode_mkfs (h : mkfs files = .ok img) : img.freeinode = files.length + 2 := by
  obtain ⟨img₀, img₁, -, hfreeinode, hfiles, hfinish⟩ := mkfs_parts h
  have hkeeps : Image.Keeps img₁ id (finish img₁) := by
    refine (Meets.trivial (img₁.rinode rootIno)).bind fun din _ => ?_
    refine (Image.keeps_winode img₁ rootIno _).bind fun img₂ h₂ => ?_
    rw [Image.balloc]
    split
    · exact Meets.pure h₂
    · exact Meets.throw trivial
  have hkeep : img.freeinode = img₁.freeinode := hkeeps.of_ok hfinish
  have hcount := (freeinode_addFiles img₀ files).of_ok hfiles
  omega

/-! ## Consistent images -/

/-- The bytes of the inodes of the image for `files`. -/
def allBytes (files : List Input) : ℕ → List UInt8 := after 2 rootBytes files

/-- What is known of the image when there are enough inodes. -/
theorem mkfs_built (hlen : files.length ≤ nInodes - 2) (h : mkfs files = .ok img) :
    ∃ img₁, Built img₁ (allBytes files) ∧
      RootEntries img₁ (allBytes files) ∧ img₁.freeinode = files.length + 2 ∧
      img.disk = sb.putDinode img₁.virt rootIno (finalRoot img₁) ∧
      ∀ b ∈ img.writes, sb.inodestart ≤ b ∧ b < sb.bmapstart := by
  have htwo : 2 < nInodes := by decide
  obtain ⟨img₀, img₁, hbuilt, hfreeinode, hfiles, hfinish⟩ := mkfs_parts h
  have hroot : RootEntries img₀ rootBytes := ⟨by rw [hfreeinode]; decide, by
    rw [hfreeinode]
    exact length_rootBytes⟩
  obtain ⟨hbuilt', hroot', hfreeinode'⟩ := hbuilt.addFiles hroot (by omega) hfiles
  rw [hfreeinode] at hbuilt' hroot'
  obtain ⟨img', hfinish', hdisk, -, hwrites⟩ := hbuilt'.finish
  obtain rfl := Except.ok.inj (hfinish.symm.trans hfinish')
  exact ⟨img₁, hbuilt', hroot', by omega, hdisk, hwrites⟩

/-- What files need, with the directory and the metadata. -/
def total (files : List Input) : ℕ :=
  nMeta + need (blocks (direntSize * (files.length + 2))) + cost files

/-- **mkfs runs to its end** if the files can be read, have names without `/`, are not too long, and
there are inodes and blocks for them. -/
theorem mkfs_ok (hlen : files.length ≤ nInodes - 2)
    (hfs : ∀ f ∈ files, 47 ∉ f.argv ∧ f.reads ≠ none ∧ f.bytes.length ≤ maxFile * bSize)
    (htotal : total files ≤ fsSize) : ∃ img, mkfs files = .ok img := by
  have htwo : 2 < nInodes := by decide
  obtain ⟨img₀, hmake, hbuilt, hfreeinode, hfreeblock⟩ := makeRoot_spec
  have hroot : RootEntries img₀ rootBytes := ⟨by rw [hfreeinode]; decide, by
    rw [hfreeinode]
    exact length_rootBytes⟩
  obtain ⟨img₁, hfiles⟩ := hbuilt.addFiles_ok hroot (by omega) hfs (by
    have hone : need (blocks (direntSize * 2)) = 1 := by decide
    rw [total] at htotal
    rw [hfreeinode, Nat.add_comm 2, hone]
    omega)
  obtain ⟨hbuilt', -, -⟩ := hbuilt.addFiles hroot (by omega) hfiles
  obtain ⟨img, hfinish, -⟩ := hbuilt'.finish
  refine ⟨img, ?_⟩
  rw [mkfs, hmake]
  dsimp only [bind, Except.bind]
  rw [hfiles]
  exact hfinish

/-- What the kernel relies on. -/
structure Consistent (img : Image) : Prop where
  /-- a block number in an inode or an indirect block is one of a data block -/
  range : ∀ i < nInodes, ∀ k, (sb.dinode img.disk i).ptr img.disk k ≠ 0 →
    nMeta ≤ ((sb.dinode img.disk i).ptr img.disk k).toNat ∧
      ((sb.dinode img.disk i).ptr img.disk k).toNat < fsSize
  /-- and occurs once -/
  once : ∀ i < nInodes, ∀ j < nInodes, ∀ k l, (sb.dinode img.disk i).ptr img.disk k ≠ 0 →
    (sb.dinode img.disk i).ptr img.disk k = (sb.dinode img.disk j).ptr img.disk l → i = j ∧ k = l
  /-- the map marks the metadata and those blocks -/
  bitmap : ∀ b < bpb, sb.bit img.disk b = true ↔ b < nMeta ∨ ∃ i < nInodes, ∃ k,
    (sb.dinode img.disk i).ptr img.disk k ≠ 0 ∧ ((sb.dinode img.disk i).ptr img.disk k).toNat = b
  /-- an allocated inode is one of the table -/
  inodes : ∀ i, 1 ≤ i → i < img.freeinode → i < nInodes
  /-- and inodes were written into the blocks of the table -/
  writes : ∀ b ∈ img.writes, sb.inodestart ≤ b ∧ b < sb.bmapstart
  /-- there is a block for each part of a file -/
  slots : ∀ i, 1 ≤ i → i < img.freeinode → ∀ n < blocks (sb.dinode img.disk i).size.toNat,
    (sb.dinode img.disk i).ptr img.disk (place n) ≠ 0

section Final

variable {d : Disk} (h : Built img bs) (hroot : rootIno < img.freeinode)
  (hd : d = sb.putDinode img.virt rootIno (finalRoot img))

theorem empty_freshDinode (type : UInt16) : (Fs.freshDinode type).Empty :=
  ⟨fun k hk => by simp [Dinode.addr, Fs.freshDinode], rfl⟩

include hd in
theorem dinode_final (i : ℕ) :
    sb.dinode d i = if i = rootIno then finalRoot img else sb.dinode img.virt i := by
  rw [hd, Superblock.dinode_putDinode]

include hd in
theorem bit_final {b : ℕ} (hb : b < bpb) : sb.bit d b = decide (b < img.freeblock) := by
  rw [hd, layout.bit_putDinode (by decide), Image.bit_virt hb]

include h in
/-- An inode that holds a block is allocated. -/
theorem type_of_ptr (hi : i < nInodes) {k : ℕ} (hk : (sb.dinode img.virt i).ptr img.virt k ≠ 0) :
    (sb.dinode img.virt i).type ≠ 0 := by
  by_cases halloc : 1 ≤ i ∧ i < img.freeinode
  · exact (h.file i halloc.1 halloc.2).type_ne_zero
  · rw [h.free i hi halloc, (empty_freshDinode 0).ptr] at hk
    exact absurd rfl hk

include h hroot hd

/-- The end of `main` moves no block. -/
theorem ptr_final (hi : i < nInodes) (k : ℕ) :
    (sb.dinode d i).ptr d k = (sb.dinode img.virt i).ptr img.virt k := by
  by_cases halloc : 1 ≤ i ∧ i < img.freeinode
  · rw [hd]
    exact h.wellFormed.held.ptr_putDinode (by rfl) (fun _ _ _ => rfl) layout (by decide) hi
      (h.file i halloc.1 halloc.2).type_ne_zero k
  · have hne : i ≠ rootIno := by
      rintro rfl
      exact halloc ⟨le_rfl, hroot⟩
    rw [dinode_final hd, if_neg hne, h.free i hi halloc, (empty_freshDinode 0).ptr,
      (empty_freshDinode 0).ptr]

/-- A file other than the root directory has a block for each of its parts; the root directory has
as many blocks as its entries take. -/
theorem slots_final (hi : 1 ≤ i) (hi' : i < img.freeinode) (hn : n < maxFile) :
    (sb.dinode d i).ptr d (place n) ≠ 0 ↔ n < blocks (bs i).length := by
  rw [ptr_final h hroot hd (hi'.trans_le h.inodes), ← (h.file i hi hi').size]
  exact h.wellFormed.slots i (hi'.trans_le h.inodes) (h.file i hi hi').type_ne_zero n hn

theorem size_final : (sb.dinode d rootIno).size.toNat = rounded (bs rootIno).length := by
  have hfits := (h.file rootIno le_rfl hroot).fits
  have hdiv : (bs rootIno).length / bSize ≤ maxFile :=
    Nat.div_le_of_le_mul (by rwa [Nat.mul_comm])
  have hlt : rounded (bs rootIno).length < 2 ^ 32 :=
    (Nat.mul_le_mul_right bSize (Nat.succ_le_succ hdiv)).trans_lt (by decide)
  rw [dinode_final hd, if_pos rfl, finalRoot, (h.file rootIno le_rfl hroot).size]
  exact (UInt32.toNat_ofNat' ..).trans (Nat.mod_eq_of_lt hlt)

end Final

theorem blocks_rounded (n : ℕ) : blocks (rounded n) = n / bSize + 1 := by
  unfold blocks rounded bSize
  omega

theorem blocks_eq_of_mod_ne (h : n % bSize ≠ 0) : blocks n = n / bSize + 1 := by
  unfold blocks bSize at *
  omega

theorem blocks_eq_of_mod_eq (h : n % bSize = 0) : blocks n = n / bSize := by
  unfold blocks bSize at *
  omega

/-- The entries of the root directory fill its last block. -/
def RootFull (files : List Input) : Prop := (files.length + 2) % (bSize / direntSize) = 0

instance (files : List Input) : Decidable (RootFull files) := inferInstanceAs (Decidable (_ = _))

theorem rootFull_iff : RootFull files ↔ direntSize * (files.length + 2) % bSize = 0 := by
  unfold RootFull direntSize bSize
  omega

/-- With enough inodes, everything holds but for the last block of the root directory. -/
theorem consistent_iff_of_le (hlen : files.length ≤ nInodes - 2) (h : mkfs files = .ok img) :
    Consistent img ↔ ¬ RootFull files := by
  obtain ⟨img₁, hbuilt, ⟨hroot, hentries⟩, hfreeinode, hdisk, hwrites⟩ := mkfs_built hlen h
  have hfreeinode' := freeinode_mkfs h
  have hptr (i : ℕ) (hi : i < nInodes) (k : ℕ) := ptr_final hbuilt hroot hdisk hi k
  have hheld := hbuilt.wellFormed.held
  have hfits := (hbuilt.file rootIno le_rfl hroot).fits
  rw [hfreeinode] at hentries
  rw [rootFull_iff, ← hentries]
  have hlast : (allBytes files rootIno).length / bSize < maxFile ∨
      (allBytes files rootIno).length / bSize = maxFile := by
    have : (allBytes files rootIno).length / bSize ≤ maxFile :=
      Nat.div_le_of_le_mul (by rwa [Nat.mul_comm])
    omega
  have hroot' : rootIno < img.freeinode := by omega
  have hsize := size_final hbuilt hroot hdisk
  constructor
  · -- the block behind the last full one is missing
    intro hc hfull
    have hslot := hc.slots rootIno le_rfl hroot' ((allBytes files rootIno).length / bSize)
      (by rw [hsize, blocks_rounded]; exact Nat.lt_succ_self _)
    rcases hlast with hlt | heq
    · rw [slots_final (i := rootIno) hbuilt hroot hdisk le_rfl hroot hlt,
        blocks_eq_of_mod_eq hfull] at hslot
      exact Nat.lt_irrefl _ hslot
    · rw [heq] at hslot
      exact hslot (Dinode.ptr_eq_zero_of_large (by decide))
  · intro hpart
    have hallblocks (i : ℕ) (hi : 1 ≤ i) (hi' : i < img₁.freeinode) :
        blocks (allBytes files i).length ≤ maxFile :=
      blocks_le_iff.mpr (by rw [Nat.mul_comm]; exact (hbuilt.file i hi hi').fits)
    constructor
    case range =>
      intro i hi k hk
      rw [hptr i hi] at hk ⊢
      exact hheld.isData_ptr hi (type_of_ptr hbuilt hi hk) hk
    case once =>
      intro i hi j hj k l hk heq
      rw [hptr i hi] at hk heq
      rw [hptr j hj] at heq
      have hl := heq ▸ hk
      have howni := Held.own_ptr (show i < sb.ninodes from hi) (type_of_ptr hbuilt hi hk) hk
      have hownj := Held.own_ptr (show j < sb.ninodes from hj) (type_of_ptr hbuilt hj hl) hl
      rw [← heq] at hownj
      exact Prod.mk.inj (hheld.exact.inj howni hownj)
    case bitmap =>
      intro b hb
      rw [bit_final hdisk hb, decide_eq_true_eq]
      constructor
      · intro hlt
        rcases Nat.lt_or_ge b nMeta with hmeta | hdata
        · exact .inl hmeta
        · have hused := (hheld.exact.used_iff ⟨hdata, hlt.trans_le hbuilt.ready.hi⟩).mp
            (by rw [Image.bit_virt hb, decide_eq_true hlt])
          obtain ⟨⟨i, k⟩, hown⟩ := hused
          obtain ⟨hi, -, hk, hb'⟩ := Superblock.own_eq_some.mp hown
          exact .inr ⟨i, hi, k, by rwa [hptr i hi], by rw [hptr i hi, hb']⟩
      · rintro (hmeta | ⟨i, hi, k, hk, rfl⟩)
        · exact hmeta.trans_le hbuilt.ready.lo
        · rw [hptr i hi] at hk ⊢
          exact (Image.lt_freeblock hheld hi (type_of_ptr hbuilt hi hk) hk).2
    case inodes =>
      intro i hi hi'
      have := hbuilt.inodes
      omega
    case writes => exact hwrites
    case slots =>
      intro i hi hi' n hn
      rw [hfreeinode', ← hfreeinode] at hi'
      have hle := hallblocks i hi hi'
      have hblocks : n < blocks (allBytes files i).length := by
        by_cases heq : i = rootIno
        · subst heq
          rw [hsize, blocks_rounded] at hn
          rwa [blocks_eq_of_mod_ne hpart]
        · rw [dinode_final hdisk, if_neg heq, (hbuilt.file i hi hi').size] at hn
          exact hn
      exact (slots_final hbuilt hroot hdisk hi hi' (hblocks.trans_le hle)).mpr hblocks

/-- **The images that mkfs builds.** When mkfs has run to its end, its image is consistent if and
only if there were at most `NINODES - 2` files and the entries of the root directory do not fill its
last block. -/
theorem mkfs_consistent_iff {files : List Input} (h : mkfs files = .ok img) :
    Consistent img ↔ files.length ≤ nInodes - 2 ∧ ¬ RootFull files := by
  by_cases hlen : files.length ≤ nInodes - 2
  · rw [consistent_iff_of_le hlen h]
    exact (and_iff_right hlen).symm
  · refine iff_of_false (fun hc => ?_) fun hc => hlen hc.1
    have hfreeinode := freeinode_mkfs h
    have htable := hc.inodes nInodes (by decide) (by omega)
    exact Nat.lt_irrefl _ htable

/-- A file of three bytes. -/
def hello : Input where
  argv := [95, 104]
  reads := some [[72, 105, 10]]

theorem mkfs_consistent_iff_hello : ∃ img, mkfs [hello] = .ok img ∧ Consistent img := by
  obtain ⟨img, himg⟩ := mkfs_ok (show [hello].length ≤ nInodes - 2 by decide)
    (by decide) (by decide)
  exact ⟨img, himg, (mkfs_consistent_iff himg).mpr (by decide)⟩

/-- Thirty empty files with names of one letter. -/
def thirty : List Input := (List.range 30).map fun k => ⟨[UInt8.ofNat (97 + k)], some []⟩

/-- With the entries for 30 files the root directory fills one block. Its size says two, and there
is no second one. -/
theorem thirty_not_consistent : ∃ img, mkfs thirty = .ok img ∧ ¬ Consistent img ∧
    (sb.dinode img.disk rootIno).size.toNat = 2 * bSize ∧
      (sb.dinode img.disk rootIno).ptr img.disk (place 1) = 0 := by
  have hlen : thirty.length ≤ nInodes - 2 := by decide
  obtain ⟨img, himg⟩ := mkfs_ok hlen (by decide +kernel) (by decide +kernel)
  have hfull : RootFull thirty := by decide
  obtain ⟨img₁, hbuilt, ⟨hroot, hentries⟩, hfreeinode, hdisk, -⟩ := mkfs_built hlen himg
  refine ⟨img, himg, fun hc => (consistent_iff_of_le hlen himg).mp hc hfull, ?_, ?_⟩
  · rw [size_final hbuilt hroot hdisk, hentries, hfreeinode]
    decide
  · by_contra hptr
    rw [← ne_eq, slots_final (i := rootIno) hbuilt hroot hdisk le_rfl hroot (by decide), hentries,
      hfreeinode] at hptr
    exact absurd hptr (by decide)

end InuOs.Mkfs
