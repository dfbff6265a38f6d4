import InuOs.MkfsImage

/-!
# The kernel reads back what mkfs wrote

mkfs and the kernel are two implementations of one disk format. On the image of `mkfs`, `dirlookup`
in the root directory finds the inode of each file, and `readi` returns its bytes.

* The root directory is a sequence of entries: `"."`, `".."` and one for each file. `dirlookup`
  finds the *first* entry with a name (`dirlookupLoop_find`).
* A file that is called `"."` or `".."` is not found: the entry of the root directory itself comes
  first (`dotFile_not_found`).
-/

namespace InuOs.Mkfs

open Flat

/-! ## Looking for an entry -/

variable {name : List UInt8} {m j n k off : ℕ} {bs : ℕ → List UInt8} {files : List Input}

/-- A directory whose entries are read as `E`: the loop of `dirlookup` finds the first one with the
name, `E[m]`. -/
theorem dirlookupLoop_find {dev : Devsw} {d : Disk} {dp : Dinode} {E : List (ℕ × List UInt8)}
    (hread : ∀ j (hj : j < E.length), readi sb dev d dp (direntSize * j) direntSize =
      .ok (d, dp, (direntSize : ℤ), direntBytes E[j].1 E[j].2))
    (hinum : ∀ e ∈ E, 0 < e.1 ∧ e.1 < 2 ^ 16) (hm : m < E.length)
    (hname : strncpy dirSiz name = strncpy dirSiz E[m].2)
    (hfirst : ∀ j (hj : j < E.length), j < m → strncpy dirSiz name ≠ strncpy dirSiz E[j].2)
    {count : ℕ} (hj : j ≤ m) (hcount : m < j + count) :
    dirlookupLoop sb dev name d dp count (direntSize * j) =
      .ok (d, dp, some (E[m].1, direntSize * m)) := by
  induction count generalizing j with
  | zero => omega
  | succ count ih =>
    have hlt : j < E.length := hj.trans_lt hm
    obtain ⟨hpos, hsmall⟩ := hinum E[j] (List.getElem_mem hlt)
    have hcmp : namecmpEq name (direntName (direntBytes E[j].1 E[j].2)) =
        decide (strncpy dirSiz name = strncpy dirSiz E[j].2) := by
      rw [namecmpEq_eq, nameKey, nameKey]
      exact congrArg (fun t => decide (strncpy dirSiz name = t)) (strncpy_strncpy ..)
    rw [dirlookupLoop, hread j hlt]
    dsimp only [bind, Except.bind]
    rw [if_neg (not_not.mpr rfl), direntInum_direntBytes hsmall, if_neg hpos.ne', hcmp]
    rcases hj.lt_or_eq with hlt' | rfl
    · rw [decide_eq_false (hfirst j hlt hlt'), if_neg Bool.false_ne_true]
      exact ih hlt' (by omega)
    · rw [decide_eq_true hname, if_pos rfl]
      rfl

/-! ## The bytes of the files -/

/-- The entries of the root directory. -/
def entries (files : List Input) : List (ℕ × List UInt8) :=
  (rootIno, [46]) :: (rootIno, [46, 46]) :: (files.zipIdx 2).map fun f => (f.2, f.1.name)

/-- The bytes of an entry. -/
def entryBytes (e : ℕ × List UInt8) : List UInt8 := direntBytes e.1 e.2

theorem length_entryBytes (e : ℕ × List UInt8) : (entryBytes e).length = direntSize :=
  length_direntBytes ..

theorem after_root (files : List Input) (hn : rootIno < n) :
    after n bs files rootIno =
      bs rootIno ++ ((files.zipIdx n).map fun f => (f.2, f.1.name)).flatMap entryBytes := by
  induction files generalizing n bs with
  | nil => rw [after, List.zipIdx_nil, List.map_nil, List.flatMap_nil, List.append_nil]
  | cons f fs ih =>
    rw [after, ih (hn.trans (Nat.lt_succ_self n)), Function.update_of_ne hn.ne,
      Function.update_self, List.zipIdx_cons, List.map_cons, List.flatMap_cons, List.append_assoc]
    rfl

theorem allBytes_root (files : List Input) :
    allBytes files rootIno = (entries files).flatMap entryBytes := by
  rw [allBytes, after_root files (by decide), rootBytes, Function.update_self, entries,
    List.flatMap_cons, List.flatMap_cons, List.append_assoc]
  rfl

theorem after_of_lt (files : List Input) (hj : j < n) (hne : j ≠ rootIno) :
    after n bs files j = bs j := by
  induction files generalizing n bs with
  | nil => rfl
  | cons f fs ih =>
    rw [after, ih (hj.trans (Nat.lt_succ_self n)), Function.update_of_ne hj.ne,
      Function.update_of_ne hne]

theorem after_file (files : List Input) (hn : rootIno < n) (hk : k < files.length) :
    after n bs files (n + k) = files[k].bytes := by
  induction files generalizing n k bs with
  | nil => exact absurd hk (Nat.not_lt_zero k)
  | cons f fs ih =>
    rw [after]
    cases k with
    | zero =>
      have hlt := Nat.lt_succ_self n
      exact (after_of_lt fs hlt hn.ne').trans (Function.update_self ..)
    | succ k =>
      have hnext : n + (k + 1) = n + 1 + k := by omega
      rw [hnext, ih (hn.trans (Nat.lt_succ_self n)) (Nat.lt_of_succ_lt_succ hk)]
      rfl

theorem allBytes_file (hk : k < files.length) : allBytes files (k + 2) = files[k].bytes := by
  rw [Nat.add_comm]
  exact after_file files (by decide) hk

theorem length_entries (files : List Input) : (entries files).length = files.length + 2 := by
  simp [entries]

theorem getElem_entries (hk : k < files.length) (hk' : k + 2 < (entries files).length) :
    (entries files)[k + 2] = (k + 2, files[k].name) := by
  simp [entries, Nat.add_comm]

/-! ## Reading -/

section Reading

variable {img : Image} {bs : ℕ → List UInt8} {d : Disk} {i : ℕ} (h : Built img bs)
  (hroot : rootIno < img.freeinode) (hd : d = sb.putDinode img.virt rootIno (finalRoot img))
  (hi : 1 ≤ i) (hi' : i < img.freeinode)

include h hd hi hi'

theorem content_final : (sb.dinode d i).content d = flat (bs i) := by
  rw [← (h.file i hi hi').content, hd]
  exact h.wellFormed.held.content_putDinode (by rfl) (fun _ _ _ => rfl) layout (by decide)
    (hi'.trans_le h.inodes) (h.file i hi hi').type_ne_zero

theorem type_final : (sb.dinode d i).type = if i = rootIno then tDir else typeFile := by
  rw [← (h.file i hi hi').type, dinode_final hd]
  split
  · next heq => rw [heq]; rfl
  · rfl

include hroot

theorem readiLoop_final (hn : off + n ≤ (bs i).length) :
    readiLoop sb d (sb.dinode d i) off n =
      .ok (d, sb.dinode d i, ((bs i).drop off).take n) := by
  have hmax := (h.file i hi hi').fits
  have hcovers : (sb.dinode d i).Covers d off n := by
    intro bn _ hend
    have hlt : bn < blocks (bs i).length := lt_blocks_iff.mpr (by omega)
    have hlt' : bn < maxFile := hlt.trans_le (blocks_le_iff.mpr (by rwa [Nat.mul_comm]))
    exact (slots_final h hroot hd hi hi' hlt').mpr hlt
  have hbytes : (List.range n).map (fun k => flat (bs i) (off + k)) = ((bs i).drop off).take n := by
    apply List.ext_getElem
    · simp
      omega
    · intro k hk hk'
      have hlt : off + k < (bs i).length := by
        rw [List.length_map, List.length_range] at hk
        omega
      simp [flat, List.getD_eq_getElem?_getD, List.getElem?_eq_getElem hlt]
  rw [readiLoop_total off n (hn.trans hmax) hcovers, content_final h hd hi hi', hbytes]

/-- `readi` below the end of what mkfs wrote. -/
theorem readi_final (dev : Devsw) (hn : off + n ≤ (bs i).length)
    (hsize : (bs i).length ≤ (sb.dinode d i).size.toNat) :
    readi sb dev d (sb.dinode d i) off n =
      .ok (d, sb.dinode d i, (n : ℤ), ((bs i).drop off).take n) := by
  have hmax : (bs i).length < 2 ^ 32 := ((h.file i hi hi').fits).trans_lt (by decide)
  have hdev : (sb.dinode d i).type ≠ tDev := by
    rw [type_final h hd hi hi']
    split <;> decide
  rw [readi, if_neg hdev, if_neg (by omega), if_neg (by omega)]
  dsimp only
  rw [readiLoop_final h hroot hd hi hi' hn]
  rfl

/-- `readi` on an inode whose size is the number of bytes that mkfs wrote. -/
theorem readi_file (dev : Devsw) (off n : ℕ)
    (hsize : (sb.dinode d i).size.toNat = (bs i).length) :
    readi sb dev d (sb.dinode d i) off n = .ok (d, sb.dinode d i,
      if (bs i).length < off ∨ 2 ^ 32 ≤ off + n then (-1, [])
      else (((min n ((bs i).length - off) : ℕ) : ℤ), ((bs i).drop off).take n)) := by
  have hdev : (sb.dinode d i).type ≠ tDev := by
    rw [type_final h hd hi hi']
    split <;> decide
  rw [readi, if_neg hdev, hsize]
  split
  · rfl
  · next hok =>
    have hn : (if (bs i).length < off + n then (bs i).length - off else n) =
        min n ((bs i).length - off) := by
      split <;> omega
    have htake : ((bs i).drop off).take (min n ((bs i).length - off)) =
        ((bs i).drop off).take n := by
      rw [← List.length_drop, ← List.take_eq_take_min]
    dsimp only
    rw [hn, readiLoop_final h hroot hd hi hi' (by omega), htake]
    rfl

end Reading

/-! ## What the kernel finds -/

/-- The name of a file in the directory. -/
def Input.stored (f : Input) : List UInt8 := strncpy dirSiz f.name

section Lookup

variable {img : Image} {files : List Input} (hlen : files.length ≤ nInodes - 2)
  (hmkfs : mkfs files = .ok img) (dev : Devsw)

include hlen hmkfs

/-- `dirlookup` in the root directory finds the first entry with the name. -/
theorem dirlookup_find (hm : m < (entries files).length)
    (hname : strncpy dirSiz name = strncpy dirSiz (entries files)[m].2)
    (hfirst : ∀ j (hj : j < (entries files).length), j < m →
      strncpy dirSiz name ≠ strncpy dirSiz (entries files)[j].2) :
    dirlookup sb dev img.disk (sb.dinode img.disk rootIno) name =
      .ok (img.disk, sb.dinode img.disk rootIno, some ((entries files)[m].1, direntSize * m)) := by
  obtain ⟨img₁, hbuilt, ⟨hroot, hentries⟩, hfreeinode, hdisk, -⟩ := mkfs_built hlen hmkfs
  have hlength := length_entries files
  have hsize := size_final hbuilt hroot hdisk
  have hround : (allBytes files rootIno).length < rounded (allBytes files rootIno).length := by
    unfold rounded bSize
    omega
  have hread : ∀ j (hj : j < (entries files).length),
      readi sb dev img.disk (sb.dinode img.disk rootIno) (direntSize * j) direntSize =
        .ok (img.disk, sb.dinode img.disk rootIno, (direntSize : ℤ),
          direntBytes (entries files)[j].1 (entries files)[j].2) := by
    intro j hj
    have hend : direntSize * j + direntSize ≤ (allBytes files rootIno).length := by
      rw [hentries, hfreeinode, ← Nat.mul_succ]
      exact Nat.mul_le_mul_left _ (by omega)
    rw [readi_final (i := rootIno) hbuilt hroot hdisk le_rfl hroot dev hend (by omega),
      allBytes_root, take_drop_flatMap length_entryBytes _ hj, entryBytes]
  have hinum : ∀ e ∈ entries files, 0 < e.1 ∧ e.1 < 2 ^ 16 := by
    have hfew : files.length ≤ 198 := hlen
    intro e he
    simp only [entries, List.mem_cons, List.mem_map] at he
    rcases he with rfl | rfl | ⟨⟨f, k⟩, hk, rfl⟩
    · decide
    · decide
    · obtain ⟨hge, hlt, -⟩ := List.mem_zipIdx hk
      omega
  have hdir : (sb.dinode img.disk rootIno).type = tDir := by
    rw [type_final (i := rootIno) hbuilt hdisk le_rfl hroot, if_pos rfl]
  rw [dirlookup, if_neg (not_not.mpr hdir)]
  have hcount : m < 0 + direntCount (sb.dinode img.disk rootIno) := by
    rw [direntCount, hsize, Nat.zero_add]
    unfold direntSize at *
    omega
  exact dirlookupLoop_find hread hinum hm hname hfirst (Nat.zero_le m) hcount

end Lookup

/-- **The kernel reads back what mkfs wrote.** For files with different names, none of them `"."` or
`".."`, that fit: mkfs runs to its end, and on its image `dirlookup` in the root directory finds the
inode of each file, and `readi` on that inode returns its bytes. -/
theorem mkfs_read_back {files : List Input} (hlen : files.length ≤ nInodes - 2)
    (hfs : ∀ f ∈ files, 47 ∉ f.argv ∧ f.reads ≠ none ∧ f.bytes.length ≤ maxFile * bSize)
    (htotal : total files ≤ fsSize) (hnames : (files.map Input.stored).Nodup)
    (hdots : ∀ f ∈ files, f.stored ≠ strncpy dirSiz [46] ∧ f.stored ≠ strncpy dirSiz [46, 46])
    (dev : Devsw) :
    ∃ img, mkfs files = .ok img ∧ ∀ k (hk : k < files.length),
      (∀ name, strncpy dirSiz name = files[k].stored →
        dirlookup sb dev img.disk (sb.dinode img.disk rootIno) name = .ok (img.disk,
          sb.dinode img.disk rootIno, some (k + 2, direntSize * (k + 2)))) ∧
      (sb.dinode img.disk (k + 2)).size.toNat = files[k].bytes.length ∧
      ∀ off n, readi sb dev img.disk (sb.dinode img.disk (k + 2)) off n = .ok (img.disk,
        sb.dinode img.disk (k + 2),
        if files[k].bytes.length < off ∨ 2 ^ 32 ≤ off + n then (-1, [])
        else (((min n (files[k].bytes.length - off) : ℕ) : ℤ),
          (files[k].bytes.drop off).take n)) := by
  obtain ⟨img, hmkfs⟩ := mkfs_ok hlen hfs htotal
  refine ⟨img, hmkfs, fun k hk => ?_⟩
  have hlength := length_entries files
  have hk' : k + 2 < (entries files).length := by omega
  constructor
  · intro name hname
    have hentry := getElem_entries hk hk'
    have hfound := dirlookup_find hlen hmkfs dev hk' (hname.trans (by rw [hentry]; rfl)) ?_
    · rw [hfound, hentry]
    · intro j hj hlt
      rw [hname]
      match j, hj, hlt with
      | 0, _, _ => exact (hdots _ (List.getElem_mem hk)).1
      | 1, _, _ => exact (hdots _ (List.getElem_mem hk)).2
      | j + 2, hj, hlt =>
        have hjk : j < k := by omega
        rw [getElem_entries (hjk.trans hk) hj]
        intro heq
        have hdistinct := List.nodup_iff_getElem?_ne_getElem?.mp hnames j k hjk (by simpa using hk)
        refine hdistinct ?_
        rw [List.getElem?_map, List.getElem?_map, List.getElem?_eq_getElem hk,
          List.getElem?_eq_getElem (hjk.trans hk)]
        exact congrArg some heq.symm
  · obtain ⟨img₁, hbuilt, ⟨hroot, -⟩, hfreeinode, hdisk, -⟩ := mkfs_built hlen hmkfs
    have hi : 1 ≤ k + 2 := by omega
    have hi' : k + 2 < img₁.freeinode := by omega
    have hne : k + 2 ≠ rootIno := by
      unfold rootIno
      omega
    have hsize : (sb.dinode img.disk (k + 2)).size.toNat = files[k].bytes.length := by
      rw [dinode_final hdisk, if_neg hne, (hbuilt.file _ hi hi').size, allBytes_file hk]
    refine ⟨hsize, fun off n => ?_⟩
    have hread := readi_file hbuilt hroot hdisk hi hi' dev off n (by rw [hsize, allBytes_file hk])
    rwa [allBytes_file hk] at hread

/-- No drivers. -/
def noDevices : Devsw := ⟨fun _ => none, fun _ => none⟩

theorem mkfs_read_back_hello : ∃ img, mkfs [hello] = .ok img ∧
    dirlookup sb noDevices img.disk (sb.dinode img.disk rootIno) [104] =
      .ok (img.disk, sb.dinode img.disk rootIno, some (2, 32)) ∧
    readi sb noDevices img.disk (sb.dinode img.disk 2) 0 100 =
      .ok (img.disk, sb.dinode img.disk 2, 3, [72, 105, 10]) := by
  obtain ⟨img, hmkfs, hfiles⟩ := mkfs_read_back (show [hello].length ≤ nInodes - 2 by decide)
    (by decide) (by decide) (by decide) (by decide) noDevices
  obtain ⟨hfind, -, hread⟩ := hfiles 0 (by decide)
  exact ⟨img, hmkfs, hfind [104] (by decide), hread 0 100⟩

/-- A file that is called `"."` in the image. -/
def dotFile : Input where
  argv := [95, 46]
  reads := some [[72, 105, 10]]

/-- Its inode is 2, and `dirlookup` finds the root directory. -/
theorem dotFile_not_found : ∃ img, mkfs [dotFile] = .ok img ∧
    (sb.dinode img.disk 2).size.toNat = 3 ∧
    dirlookup sb noDevices img.disk (sb.dinode img.disk rootIno) dotFile.name =
      .ok (img.disk, sb.dinode img.disk rootIno, some (rootIno, 0)) := by
  have hlen : [dotFile].length ≤ nInodes - 2 := by decide
  obtain ⟨img, hmkfs⟩ := mkfs_ok hlen (by decide) (by decide)
  obtain ⟨img₁, hbuilt, -, hfreeinode, hdisk, -⟩ := mkfs_built hlen hmkfs
  refine ⟨img, hmkfs, ?_, ?_⟩
  · have hfile := hbuilt.file 2 (by decide) (by rw [hfreeinode]; decide)
    rw [dinode_final hdisk, if_neg (by decide), hfile.size]
    exact congrArg List.length (allBytes_file (k := 0) (show 0 < [dotFile].length by decide))
  · exact dirlookup_find hlen hmkfs noDevices (m := 0) (by decide) (by decide) nofun

end InuOs.Mkfs
