import Xv6.MkfsRead

/-!
# Which images of mkfs are well formed

`mkfs` checks neither that its inodes are below `ninodes` nor that its blocks end before the log, and it
gives the root directory a size of one block more than it has whole blocks. Its image is well formed
exactly if neither happens and the entries of the root directory end inside a block.
-/

open Bytes StateWp Function List

namespace Xv6.Mkfs

variable {sb : Superblock} {s : State} {files : List Arg} {D : Nat → Dinode} {F : Nat → List UInt8}
  {i f : Nat}

/-! ### `main` as a sequence of operations -/

/-- What is read of a file, up to the first `read` that returns nothing. -/
def Arg.chunks (a : Arg) : List (List UInt8) := (a.reads.getD []).takeWhile (· ≠ [])

def Arg.bytes (a : Arg) : List UInt8 := a.chunks.flatten

/-- `main` goes on after this file. -/
def Arg.Good (a : Arg) : Prop := slash ∉ a.name ∧ a.reads.isSome = true

instance (a : Arg) : Decidable a.Good := inferInstanceAs (Decidable (_ ∧ _))

/-- The operations for one file, which gets the inode `f`. -/
def fileOp (f : Nat) (a : Arg) : List Op :=
  .ialloc T_FILE :: .iappend ROOTINO (direntList f (strncpy (cname a.entryName) DIRSIZ)) ::
    a.chunks.map (.iappend f)

def fileOps : Nat → List Arg → List Op
  | _, [] => []
  | f, a :: as => fileOp f a ++ fileOps (f + 1) as

/-- The operations of `main`. -/
def mainOps (files : List Arg) : List Op :=
  .ialloc T_DIR :: .iappend ROOTINO (direntList ROOTINO (cname dot)) ::
    .iappend ROOTINO (direntList ROOTINO (cname dotdot)) :: fileOps (ROOTINO + 1) files

/-- The end of `main`. -/
def finish (sb : Superblock) : M Unit := do
  fixRoot ROOTINO
  let s ← get
  balloc sb s.usedblocks

/-- Code that takes no inode. -/
def Steady {α : Type} (x : M α) : Prop :=
  ∀ s, wp (fun _ => True) x (fun _ s' => s'.freeinode = s.freeinode) s

namespace Steady

variable {α β : Type}

theorem pure (a : α) : Steady (pure a : M α) := fun _ => rfl

theorem bind {x : M α} {g : α → M β} (hx : Steady x) (hg : ∀ a, Steady (g a)) : Steady (x >>= g) := by
  intro s
  rw [wp_bind]
  exact wp_mono (hx s) fun a s₁ h₁ => wp_mono (hg a s₁) fun _ _ h₂ => h₂.trans h₁

theorem ite {c : Prop} [Decidable c] {x y : M α} (hx : Steady x) (hy : Steady y) :
    Steady (if c then x else y) := by
  split
  · exact hx
  · exact hy

theorem rsect (sec : Nat) : Steady (rsect sec) := by
  intro s
  rw [wp_rsect]
  split
  · rfl
  · trivial

theorem wsect (sec : Nat) (buf : Block) : Steady (wsect sec buf) := fun _ => rfl

theorem assert (c : Prop) [Decidable c] : Steady (assert c) := by
  intro s
  rw [wp_assert]
  split
  · rfl
  · trivial

theorem nextBlock : Steady nextBlock := fun _ => rfl

theorem winode (inum : Nat) (d : Dinode) : Steady (winode inum d) :=
  (rsect _).bind fun _ => wsect _ _

theorem rinode (inum : Nat) : Steady (rinode inum) := (rsect _).bind fun _ => pure _

theorem iappendBlock (din : Dinode) (fbn : Nat) : Steady (iappendBlock din fbn) := by
  refine ite (ite (nextBlock.bind fun _ => pure _) (pure _)) ?_
  refine (ite (nextBlock.bind fun _ => pure _) (pure _)).bind fun din => (rsect _).bind fun indirect => ?_
  exact ite (nextBlock.bind fun _ => (wsect _ _).bind fun _ => pure _) (pure _)

theorem iappendLoop (n : Nat) : ∀ din off p, Steady (iappendLoop n din off p) := by
  induction n with
  | zero => exact fun _ _ _ => pure _
  | succ n ih =>
    intro din off p
    refine ite (pure _) ((assert _).bind fun _ => (iappendBlock _ _).bind fun r => ?_)
    exact (rsect _).bind fun _ => (wsect _ _).bind fun _ => ih _ _ _

theorem iappend (inum : Nat) (p : List UInt8) : Steady (iappend inum p) :=
  (rinode _).bind fun _ => (iappendLoop _ _ _ _).bind fun _ => winode _ _

end Steady

theorem wp_ialloc_freeinode (type : Int) (s : State) :
    wp (fun _ => True) (ialloc type) (fun _ s' => s'.freeinode = s.freeinode + 1) s :=
  ((Steady.winode s.freeinode (newInode type)).bind fun _ => Steady.pure s.freeinode)
    { s with freeinode := s.freeinode + 1 }

theorem wp_runOps_freeinode (ops : List Op) : ∀ s, wp (fun _ => True) (runOps ops)
    (fun _ s' => s'.freeinode = s.freeinode + allocs ops) s := by
  induction ops with
  | nil => exact fun _ => rfl
  | cons op ops ih =>
    intro s
    unfold runOps
    rw [wp_bind]
    cases op with
    | ialloc type =>
      unfold runOp
      rw [wp_bind]
      refine wp_mono (wp_ialloc_freeinode type s) fun _ s₁ h₁ => ?_
      rw [wp_pure]
      refine wp_mono (ih s₁) fun _ s' h' => ?_
      rw [h', h₁, allocs]
      omega
    | iappend inum p =>
      refine wp_mono (Steady.iappend inum p s) fun _ s₁ h₁ => wp_mono (ih s₁) fun _ s' h' => ?_
      rw [h', h₁, allocs]

theorem freeinode_of_runOps {ops : List Op} {s' : State} {u : Unit} (h : runOps ops s = .ok (u, s')) :
    s'.freeinode = s.freeinode + allocs ops := (wp_of_ok h).mp (wp_runOps_freeinode ops s)

theorem runOps_append (l l' : List Op) : runOps (l ++ l') = runOps l >>= fun _ => runOps l' := by
  induction l with
  | nil => rfl
  | cons op l ih =>
    change runOp op >>= (fun _ => runOps (l ++ l')) = (runOp op >>= fun _ => runOps l) >>= _
    rw [ih, bind_assoc]

theorem appendReads_eq (inum : Nat) (bufs : List (List UInt8)) :
    appendReads inum bufs = runOps ((bufs.takeWhile (· ≠ [])).map (.iappend inum)) := by
  induction bufs with
  | nil => rfl
  | cons buf bufs ih =>
    unfold appendReads
    by_cases hb : buf = []
    · rw [if_pos hb, takeWhile_cons_of_neg (by simpa using hb)]
      rfl
    · rw [if_neg hb, takeWhile_cons_of_pos (by simpa using hb), ih]
      rfl

theorem ialloc_bind {α : Type} (type : Int) (g : Nat → M α) (s : State) :
    (ialloc type >>= g) s = (runOp (.ialloc type) >>= fun _ => g s.freeinode) s := by
  have hialloc : ∀ g' : Nat → M α, (ialloc type >>= g') s
      = (winode s.freeinode (newInode type) >>= fun _ => g' s.freeinode)
        { s with freeinode := s.freeinode + 1 } := by
    intro g'
    change ((winode s.freeinode (newInode type) >>= fun _ => pure s.freeinode) >>= g') _ = _
    rw [bind_assoc]
    rfl
  unfold runOp
  rw [bind_assoc, hialloc, hialloc]
  rfl

theorem addFile_eq {a : Arg} (ha : a.Good) (s : State) :
    addFile ROOTINO a s = runOps (fileOp s.freeinode a) s := by
  obtain ⟨hslash, hopen⟩ := ha
  obtain ⟨bufs, hbufs⟩ := Option.isSome_iff_exists.mp hopen
  have hchunks : a.chunks = bufs.takeWhile (· ≠ []) := by rw [Arg.chunks, hbufs, Option.getD_some]
  unfold addFile assert
  rw [if_pos hslash, pure_bind, hbufs]
  dsimp only
  rw [ialloc_bind, appendReads_eq, ← hchunks]
  rfl

theorem allocs_append (l l' : List Op) : allocs (l ++ l') = allocs l + allocs l' := by
  induction l with
  | nil => exact (Nat.zero_add _).symm
  | cons op l ih =>
    cases op with
    | ialloc type => rw [cons_append, allocs, allocs, ih]; omega
    | iappend inum p => rw [cons_append, allocs, allocs, ih]

theorem allocs_iappends (inum : Nat) (bufs : List (List UInt8)) :
    allocs (bufs.map (.iappend inum)) = 0 := by
  induction bufs with
  | nil => rfl
  | cons buf bufs ih => exact ih

theorem allocs_fileOp (f : Nat) (a : Arg) : allocs (fileOp f a) = 1 := by
  unfold fileOp
  rw [allocs, allocs, allocs_iappends]

theorem allocs_fileOps (files : List Arg) : ∀ f, allocs (fileOps f files) = files.length := by
  induction files with
  | nil => exact fun _ => rfl
  | cons a as ih =>
    intro f
    rw [fileOps, allocs_append, allocs_fileOp, ih, length_cons, Nat.add_comm]

theorem addFiles_eq : ∀ (files : List Arg) (s : State), (∀ a ∈ files, a.Good) →
    addFiles ROOTINO files s = runOps (fileOps s.freeinode files) s := by
  intro files
  induction files with
  | nil => exact fun _ _ => rfl
  | cons a as ih =>
    intro s hgood
    unfold addFiles fileOps
    rw [runOps_append]
    refine bind_congr_at (addFile_eq (hgood a mem_cons_self) s) fun _ s' h => ?_
    have hfree := freeinode_of_runOps h
    rw [allocs_fileOp] at hfree
    rw [ih s' fun b hb => hgood b (mem_cons_of_mem a hb), hfree]

theorem wp_addFiles_good (r : Nat) (files : List Arg) : ∀ s, wp (fun _ => True) (addFiles r files)
    (fun _ _ => ∀ a ∈ files, a.Good) s := by
  induction files with
  | nil => exact fun _ a ha => absurd ha not_mem_nil
  | cons a as ih =>
    intro s
    have hfile : wp (fun _ => True) (addFile r a) (fun _ _ => a.Good) s := by
      unfold addFile
      rw [wp_bind, wp_assert]
      split
      · next hslash =>
        cases hreads : a.reads with
        | none => trivial
        | some bufs => exact wp_const ⟨hslash, by rw [hreads]; rfl⟩
      · trivial
    unfold addFiles
    rw [wp_bind]
    refine wp_mono hfile fun _ s₁ ha => wp_mono (ih s₁) fun _ _ has b hb => ?_
    rcases mem_cons.mp hb with rfl | hb
    · exact ha
    · exact has b hb

theorem freeinode_mainOps (files : List Arg) : allocs (mainOps files) = files.length + 1 := by
  unfold mainOps
  rw [allocs, allocs, allocs, allocs_fileOps]

theorem main_eq (hg : FreshGeometry sb) (hgood : ∀ a ∈ files, a.Good) :
    main sb files init = (do format sb; runOps (mainOps files); finish sb) init := by
  unfold main
  refine bind_congr_at rfl fun _ s hs => ?_
  have hfree : s.freeinode = ROOTINO := (wp_elim (wp_format (E := fun _ => True) hg) hs).1
  -- the root directory and its first two entries
  let head : List Op := [.ialloc T_DIR, .iappend ROOTINO (direntList ROOTINO (cname dot)),
    .iappend ROOTINO (direntList ROOTINO (cname dotdot))]
  have hhead : (runOp (.ialloc T_DIR) >>= fun _ => do
      assert (ROOTINO = ROOTINO)
      iappend ROOTINO (direntList ROOTINO (cname dot))
      iappend ROOTINO (direntList ROOTINO (cname dotdot))
      addFiles ROOTINO files
      finish sb) = runOps head >>= fun _ => addFiles ROOTINO files >>= fun _ => finish sb := by
    unfold assert
    rw [if_pos rfl, pure_bind]
    simp only [head, runOps, bind_assoc, pure_bind]
    rfl
  have hops : runOps (mainOps files) = runOps head >>= fun _ => runOps (fileOps (ROOTINO + 1) files) :=
    runOps_append head _
  rw [ialloc_bind, hfree, hops, bind_assoc]
  change (runOp (.ialloc T_DIR) >>= fun _ => do
      assert (ROOTINO = ROOTINO)
      iappend ROOTINO (direntList ROOTINO (cname dot))
      iappend ROOTINO (direntList ROOTINO (cname dotdot))
      addFiles ROOTINO files
      finish sb) s = _
  rw [hhead]
  refine bind_congr_at rfl fun _ s₁ h₁ => bind_congr_at ?_ fun _ _ _ => rfl
  have hfree₁ := freeinode_of_runOps h₁
  rw [hfree] at hfree₁
  rw [addFiles_eq files s₁ hgood, hfree₁]
  rfl

/-! ### What the files need -/

/-- The blocks for `len` bytes of an inode, with the indirect block. -/
def blocksOf (len : Nat) : Nat := blocksFor len + if NDIRECT < blocksFor len then 1 else 0

/-- The blocks for the files and for the entries of the root directory. -/
def blocksNeeded (files : List Arg) : Nat :=
  blocksOf (DESIZE * (files.length + 2)) + (files.map fun a => blocksOf a.bytes.length).sum

theorem appended_append (l l' : List Op) : appended (l ++ l') i = appended l i ++ appended l' i :=
  flatMap_append ..

theorem appended_iappends (f : Nat) (bufs : List (List UInt8)) :
    appended (bufs.map (.iappend f)) i = if f = i then bufs.flatten else [] := by
  induction bufs with
  | nil => exact (ite_self _).symm
  | cons buf bufs ih =>
    rw [map_cons, appended_cons, ih, Op.chunk]
    split
    · rfl
    · rfl

theorem appended_fileOp (a : Arg) : appended (fileOp f a) i
    = (if ROOTINO = i then direntList f (strncpy (cname a.entryName) DIRSIZ) else [])
      ++ if f = i then a.bytes else [] := by
  unfold fileOp
  rw [appended_cons, appended_cons, appended_iappends]
  rfl

theorem appended_fileOps_of_lt (files : List Arg) : ∀ {f}, i < f → i ≠ ROOTINO →
    appended (fileOps f files) i = [] := by
  induction files with
  | nil => exact fun _ _ => rfl
  | cons a as ih =>
    intro f hi h1
    rw [fileOps, appended_append, appended_fileOp, if_neg (Ne.symm h1), if_neg (by omega),
      ih (by omega) h1]
    rfl

theorem appended_fileOps_of_ge (files : List Arg) : ∀ {f}, ROOTINO < f → f ≤ i →
    appended (fileOps f files) i = (files.map Arg.bytes).getD (i - f) [] := by
  induction files with
  | nil => exact fun _ _ => rfl
  | cons a as ih =>
    intro f hf hi
    rw [fileOps, appended_append, appended_fileOp, if_neg (by omega), nil_append, map_cons]
    by_cases hfi : f = i
    · subst hfi
      rw [if_pos rfl, appended_fileOps_of_lt as (Nat.lt_succ_self f) (by omega), append_nil,
        Nat.sub_self, getD_cons_zero]
    · rw [if_neg hfi, nil_append, ih (by omega) (by omega),
        show i - f = i - (f + 1) + 1 by omega, getD_cons_succ]

theorem length_direntList (inum : Nat) (name : Nat → UInt8) : (direntList inum name).length = DESIZE := by
  unfold direntList
  rw [length_map, length_range]

theorem length_appended_fileOps (files : List Arg) : ∀ {f}, ROOTINO < f →
    (appended (fileOps f files) ROOTINO).length = DESIZE * files.length := by
  induction files with
  | nil => exact fun _ => rfl
  | cons a as ih =>
    intro f hf
    rw [fileOps, appended_append, appended_fileOp, if_pos rfl, if_neg (by omega), append_nil,
      length_append, length_direntList, ih (by omega), length_cons, Nat.mul_succ, Nat.add_comm]

theorem length_appended_root (files : List Arg) :
    (appended (mainOps files) ROOTINO).length = DESIZE * (files.length + 2) := by
  unfold mainOps
  rw [appended_cons, appended_cons, appended_cons, length_append, length_append,
    length_append, length_appended_fileOps files (Nat.lt_succ_self _)]
  simp only [Op.chunk, if_true, length_direntList, length_nil]
  ring

theorem appended_file (files : List Arg) (i : Nat) :
    appended (mainOps files) (i + 2) = (files.map Arg.bytes).getD i [] := by
  have h1 : ROOTINO ≠ i + 2 := by unfold ROOTINO; omega
  unfold mainOps
  rw [appended_cons, appended_cons, appended_cons, appended_fileOps_of_ge files (Nat.lt_succ_self _)
    (by unfold ROOTINO; omega)]
  simp only [Op.chunk, if_neg h1, nil_append]
  rfl

theorem appended_none (files : List Arg) : appended (mainOps files) 0 = [] := by
  unfold mainOps
  rw [appended_cons, appended_cons, appended_cons, appended_fileOps_of_lt files (by decide) (by decide)]
  rfl

theorem sum_range_getD {α : Type} {w : α → Nat} {d : α} (hd : w d = 0) (l : List α) :
    ∀ {n}, l.length ≤ n → ∑ i ∈ Finset.range n, w (l.getD i d) = (l.map w).sum := by
  induction l with
  | nil =>
    intro n _
    simp [hd]
  | cons a l ih =>
    intro n hn
    obtain ⟨n, rfl⟩ : ∃ k, n = k + 1 := ⟨n - 1, by rw [length_cons] at hn; omega⟩
    rw [Finset.sum_range_succ', map_cons, sum_cons, getD_cons_zero]
    simp only [getD_cons_succ]
    rw [ih (by rw [length_cons] at hn; omega), Nat.add_comm]

theorem need_mainOps (sb : Superblock) (hn : files.length + 2 ≤ sb.ninodes) :
    need sb (appended (mainOps files)) = blocksNeeded files := by
  obtain ⟨n, hn'⟩ : ∃ n, sb.ninodes = n + 2 := ⟨sb.ninodes - 2, by omega⟩
  have hw : ∀ l : List UInt8, (refs (blocksFor l.length)).card = blocksOf l.length := fun l =>
    card_refs _
  have hroot : (appended (mainOps files) (0 + 1)).length = DESIZE * (files.length + 2) :=
    length_appended_root files
  unfold need blocksNeeded
  rw [hn', Finset.sum_range_succ', Finset.sum_range_succ']
  simp only [hw, appended_file]
  rw [hroot, appended_none, sum_range_getD (w := fun l => blocksOf l.length) rfl (files.map Arg.bytes)
    (by rw [length_map]; omega), map_map]
  change _ + _ + 0 = _
  rw [Nat.add_zero, Nat.add_comm]
  rfl

theorem legal_iappends {N free : Nat} {bufs : List (List UInt8)} {ops : List Op} (h0 : 0 < i)
    (hi : i < free) (h : Legal N free ops) : Legal N free (bufs.map (.iappend i) ++ ops) := by
  induction bufs with
  | nil => exact h
  | cons buf bufs ih => exact ⟨h0, hi, ih⟩

theorem legal_fileOps {N : Nat} (files : List Arg) : ∀ {f}, ROOTINO < f → f + files.length ≤ N →
    Legal N f (fileOps f files) := by
  induction files with
  | nil => exact fun _ _ => trivial
  | cons a as ih =>
    intro f hf hN
    rw [length_cons] at hN
    refine ⟨by omega, Or.inr rfl, by decide, by omega, ?_⟩
    exact legal_iappends (by omega) (Nat.lt_succ_self f) (ih (by omega) (by omega))

theorem legal_mainOps (hn : files.length + 2 ≤ sb.ninodes) : Legal sb.ninodes 1 (mainOps files) :=
  ⟨by omega, Or.inl rfl, by decide, by decide, by decide, by decide,
    legal_fileOps files (Nat.lt_succ_self _) (by omega)⟩

/-! ### The end of `main` -/

/-- What the kernel relies on: the inodes in use are below `ninodes`, the blocks referenced are in the
data area and marked in the bitmap, no block is referenced twice, and every block below the size of an
inode is there. -/
structure WellFormed (sb : Superblock) (s : State) : Prop where
  inodes : s.freeinode ≤ sb.ninodes
  data : ∀ r, own sb (diskInode s.img) s.img r ≠ 0 →
    sb.datastart ≤ own sb (diskInode s.img) s.img r ∧ own sb (diskInode s.img) s.img r < sb.logstart ∧
      bitOf s.img sb.ninodes (own sb (diskInode s.img) s.img r) = true
  inj : ∀ r r', own sb (diskInode s.img) s.img r ≠ 0 →
    own sb (diskInode s.img) s.img r = own sb (diskInode s.img) s.img r' → r = r'
  mapped : ∀ i < sb.ninodes, ∀ bn, bn * BSIZE < (diskInode s.img i).size →
    own sb (diskInode s.img) s.img (i, didx bn) ≠ 0

/-- The root inode with the size that `fixRoot` gives it. -/
def fixedRoot (d : Dinode) : Dinode := { d with size := (d.size / BSIZE + 1) * BSIZE }

/-- The image at the end of `main`. -/
def finalImage (sb : Superblock) (s : State) (root : Dinode) : Nat → Block :=
  update (storeInode s.img ROOTINO (fixedRoot root)) (sb.ninodes / IPB + 3)
    (markFirst s.usedblocks)

theorem wp_finish (hdata : sb.datastart ≤ sb.size) (hv : Inv sb s D F) (hroot : ROOTINO < s.freeinode)
    {E : Stop → Prop} {Q : Unit → State → Prop} :
    wp E (finish sb) Q s ↔
      if s.usedblocks < BPB then Q () { s with img := finalImage sb s (D ROOTINO) } else E .assertion := by
  have hin : ROOTINO < sb.ninodes := hroot.trans_le hv.inodes
  have hlow : sb.ninodes / IPB + 3 < sb.datastart := Nat.lt_add_of_pos_right (Nat.succ_pos _)
  unfold finish fixRoot balloc
  rw [wp_bind, wp_bind, hv.toCore.wp_rinode hdata hin, hv.disk ROOTINO hin]
  dsimp only
  rw [hv.toCore.wp_winode hdata hin, wp_bind, wp_get, wp_bind, wp_assert]
  by_cases hused : s.usedblocks < BPB
  · have hlen : max s.len (sb.ninodes / IPB + 3 + 1) = s.len := by
      rw [hv.len]
      omega
    rw [if_pos hused, if_pos (show s.usedblocks < 512 * 8 from hused), wp_wsect]
    dsimp only
    rw [hlen]
    rfl
  · rw [if_neg hused, if_neg (show ¬ s.usedblocks < 512 * 8 from hused)]

namespace Inv

theorem final_of_ge (hv : Inv sb s D F) (hroot : ROOTINO < s.freeinode) {x : Nat}
    (hx : sb.datastart ≤ x) : finalImage sb s (D ROOTINO) x = s.img x := by
  have hlow : sb.ninodes / IPB + 3 < sb.datastart := Nat.lt_add_of_pos_right (Nat.succ_pos _)
  unfold finalImage
  rw [update_of_ne (by omega)]
  exact storeInode_of_ge (hroot.trans_le hv.inodes) (hlow.le.trans hx)

theorem final_inode (hv : Inv sb s D F) (hi : i < sb.ninodes) :
    diskInode (finalImage sb s (D ROOTINO)) i = update D ROOTINO (fixedRoot (D ROOTINO)) i := by
  have hlt := iblock_lt_bitmap hi
  have hstore : diskInode (finalImage sb s (D ROOTINO)) i
      = diskInode (storeInode s.img ROOTINO (fixedRoot (D ROOTINO))) i := by
    unfold diskInode finalImage
    rw [update_of_ne (by omega)]
  have hok : (fixedRoot (D ROOTINO)).Ok := by
    have hd := hv.ok ROOTINO
    have hs := hv.size ROOTINO
    have hb := hv.bound ROOTINO
    refine { hd with size := ?_ }
    change ((D ROOTINO).size / BSIZE + 1) * BSIZE < 2 ^ 32
    unfold MAXFILE NDIRECT NINDIRECT BSIZE at *
    omega
  rw [hstore]
  by_cases hr : i = ROOTINO
  · subst hr
    rw [diskInode_storeInode_self hok, update_self]
  · rw [diskInode_storeInode_of_ne hr, update_of_ne hr, hv.disk i hi]

theorem final_own (hv : Inv sb s D F) (hroot : ROOTINO < s.freeinode) :
    own sb (diskInode (finalImage sb s (D ROOTINO))) (finalImage sb s (D ROOTINO))
      = own sb D s.img := by
  funext r
  obtain ⟨i, idx⟩ := r
  by_cases hi : i < sb.ninodes
  · have hd : (diskInode (finalImage sb s (D ROOTINO)) i).type = (D i).type ∧
        (diskInode (finalImage sb s (D ROOTINO)) i).addrs = (D i).addrs := by
      rw [hv.final_inode hi]
      by_cases hr : i = ROOTINO
      · subst hr
        rw [update_self]
        exact ⟨rfl, rfl⟩
      · rw [update_of_ne hr]
        exact ⟨rfl, rfl⟩
    by_cases hu : (D i).type = 0
    · unfold own
      rw [if_neg (by rw [hd.1]; exact fun h => h.2.1 hu), if_neg (fun h => h.2.1 hu)]
    · have hused : Used sb D i := ⟨hi, hu⟩
      have hbref : bref (finalImage sb s (D ROOTINO)) (diskInode (finalImage sb s (D ROOTINO)) i) idx
          = bref s.img (D i) idx := by
        unfold bref
        rw [hd.2]
        by_cases h0 : (D i).addrs NDIRECT = 0
        · rw [if_pos h0, if_pos h0]
        · have hown := own_indirect s.img hused
          rw [← hown] at h0
          rw [hv.final_of_ge hroot (hown ▸ (hv.blocks.ledger.range _ h0).1)]
      unfold own
      rw [hbref, hd.1]
  · unfold own
    rw [if_neg fun h => hi h.1, if_neg fun h => hi h.1]

theorem final_bit (hused : s.usedblocks < BPB) {b : Nat} (hb : b < s.usedblocks) (root : Dinode) :
    bitOf (finalImage sb s root) sb.ninodes b = true := by
  have hbb : BBLOCK b sb.ninodes = sb.ninodes / IPB + 3 := by
    unfold BBLOCK
    rw [Nat.div_eq_of_lt (hb.trans hused), Nat.zero_add]
  unfold bitOf finalImage
  rw [hbb, update_self, getBit_markFirst, Nat.mod_eq_of_lt (hb.trans hused)]
  exact decide_eq_true hb

/-- The blocks of an inode other than the root are there, whatever is appended to it; those of the root
are there if its entries end inside a block. -/
theorem final_mapped_iff (hv : Inv sb s D F) (hroot : ROOTINO < s.freeinode) :
    (∀ i < sb.ninodes, ∀ bn, bn * BSIZE < (diskInode (finalImage sb s (D ROOTINO)) i).size →
      own sb D s.img (i, didx bn) ≠ 0) ↔ ¬ BSIZE ∣ (F ROOTINO).length := by
  have hheld : ∀ i bn, own sb D s.img (i, didx bn) ≠ 0 ↔ bn < blocksFor (F i).length := fun i bn =>
    (hv.blocks.held i _).trans didx_mem_refs
  have hin : ROOTINO < sb.ninodes := hroot.trans_le hv.inodes
  have hsize : (diskInode (finalImage sb s (D ROOTINO)) ROOTINO).size
      = ((F ROOTINO).length / BSIZE + 1) * BSIZE := by
    rw [hv.final_inode hin, update_self, fixedRoot, hv.size]
  constructor
  · intro h hdvd
    -- the block behind the last entry is not there
    have hlast := (hheld ROOTINO _).mp (h ROOTINO hin ((F ROOTINO).length / BSIZE) (by
      rw [hsize]
      unfold BSIZE
      omega))
    obtain ⟨q, hq⟩ := hdvd
    rw [hq] at hlast
    unfold blocksFor BSIZE at hlast
    omega
  · intro hdvd i hi bn hbn
    rw [hheld]
    by_cases hr : i = ROOTINO
    · subst hr
      rw [hsize] at hbn
      have hmod : (F ROOTINO).length % BSIZE ≠ 0 := fun h0 => hdvd (Nat.dvd_of_mod_eq_zero h0)
      unfold blocksFor
      unfold BSIZE at hbn hmod
      omega
    · rw [hv.final_inode hi, update_of_ne hr, hv.size] at hbn
      unfold blocksFor
      unfold BSIZE at hbn
      omega

/-- **What makes the image well formed.** -/
theorem wellFormed_iff (hg : FreshGeometry sb) (hv : Inv sb s D F) (hroot : ROOTINO < s.freeinode)
    (hused : s.usedblocks < BPB) :
    WellFormed sb { s with img := finalImage sb s (D ROOTINO) } ↔
      s.freeblock ≤ sb.logstart ∧ ¬ BSIZE ∣ (F ROOTINO).length := by
  have hown := hv.final_own hroot
  have hB := hv.blocks
  have hmapped := hv.final_mapped_iff hroot
  constructor
  · intro hw
    have hdata := hw.data
    have hm := hw.mapped
    dsimp only at hdata hm
    rw [hown] at hdata hm
    refine ⟨?_, hmapped.mp hm⟩
    -- if blocks of the log are taken, the first of them is held by somebody
    by_contra hlt
    have hge : sb.datastart ≤ sb.logstart := hg.datastart_lt.le
    obtain ⟨r, hr⟩ := (hB.ledger.marked sb.logstart hge (by have := hB.le; omega)).mp
      (decide_eq_true (by omega))
    have hpos := Geometry.datastart_pos sb
    have := (hdata r (by omega)).2.1
    omega
  · rintro ⟨hle, hdvd⟩
    refine ⟨hv.inodes, ?_, ?_, ?_⟩
    · dsimp only
      rw [hown]
      intro r hr
      have hlt := hB.lt_free hr
      exact ⟨(hB.ledger.range r hr).1, hlt.trans_le hle, final_bit hused (by rw [hv.same]; exact hlt) _⟩
    · dsimp only
      rw [hown]
      exact hB.ledger.inj
    · dsimp only
      rw [hown]
      exact hmapped.mpr hdvd

end Inv

/-! ### Runs of `main` -/

theorem wp_main_good (sb : Superblock) (files : List Arg) : wp (fun _ => True) (main sb files)
    (fun _ _ => ∀ a ∈ files, a.Good) init := by
  unfold main
  refine wp_bind_right fun _ _ => wp_bind_right fun r _ => wp_bind_right fun _ _ =>
    wp_bind_right fun _ _ => wp_bind_right fun _ s => ?_
  rw [wp_bind]
  exact wp_mono (wp_addFiles_good r files s) fun _ _ h => wp_const h

theorem Steady.finish (sb : Superblock) : Steady (finish sb) := by
  refine ((rinode _).bind fun _ => winode _ _).bind fun _ s => ?_
  rw [wp_bind, wp_get]
  exact (assert _).bind (fun _ => wsect _ _) s

/-- Every file takes an inode, and the root directory another one. -/
theorem main_freeinode (hg : FreshGeometry sb) {s : State} (hrun : main sb files init = .ok ((), s)) :
    s.freeinode = files.length + 2 := by
  have hgood := wp_elim (wp_main_good sb files) hrun
  rw [main_eq hg hgood] at hrun
  have hw : wp (fun _ => True) (do format sb; runOps (mainOps files); finish sb)
      (fun _ s' => s'.freeinode = files.length + 2) init := by
    rw [wp_bind]
    refine wp_mono (wp_format hg) fun _ s₁ h₁ => ?_
    rw [wp_bind]
    refine wp_mono (wp_runOps_freeinode (mainOps files) s₁) fun _ s₂ h₂ => ?_
    refine wp_mono (Steady.finish sb s₂) fun _ s₃ h₃ => ?_
    rw [h₃, h₂, h₁.1, freeinode_mainOps]
    omega
  exact (wp_of_ok hrun).mp hw

/-- Where `main` leads while there are inodes. -/
structure Made (sb : Superblock) (files : List Arg) (s s' : State) (D : Nat → Dinode) : Prop where
  inv : Inv sb s D (appended (mainOps files))
  root : ROOTINO < s.freeinode
  used : s.usedblocks < BPB
  final : s' = { s with img := finalImage sb s (D ROOTINO) }

theorem wp_main (hg : FreshGeometry sb) (hgood : ∀ a ∈ files, a.Good)
    (hn : files.length + 2 ≤ sb.ninodes) {P : Prop}
    (hP : P → Fits sb (appended (mainOps files)) ∧ sb.datastart + blocksNeeded files < BPB) :
    wp (fun _ => ¬ P) (main sb files) (fun _ s' => ∃ s D, Made sb files s s' D) init := by
  have hdata : sb.datastart ≤ sb.size := by
    have := hg.total
    omega
  rw [wp_congr (main_eq hg hgood), wp_bind]
  refine wp_mono (wp_format hg) fun _ s₀ h₀ => ?_
  obtain ⟨hfree, hv⟩ := h₀
  rw [wp_bind]
  refine wp_mono (wp_runOps hg.size hdata _ hv (hfree ▸ legal_mainOps hn) fun hp => (hP hp).1)
    fun _ s h => ?_
  obtain ⟨hfree', D, hv'⟩ := h
  have hroot : ROOTINO < s.freeinode := by
    rw [hfree', hfree, freeinode_mainOps]
    unfold ROOTINO
    omega
  rw [wp_finish hdata hv' hroot]
  split
  · next hused => exact ⟨s, D, hv', hroot, hused, rfl⟩
  · next hused =>
    intro hp
    have hcount := hv'.blocks.count
    have hneed := need_mainOps sb hn
    unfold need at hneed
    have hlt := (hP hp).2
    rw [hv'.same, hcount] at hused
    exact hused (hneed ▸ hlt)

/-- Files that fit in the inodes and in the image. -/
structure Small (sb : Superblock) (files : List Arg) : Prop where
  good : ∀ a ∈ files, a.Good
  inodes : files.length + 2 ≤ sb.ninodes
  root : DESIZE * (files.length + 2) ≤ MAXFILE * BSIZE
  file : ∀ a ∈ files, a.bytes.length ≤ MAXFILE * BSIZE
  blocks : sb.datastart + blocksNeeded files ≤ sb.size
  bitmap : sb.datastart + blocksNeeded files < BPB

theorem Small.fits (hs : Small sb files) : Fits sb (appended (mainOps files)) := by
  refine ⟨fun i => ?_, by rw [need_mainOps sb hs.inodes]; exact hs.blocks⟩
  match i with
  | 0 => rw [appended_none]; exact Nat.zero_le _
  | 1 => exact (length_appended_root files).trans_le hs.root
  | i + 2 =>
    rw [appended_file]
    by_cases hi : i < (files.map Arg.bytes).length
    · rw [getD_eq_getElem _ _ hi, getElem_map]
      exact hs.file _ (getElem_mem _)
    · rw [getD_eq_default _ _ (Nat.not_lt.mp hi)]
      exact Nat.zero_le _

theorem Small.main_returns (hg : FreshGeometry sb) (hs : Small sb files) :
    ∃ s s' D, main sb files init = .ok ((), s') ∧ Made sb files s s' D := by
  obtain ⟨_, s', hrun, s, D, hm⟩ := wp_returns (wp_mono_stop
    (wp_main (P := True) hg hs.good hs.inodes fun _ => ⟨hs.fits, hs.bitmap⟩) (fun _ h => h trivial)
    fun _ _ h => h)
  exact ⟨s, s', D, hrun, hm⟩

/-- The kernel reads an inode without taking a block. -/
def Readable (sb : Superblock) (s : State) : Prop :=
  ∀ i, Used sb (diskInode s.img) i → (diskInode s.img i).type ≠ T_DEV → ∀ m k, Idle m →
    m.passed = false → m.buf = s.img → (m.mem.icache k).din = diskInode s.img i →
    ∀ off < 2 ^ 32, ∀ n < 2 ^ 32, ∃ r, Device.run limits true (readi k off n) m = .ok r m

theorem WellFormed.readable (hw : WellFormed sb s) : Readable sb s := by
  intro i hu hdev m k hm hpassed hbuf hdin off hoff n hn
  have hheld : Held m.buf (diskInode s.img i) := by
    have hmax : ∀ bn, bn * BSIZE < (diskInode s.img i).size → bn < MAXFILE := by
      intro bn hbn
      have hidx := (own_ne_zero (hw.mapped i hu.1 bn hbn)).2
      unfold didx NREF at hidx
      unfold MAXFILE
      split at hidx <;> omega
    refine ⟨?_, fun bn hbn => ?_⟩
    · by_contra hlt
      exact absurd (hmax MAXFILE (Nat.not_le.mp hlt)) (lt_irrefl _)
    · rw [hbuf, ← own_eq hu (didx_lt (hmax bn hbn))]
      exact hw.mapped i hu.1 bn hbn
  obtain ⟨r, m', hrun, hm'⟩ := run_of_kwp (Q := fun _ m' => m' = m)
    (kwp_readi hm hdin hheld hdev hoff hn rfl) fun _ _ h => h ▸ hpassed
  exact ⟨r, hm' ▸ hrun⟩

/-- **Which images are well formed.** For every list of files, if `mkfs` returns then its image is well
formed exactly if there are inodes for all files, the blocks end before the log, and the entries of the
root directory do not fill its blocks. On a well-formed image no read takes a block. -/
theorem mkfs_wellFormed_iff (hg : FreshGeometry sb) (files : List Arg) (s : State)
    (hrun : main sb files init = .ok ((), s)) :
    (WellFormed sb s ↔ files.length + 2 ≤ sb.ninodes ∧ blocksNeeded files ≤ sb.nblocks ∧
      ¬ BSIZE ∣ DESIZE * (files.length + 2)) ∧ (WellFormed sb s → Readable sb s) := by
  refine ⟨?_, WellFormed.readable⟩
  have hfree := main_freeinode hg hrun
  by_cases hn : files.length + 2 ≤ sb.ninodes
  · have hgood := wp_elim (wp_main_good sb files) hrun
    obtain ⟨t, D, hm⟩ := wp_elim (wp_main (P := False) hg hgood hn False.elim) hrun
    have hcount := hm.inv.blocks.count
    have hneed := need_mainOps sb hn
    unfold need at hneed
    rw [hneed] at hcount
    rw [hm.final, hm.inv.wellFormed_iff hg hm.root hm.used, length_appended_root]
    have htotal := hg.total
    unfold Superblock.logstart
    exact ⟨fun h => ⟨hn, by omega, h.2⟩, fun h => ⟨by omega, h.2.2⟩⟩
  · exact ⟨fun hw => absurd (hfree ▸ hw.inodes) hn, fun h => absurd h.1 hn⟩

/-- An image with one file is well formed. -/
theorem mkfs_wellFormed_one :
    ∃ s, main mkfsSuperblock [⟨[95, 97], some [[1, 2, 3]]⟩] init = .ok ((), s) ∧
      WellFormed mkfsSuperblock s := by
  have hsmall : Small mkfsSuperblock [⟨[95, 97], some [[1, 2, 3]]⟩] :=
    ⟨by decide, by decide, by decide, by decide, by decide +kernel, by decide +kernel⟩
  obtain ⟨-, s, -, hrun, -⟩ := hsmall.main_returns mkfs_geometry
  exact ⟨s, hrun, (mkfs_wellFormed_iff mkfs_geometry _ s hrun).1.mpr
    ⟨by decide, by decide +kernel, by decide⟩⟩

def thirtyFiles : List Arg := (List.range 30).map fun k => ⟨[UInt8.ofNat (48 + k)], some []⟩

/-- **With thirty files** the 32 entries of the root directory fill a block, and its size says that
there is another one. -/
theorem mkfs_thirty_files : (thirtyFiles.map Arg.name).Nodup ∧ (∀ a ∈ thirtyFiles, slash ∉ a.name) ∧
    ∃ s, main mkfsSuperblock thirtyFiles init = .ok ((), s) ∧ ¬ WellFormed mkfsSuperblock s ∧
      (diskInode s.img ROOTINO).size = 2 * BSIZE ∧
      own mkfsSuperblock (diskInode s.img) s.img (ROOTINO, didx 1) = 0 := by
  have hsmall : Small mkfsSuperblock thirtyFiles :=
    ⟨by decide +kernel, by decide, by decide, by decide +kernel, by decide +kernel, by decide +kernel⟩
  obtain ⟨t, s, D, hrun, hm⟩ := hsmall.main_returns mkfs_geometry
  have hlen : (appended (mainOps thirtyFiles) ROOTINO).length = BSIZE := length_appended_root thirtyFiles
  have hv := hm.inv
  have hin : ROOTINO < mkfsSuperblock.ninodes := by decide
  have hsize : (diskInode s.img ROOTINO).size = 2 * BSIZE := by
    rw [hm.final, hv.final_inode hin, update_self, fixedRoot, hv.size, hlen]
    rfl
  have hown : own mkfsSuperblock (diskInode s.img) s.img (ROOTINO, didx 1) = 0 := by
    rw [hm.final, hv.final_own hm.root]
    refine hv.blocks.not_held ?_
    rw [didx_mem_refs, hlen]
    decide
  refine ⟨by decide +kernel, by decide +kernel, s, hrun, fun hw => ?_, hsize, hown⟩
  exact hw.mapped ROOTINO hin 1 (by rw [hsize]; decide) hown

end Xv6.Mkfs
