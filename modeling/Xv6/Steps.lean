import Xv6.Lib.MemWp
import Xv6.Sysfile

/-!
# What the steps of file system code change

Most of `fs.c` changes memory in four ways only: the copy of an inode in a slot of the
cache, the flags of a slot, the header of the log, and the input that is left. A relation
between memories that allows those changes (`Harmless`) is kept by each step of such code
(`Keeping`), so that what depends on none of the four is seen at once not to change: the
reference counts, the tables of files and processes, who owns the transaction.
-/

open Bytes Device

namespace Xv6

/-- The panics of the file table, which code below it does not have. -/
def Spared (msg : String) : Prop := msg ≠ "filedup" ∧ msg ≠ "fileclose"

instance (msg : String) : Decidable (Spared msg) := inferInstanceAs (Decidable (_ ∧ _))

/-- A relation between memories that allows what code below the inode layer does. -/
class Harmless (R : Mem → Mem → Prop) : Prop where
  refl : ∀ m, R m m
  dinode : ∀ k g m, R m (setDinode k g m)
  flags : ∀ k (b v : Inode → Bool) m,
    R m (setInode k (fun ip => { ip with busy := b ip, valid := v ip }) m)
  header : ∀ l m, R m { m with log := { m.log with lh := l } }
  input : ∀ i m, R m { m with input := i }

/-- Code each step of which changes memory along `R`. -/
abbrev Keeping (R : Mem → Mem → Prop) {α : Type} (p : K α) : Prop := p.Keeps Spared R

section Keeping

variable {R : Mem → Mem → Prop} [Harmless R]

theorem still_get : Keeping R get := .get Harmless.refl

theorem still_setDinode (k : Nat) (g : Dinode → Dinode) : Keeping R (modify (setDinode k g)) :=
  .modify (Harmless.dinode k g)

theorem still_setFlags (k : Nat) (b v : Inode → Bool) :
    Keeping R (modify (setInode k fun ip => { ip with busy := b ip, valid := v ip })) :=
  .modify (Harmless.flags k b v)

omit [Harmless R] in
theorem still_halt {α : Type} {msg : String} (h : Spared msg) : Keeping R (halt msg : K α) :=
  .halt h

omit [Harmless R] in
theorem still_readsb : Keeping R readsb := .bind (.bread _) fun _ => .bind (.brelse _) fun _ => .pure _

theorem still_logWrite (sec : Nat) (data : Block) : Keeping R (logWrite sec data) := by
  refine .bind (.store ..) fun _ => .bind (.limit ..) fun _ => .bind still_get fun m =>
    .check (by decide) ?_
  exact .bind (.emit _) fun _ => .bind (.bread _) fun _ => .bind (.store ..) fun _ =>
    .bind (.bwrite _) fun _ => .bind (.brelse _) fun _ => .bind (.modify fun m =>
      Harmless.header _ m) fun _ => .pin _

omit [Harmless R] in
theorem still_installLoop (start : Nat) (tail : Nat) (secs : List Nat) :
    Keeping R (installLoop start tail secs) := by
  induction secs generalizing tail with
  | nil => exact .pure _
  | cons sec rest ih =>
    exact .bind (.bread _) fun _ => .bind (.bread _) fun _ => .bind (.store ..) fun _ =>
      .bind (.bwrite _) fun _ => .bind (.brelse _) fun _ => .bind (.brelse _) fun _ => ih _

theorem still_writeHead : Keeping R writeHead :=
  .bind still_get fun _ => .bind (.bread _) fun _ => .bind (.store ..) fun _ =>
    .bind (.bwrite _) fun _ => .brelse _

theorem still_installAndErase : Keeping R installAndErase :=
  .bind (.bind still_get fun _ => still_installLoop ..) fun _ =>
    .bind (.modify fun m => Harmless.header _ m) fun _ => still_writeHead

theorem still_bzero (b : Nat) : Keeping R (bzero b) :=
  .bind (.bread _) fun _ => .bind (still_logWrite ..) fun _ => .brelse _

theorem still_ballocLoop (sb : Superblock) (n b : Nat) : Keeping R (ballocLoop sb n b) := by
  induction n generalizing b with
  | zero => exact still_halt (by decide)
  | succ n ih =>
    refine .ite (.bind (.bread _) fun bp => ?_) (still_halt (by decide))
    split
    · exact .bind (.emit _) fun _ => .bind (still_logWrite ..) fun _ => .bind (.brelse _) fun _ =>
        .bind (still_bzero _) fun _ => .pure _
    · exact .bind (.brelse _) fun _ => ih _

theorem still_balloc : Keeping R balloc := .bind still_readsb fun _ => still_ballocLoop ..

theorem still_bfree (b : Nat) : Keeping R (bfree b) :=
  .bind still_readsb fun _ => .bind (.bread _) fun _ => .check (by decide)
    (.bind (still_logWrite ..) fun _ => .brelse _)

theorem still_iupdate (k : Nat) : Keeping R (iupdate k) :=
  .bind still_get fun _ => .bind (.bread _) fun _ => .bind (still_logWrite ..) fun _ => .brelse _

theorem still_ilock (k : Nat) : Keeping R (ilock k) := by
  refine .bind .yield fun _ => .bind still_get fun _ => .check (by decide)
    (.bind (.wait (Harmless.flags k (fun _ => true) Inode.valid)) fun _ => .bind still_get fun m =>
      .ite ?_ (.pure _))
  refine .bind (.bread _) fun bp => .bind (still_setDinode ..) fun _ => .bind (.brelse _) fun _ =>
    .bind (still_setFlags k Inode.busy fun _ => true) fun _ => ?_
  generalize getDinode bp _ = d
  exact .ite (still_halt (by decide)) (.pure _)

theorem still_iunlock (k : Nat) : Keeping R (iunlock k) :=
  .bind .yield fun _ => .bind still_get fun _ => .check (by decide)
    (still_setFlags k (fun _ => false) Inode.valid)

/-! ### Contents of inodes -/

theorem still_bmap (k bn : Nat) : Keeping R (bmap k bn) := by
  refine .bind still_get fun m => .ite (.ite (.bind still_balloc fun b =>
    .bind (still_setDinode ..) fun _ => .pure _) (.pure _)) (.ite ?_ (still_halt (by decide)))
  refine .bind (.ite (.bind still_balloc fun b => .bind (still_setDinode ..) fun _ => .pure _)
    (.pure _)) fun addr => .bind (.bread _) fun bp => .ite ?_ (.bind (.brelse _) fun _ => .pure _)
  exact .bind still_balloc fun b => .bind (still_logWrite ..) fun _ => .bind (.brelse _) fun _ =>
    .pure _

theorem still_itruncDirect (k n i : Nat) : Keeping R (itruncDirect k n i) := by
  induction n generalizing i with
  | zero => exact .pure _
  | succ n ih =>
    exact .bind still_get fun m => .ite (.bind (still_bfree _) fun _ =>
      .bind (still_setDinode ..) fun _ => ih _) (ih _)

theorem still_itruncIndirect (bp : Block) (n j : Nat) : Keeping R (itruncIndirect bp n j) := by
  induction n generalizing j with
  | zero => exact .pure _
  | succ n ih => exact .ite (.bind (still_bfree _) fun _ => ih _) (ih _)

theorem still_itrunc (k : Nat) : Keeping R (itrunc k) := by
  have hend : Keeping R (modify (setDinode k fun d => { d with size := 0 }) >>= fun _ => iupdate k) :=
    .bind (still_setDinode ..) fun _ => still_iupdate k
  refine .bind (still_itruncDirect ..) fun _ => .bind still_get fun m => .ite ?_ hend
  exact .bind (.bread _) fun bp => .bind (still_itruncIndirect ..) fun _ => .bind (.brelse _) fun _ =>
    .bind (still_bfree _) fun _ => .bind (still_setDinode ..) fun _ => hend

theorem still_readiLoop (k n fuel tot off : Nat) (dst : Nat → UInt8) :
    Keeping R (readiLoop k n fuel tot off dst) := by
  induction fuel generalizing tot off dst with
  | zero => exact .pure _
  | succ fuel ih =>
    exact .ite (.bind (still_bmap ..) fun _ => .bind (.bread _) fun _ => .bind (.brelse _) fun _ =>
      ih ..) (.pure _)

theorem still_readiFile (k off n : Nat) : Keeping R (readiFile k off n) :=
  .bind still_get fun _ => .ite (.pure _) (.bind (still_readiLoop ..) fun _ => .pure _)

theorem still_nextInput : Keeping R nextInput :=
  .bind (.getModify fun m => Harmless.input _ m) fun _ => .pure _

theorem still_readi (k off n : Nat) : Keeping R (readi k off n) :=
  .bind .yield fun _ => .bind still_get fun _ => .ite (.ite (.bind (still_iunlock k) fun _ =>
    .bind still_nextInput fun _ => .bind (still_ilock k) fun _ => .pure _) (.pure _))
    (still_readiFile ..)

theorem still_writeiLoop (k n : Nat) (src : Nat → UInt8) (fuel tot off : Nat) :
    Keeping R (writeiLoop k n src fuel tot off) := by
  induction fuel generalizing tot off with
  | zero => exact .pure _
  | succ fuel ih =>
    exact .ite (.bind (still_bmap ..) fun _ => .bind (.bread _) fun _ =>
      .bind (still_logWrite ..) fun _ => .bind (.brelse _) fun _ => ih ..) (.pure _)

theorem still_writeiFile (k : Nat) (src : Nat → UInt8) (off n : Nat) :
    Keeping R (writeiFile k src off n) :=
  .bind still_get fun _ => .ite (.pure _) (.ite (.pure _) (.bind (still_writeiLoop ..) fun _ =>
    .bind still_get fun _ => .ite (.bind (still_setDinode ..) fun _ => .bind (still_iupdate k) fun _ =>
      .pure _) (.pure _)))

theorem still_writei (k : Nat) (src : Nat → UInt8) (off n : Nat) : Keeping R (writei k src off n) :=
  .bind .yield fun _ => .bind still_get fun _ => .ite (.ite (.bind (still_iunlock k) fun _ =>
    .bind (still_ilock k) fun _ => .pure _) (.pure _)) (still_writeiFile ..)

theorem still_dirlinkLoop (dp n off : Nat) : Keeping R (dirlinkLoop dp n off) := by
  induction n generalizing off with
  | zero => exact .pure _
  | succ n ih =>
    refine .bind still_get fun _ => .ite (.bind (still_readi ..) fun r => ?_) (.pure _)
    cases r with
    | none => exact still_halt (by decide)
    | some x => exact .ite (still_halt (by decide)) (.ite (.pure _) (ih _))

theorem still_isdirempty (dp : Nat) : Keeping R (isdirempty dp) := by
  have loop : ∀ n off, Keeping R (isdiremptyLoop dp n off) := fun n => by
    induction n with
    | zero => exact fun _ => .pure _
    | succ n ih =>
      refine fun off => .bind still_get fun _ => .ite (.bind (still_readi ..) fun r => ?_) (.pure _)
      cases r with
      | none => exact still_halt (by decide)
      | some x => exact .ite (still_halt (by decide)) (.ite (.pure _) (ih _))
  exact .bind still_get fun _ => loop ..

theorem still_execReads (ip : Nat) (reads : List (Nat × Nat)) : Keeping R (execReads ip reads) := by
  induction reads with
  | nil => exact .pure _
  | cons x rest ih =>
    refine .bind (still_readi ..) fun r => ?_
    cases r with
    | none => exact .pure _
    | some y => exact .ite (.pure _) ih

theorem still_incLink (k : Nat) : Keeping R (incLink k) :=
  .bind still_get fun _ => .bind (.emit _) fun _ => still_setDinode ..

theorem still_decLink (k : Nat) : Keeping R (decLink k) := still_setDinode ..

theorem still_filestat (f : Nat) : Keeping R (filestat f) :=
  .bind still_get fun _ => .ite (.bind (still_ilock _) fun _ => .bind still_get fun _ =>
    .bind (still_iunlock _) fun _ => .pure _) (.pure _)

/-- `commit_trans` up to its last step, which ends the transaction. -/
def commitBody : K Unit := do
  yield
  let m ← get
  emit fun _ => .commit m.log.lh.length
  if 0 < m.log.lh.length then
    writeHead
    installAndErase

/-- The end of a transaction. -/
def Mem.endTrans (m : Mem) : Mem := { m with log := { m.log with busy := false, owner := none } }

omit [Harmless R] in
theorem commitTrans_eq : commitTrans = commitBody >>= fun _ => modify Mem.endTrans := by
  unfold commitTrans commitBody
  simp only [bind_assoc]
  congr 1
  funext _
  congr 1
  funext m
  congr 1
  funext _
  split
  · simp only [bind_assoc]
    rfl
  · rfl

theorem still_commitBody : Keeping R commitBody :=
  .bind .yield fun _ => .bind still_get fun _ => .bind (.emit _) fun _ =>
    .ite (.bind still_writeHead fun _ => still_installAndErase) (.pure _)

end Keeping

end Xv6
