import Xv6.Lib.Eval
import Xv6.RefCounts

/-!
# Reference counts are exact

The functions that change the tables of files and of processes, and with them all system calls:
each call starts and ends with the code holding nothing, so between calls the counts are the
numbers of table entries that refer to an object.
-/

open Bytes Device Function Finset

namespace Xv6

/-! ### Files -/

section FileCode

variable {T : Mem} {r : Hold} {f : Nat}

theorem Frame.setFile {T m : Mem} (h : Frame T m) (f : Nat) (g : File → File) :
    Frame (setFile f g T) (setFile f g m) :=
  ⟨h.procs, h.proc, by rw [Xv6.setFile, Xv6.setFile, h.ftable], h.pipes, h.npipe⟩

theorem Frame.setProc {T m : Mem} (h : Frame T m) (g : Proc → Proc) :
    Frame (setProc g T) (setProc g m) :=
  ⟨by rw [Xv6.setProc, Xv6.setProc, h.procs, h.proc], h.proc, h.ftable, h.pipes, h.npipe⟩

theorem emptyFile_eq_some {ft : Nat → File} (h : emptyFile ft = some f) :
    f < NFILE ∧ (ft f).ref = 0 :=
  ⟨List.mem_range.mp (List.mem_of_find?_eq_some h), of_decide_eq_true (List.find?_some h :)⟩

/-- What `filealloc` leaves. -/
def Allocated (T : Mem) (r : Hold) : Option Nat → Mem → Hold → Prop
  | none, T', r' => T' = T ∧ r' = r
  | some f, T', r' => f < NFILE ∧ (T.ftable f).ref = 0 ∧ (T.ftable f).type = .FD_NONE ∧
      T' = setFile f (fun ff => { ff with ref := 1 }) T ∧ r' = r.addFile f

theorem triple_filealloc : Triple T r filealloc (Allocated T r) := fun m hf hc => by
  simp only [filealloc, mwp_bind, mwp_yield, mwp_getModify, mwp_pure]
  rw [fileallocMem]
  cases h : emptyFile m.ftable with
  | none => exact ⟨T, r, ⟨rfl, rfl⟩, hf, hc⟩
  | some f =>
    obtain ⟨h1, h2⟩ := emptyFile_eq_some h
    refine ⟨_, _, ⟨h1, ?_, ?_, rfl, rfl⟩, hf.setFile f _, hc.alloc h1 h2⟩
    · rw [← hf.ftable]
      exact h2
    · rw [← hf.ftable]
      exact hc.closed f h1 h2

/-- The tables of processes are the same. -/
def SameProcs (T T' : Mem) : Prop := T'.procs = T.procs ∧ T'.proc = T.proc

theorem triple_filedup (hf : f < NFILE) (h0 : 0 < (T.ftable f).ref) :
    Triple T r (filedup f) fun _ T' r' => SameProcs T T' ∧ r' = r.addFile f ∧
      ∀ g, 0 < (T.ftable g).ref → 0 < (T'.ftable g).ref := by
  have hend : Triple T r (modify (setFile f fun ff => { ff with ref := ff.ref + 1 }))
      fun _ T' r' => SameProcs T T' ∧ r' = r.addFile f ∧
        ∀ g, 0 < (T.ftable g).ref → 0 < (T'.ftable g).ref := .modify fun m hm hc => by
    refine ⟨_, ⟨⟨hm.procs, hm.proc⟩, rfl, fun g hg => ?_⟩, hc.dupFile hf (by rw [hm.ftable]; exact h0)⟩
    rw [← hm.ftable] at hg
    by_cases hne : g = f
    · subst hne
      simp [Xv6.setFile]
    · simpa [Xv6.setFile, update_of_ne hne] using hg
  refine .bindStill .yield fun _ m hm hc => ?_
  simp only [mwp_bind, mwp_get]
  rw [if_neg]
  · exact hend m hm hc
  · rw [hm.ftable]
    omega

theorem Counts.pos {m : Mem} (hc : Counts m r) (hf : f < NFILE) (h0 : 0 < r.file f) :
    0 < (m.ftable f).ref := by
  have := hc.file f hf
  omega

theorem triple_fileclose (hf : f < NFILE) (h0 : 0 < r.file f) :
    Triple T r (fileclose f) fun _ T' r' => SameProcs T T' ∧ r' = r.subFile f := by
  refine .bindStill .yield fun _ m hm hc => ?_
  have hdone : ∀ m', SameProcs T m' → Counts m' (r.subFile f) → ∃ T' r',
      (SameProcs T T' ∧ r' = r.subFile f) ∧ Frame T' m' ∧ Counts m' r' :=
    fun m' h1 h2 => ⟨m', _, ⟨h1, rfl⟩, Frame.refl m', h2⟩
  rw [mwp_bind, mwp_get]
  have hpos := hc.pos hf h0
  rw [if_neg (by omega)]
  by_cases h1 : 1 < (m.ftable f).ref
  · rw [if_pos h1]
    exact (mwp_modify _).mpr (hdone _ ⟨hm.procs, hm.proc⟩ (hc.dropFile hf h1 h0))
  rw [if_neg h1]
  have h1 : (m.ftable f).ref = 1 := by omega
  rw [mwp_bind, mwp_modify]
  cases ht : (m.ftable f).type with
  | FD_PIPE =>
    rw [if_pos rfl]
    simp only [pipeclose, mwp_bind, mwp_yield, mwp_modify]
    exact hdone _ ⟨hm.procs, hm.proc⟩ (hc.closePipe hf h1 h0 ht)
  | FD_INODE =>
    rw [if_neg (by rintro ⟨⟩), if_pos rfl]
    -- the reference of the file to its inode is now the code's, which drops it
    have hiput : Triple (setFile f File.closed m) ((r.subFile f).addIno (m.ftable f).ip)
        (do beginTrans; iput (m.ftable f).ip; commitTrans)
        fun _ T' r' => SameProcs T T' ∧ r' = r.subFile f :=
      .bindStill still_beginTrans fun _ => inodes_iput_addIno.bindTriple fun _ _ hr =>
        (Triple.still still_commitTrans).mono fun _ T' r' h => by
          rw [h.1, h.2, hr]
          exact ⟨⟨hm.procs, hm.proc⟩, rfl⟩
    exact hiput _ (Frame.refl _) (hc.closeInode hf h1 h0 ht)
  | FD_NONE =>
    rw [if_neg (by rintro ⟨⟩), if_neg (by rintro ⟨⟩)]
    exact (mwp_pure _).mpr (hdone _ ⟨hm.procs, hm.proc⟩ (hc.closeNone hf h1 h0 ht))

/-! ### Descriptors -/

theorem fdOf_congr {T m : Mem} (h : Frame T m) (p fd : Nat) : fdOf m p fd = fdOf T p fd := by
  rw [fdOf, fdOf, h.procs]

theorem cwdOf_congr {T m : Mem} (h : Frame T m) (p : Nat) : cwdOf m p = cwdOf T p := by
  rw [cwdOf, cwdOf, h.procs]

theorem Counts.pos_of_fd {m : Mem} (hc : Counts m r) {p fd : Nat} (h : fdOf m p fd = some f)
    (hx : (p, fd) ∉ r.fd) : 0 < (m.ftable f).ref := by
  obtain ⟨h1, h2⟩ := hc.fd p fd f h
  obtain ⟨e, he, -⟩ := exists_of_fdOf h
  have h3 := le_sum_sum (g := fun p fd => fdCount m r p fd f)
    (mem_range.mpr (hc.proc p e he)) (mem_range.mpr h1)
  rw [← card_fdSet, fdCount, if_pos ⟨hx, h⟩] at h3
  have h4 := hc.file f h2
  omega

theorem triple_argfd (fd : Int) : Triple T Hold.none (argfd fd) fun res T' r' =>
    T' = T ∧ r' = Hold.none ∧ ∀ f, res = some f →
      f < NFILE ∧ 0 < (T.ftable f).ref ∧ fdOf T T.proc fd.toNat = some f := fun m hm hc => by
  simp only [argfd, mwp_bind, mwp_get]
  by_cases h : fd < 0 ∨ NOFILE ≤ fd
  · rw [if_pos h, mwp_pure]
    exact ⟨T, _, ⟨rfl, rfl, by rintro _ ⟨⟩⟩, hm, hc⟩
  · rw [if_neg h, mwp_pure]
    refine ⟨T, _, ⟨rfl, rfl, fun f hf => ?_⟩, hm, hc⟩
    have hfd : fdOf m m.proc fd.toNat = some f := hf
    refine ⟨(hc.fd _ _ _ hfd).2, ?_, ?_⟩
    · rw [← hm.ftable]
      exact hc.pos_of_fd hfd (notMem_empty _)
    · rw [← fdOf_congr hm, ← hm.proc]
      exact hfd

/-- The process with descriptor `fd` set to `f`. -/
def withFd (fd f : Nat) : Mem → Mem :=
  setProc fun p => { p with ofile := update p.ofile fd (some f) }

theorem fdOf_withFd {e : Proc} (he : T.procs T.proc = some e) (fd f : Nat) :
    fdOf (withFd fd f T) T.proc fd = some f := by
  simp [fdOf, withFd, setProc, he]

/-- What `fdalloc` leaves: a descriptor whose reference is still the code's. -/
def GotFd (T : Mem) (r : Hold) (f : Nat) : Option Nat → Mem → Hold → Prop
  | none, T', r' => T' = T ∧ r' = r
  | some fd, T', r' => fd < NOFILE ∧ (∃ e, T.procs T.proc = some e) ∧ T' = withFd fd f T ∧
      r' = r.hideFd T.proc fd

theorem triple_fdalloc (hf : f < NFILE) : Triple T r (fdalloc f) (GotFd T r f) :=
  fun m hm hc => by
  simp only [fdalloc, mwp_bind, mwp_get]
  cases h : (curproc m).bind freeFd with
  | none => exact (mwp_pure _).mpr ⟨T, r, ⟨rfl, rfl⟩, hm, hc⟩
  | some fd =>
    simp only [mwp_bind, mwp_modify, mwp_pure]
    obtain ⟨e, he, hfree⟩ := Option.bind_eq_some_iff.mp h
    have h1 := List.mem_range.mp (List.mem_of_find?_eq_some hfree)
    have h2 : e.ofile fd = none := Option.isNone_iff_eq_none.mp (List.find?_some hfree :)
    refine ⟨_, _, ⟨h1, ⟨e, ?_⟩, rfl, rfl⟩, hm.setProc _, ?_⟩
    · rw [← hm.procs, ← hm.proc]
      exact he
    · rw [← hm.proc]
      exact hc.putFd he h1 hf h2

theorem Hold.showFd_hideFd (r : Hold) {p fd : Nat} (h : (p, fd) ∉ r.fd) :
    (r.hideFd p fd).showFd p fd = r := by
  unfold Hold.showFd Hold.hideFd
  rw [erase_insert h]

theorem Triple.giveFd {α : Type} {p : K α} {P : α → Mem → Hold → Prop} {q fd : Nat}
    (h : fdOf T q fd = some f) (hx : (q, fd) ∉ r.fd) (hp : Triple T r p P) :
    Triple T ((r.hideFd q fd).addFile f) p P := by
  refine .recount (fun m hm hc => ?_) hp
  have := hc.showFd (by rw [fdOf_congr hm]; exact h) (mem_insert_self _ _)
    (by rw [Hold.addFile_self]; omega)
  rw [show ((r.hideFd q fd).addFile f).showFd q fd = ((r.hideFd q fd).showFd q fd).addFile f from rfl,
    Hold.showFd_hideFd r hx, Hold.subFile_addFile] at this
  exact this

theorem triple_sysDup (fd : Int) : Triple T Hold.none (sysDup fd) fun _ _ r' => r' = Hold.none := by
  refine (triple_argfd fd).bind fun res T' r' ⟨hT, hr, h⟩ => ?_
  rw [hT, hr]
  cases res with
  | none => exact .pure rfl
  | some f =>
    obtain ⟨hf, hpos, hfd⟩ := h f rfl
    refine (triple_fdalloc hf).bind fun res T' r' h => ?_
    cases res with
    | none => exact .pure h.2
    | some fd' =>
      obtain ⟨h1, ⟨e, he⟩, rfl, rfl⟩ := h
      refine Triple.bind (triple_filedup (T := withFd fd' f T) hf hpos) fun _ T' r' h => ?_
      rw [h.2.1]
      refine Triple.giveFd ?_ (notMem_empty _) (.pure rfl)
      rw [fdOf, h.1.1]
      exact fdOf_withFd he fd' f

theorem triple_clearFd {fd : Nat} (h : fdOf T T.proc fd = some f) (hx : (T.proc, fd) ∉ r.fd) :
    Triple T r (modify (clearFd fd)) fun _ T' r' => T' = clearFd fd T ∧ r' = r.addFile f := by
  intro m hm hc
  have h' : fdOf m m.proc fd = some f := by rw [fdOf_congr hm, hm.proc]; exact h
  have hx' : (m.proc, fd) ∉ r.fd := by rw [hm.proc]; exact hx
  obtain ⟨e, he, -⟩ := exists_of_fdOf h'
  have := (hc.hideFd h' hx').clearFd he (hc.fd _ _ _ h').1 (mem_insert_self _ _)
  rw [show ((r.hideFd m.proc fd).addFile f).showFd m.proc fd
    = ((r.hideFd m.proc fd).showFd m.proc fd).addFile f from rfl, Hold.showFd_hideFd r hx'] at this
  exact (mwp_modify _).mpr ⟨_, _, ⟨rfl, rfl⟩, hm.setProc _, this⟩

/-- `fileclose` of a file whose reference the code has just taken. -/
theorem triple_fileclose_addFile (hf : f < NFILE) :
    Triple T (r.addFile f) (fileclose f) fun _ T' r' => SameProcs T T' ∧ r' = r :=
  (triple_fileclose hf (by rw [Hold.addFile_self]; omega)).mono fun _ _ _ ⟨h1, h2⟩ =>
    ⟨h1, by rw [h2, Hold.subFile_addFile]⟩

theorem triple_sysClose (fd : Int) :
    Triple T Hold.none (sysClose fd) fun _ _ r' => r' = Hold.none := by
  refine (triple_argfd fd).bind fun res T' r' ⟨hT, hr, h⟩ => ?_
  rw [hT, hr]
  cases res with
  | none => exact .pure rfl
  | some f =>
    obtain ⟨hf, -, hfd⟩ := h f rfl
    refine (triple_clearFd hfd (notMem_empty _)).bind fun _ T' r' ⟨_, hr⟩ => ?_
    rw [hr]
    exact (triple_fileclose_addFile hf).bind fun _ _ _ h => .pure h.2

/-! ### Reading and writing -/

theorem triple_setOff (hf : f < NFILE) (h0 : 0 < (T.ftable f).ref) (g : Nat → Nat) :
    Triple T r (modify (setFile f fun ff => { ff with off := g ff.off }))
      fun _ T' r' => 0 < (T'.ftable f).ref ∧ r' = r :=
  .modify fun m hm hc => by
    have h0' : 0 < (m.ftable f).ref := by rw [hm.ftable]; exact h0
    refine ⟨r, ⟨?_, rfl⟩, hc.setOff hf h0' (g (m.ftable f).off)⟩
    simpa [Xv6.setFile] using h0'

theorem triple_fileread (hf : f < NFILE) (h0 : 0 < (T.ftable f).ref) (n : Nat) :
    Triple T r (fileread f n) fun _ _ r' => r' = r := fun m hm hc => by
  rw [fileread, mwp_bind, mwp_get]
  have h0' : 0 < (m.ftable f).ref := by rw [hm.ftable]; exact h0
  refine (Triple.ite (fun _ => .pure rfl) fun _ => ?_ : Triple m r _ _) m (Frame.refl m) hc
  cases (m.ftable f).type with
  | FD_PIPE => exact .bindStill still_nextInput fun _ => .pure rfl
  | FD_INODE =>
    refine .bindStill (still_ilock _) fun _ => .bindStill still_get fun _ =>
      .bindStill (still_readi ..) fun x => ?_
    refine (triple_setOff hf h0' fun off => uadd off (toInt x).toNat).bind fun _ _ _ ⟨_, hr⟩ => ?_
    exact .bindStill (still_iunlock _) fun _ => .pure hr
  | FD_NONE => exact .halt (by decide)

theorem triple_filewriteChunk (hf : f < NFILE) (h0 : 0 < (T.ftable f).ref) (src : Nat → UInt8)
    (n1 : Nat) : Triple T r (filewriteChunk f src n1)
      fun _ T' r' => 0 < (T'.ftable f).ref ∧ r' = r := by
  refine .bindStill still_beginTrans fun _ => .bindStill still_get fun _ =>
    .bindStill (still_ilock _) fun _ => .bindStill still_get fun _ =>
    .bindStill (still_writei ..) fun w => ?_
  refine (triple_setOff hf h0 fun off => uadd off w.toNat).bind fun _ T' r' h => ?_
  exact .bindStill (still_iunlock _) fun _ => .bindStill still_commitTrans fun _ => .pure h

theorem triple_filewriteLoop (hf : f < NFILE) (n : Nat) (src : Nat → UInt8) (fuel i : Nat)
    (h0 : 0 < (T.ftable f).ref) :
    Triple T r (filewriteLoop f n src fuel i) fun _ _ r' => r' = r := by
  induction fuel generalizing i T with
  | zero => exact .pure rfl
  | succ fuel ih =>
    rw [filewriteLoop]
    refine .ite (fun _ => (triple_filewriteChunk hf h0 _ _).bind fun w T' r' h => ?_)
      fun _ => .pure rfl
    rw [h.2]
    exact .ite (fun _ => .pure rfl) fun _ => .ite (fun _ => .halt (by decide)) fun _ => ih _ h.1

theorem triple_filewrite (hf : f < NFILE) (h0 : 0 < (T.ftable f).ref) (src : Nat → UInt8) (n : Int) :
    Triple T r (filewrite f src n) fun _ _ r' => r' = r := fun m hm hc => by
  rw [filewrite, mwp_bind, mwp_get]
  have h0' : 0 < (m.ftable f).ref := by rw [hm.ftable]; exact h0
  refine (Triple.ite (fun _ => .pure rfl) fun _ => ?_ : Triple m r _ _) m (Frame.refl m) hc
  cases (m.ftable f).type with
  | FD_PIPE => exact .bindStill still_nextInput fun _ => .pure rfl
  | FD_INODE => exact .ite (fun _ => .pure rfl) fun _ => triple_filewriteLoop hf _ src _ _ h0'
  | FD_NONE => exact .halt (by decide)

theorem triple_withFd {α : Type} {P : α → Mem → Hold → Prop} (fd : Int) {a : α} {g : Nat → K α}
    (hnone : P a T Hold.none)
    (h : ∀ f, f < NFILE → 0 < (T.ftable f).ref → Triple T Hold.none (g f) P) :
    Triple T Hold.none (do
      match ← argfd fd with
      | none => return a
      | some f => g f) P := by
  refine (triple_argfd fd).bind fun res T' r' ⟨hT, hr, hf⟩ => ?_
  rw [hT, hr]
  cases res with
  | none => exact .pure hnone
  | some f => exact h f (hf f rfl).1 (hf f rfl).2.1

/-! ### Opening -/

theorem Hold.addFile_comm (r : Hold) (a b : Nat) :
    (r.addFile a).addFile b = (r.addFile b).addFile a := by
  unfold Hold.addFile
  congr 1
  funext k
  by_cases ha : k = a <;> by_cases hb : k = b <;> simp_all [update]

/-- What `fdalloc` leaves if the code holds the file: the descriptor has taken it over. -/
def GaveFd (T : Mem) (r : Hold) (f : Nat) : Option Nat → Mem → Hold → Prop
  | none, T', r' => T' = T ∧ r' = r.addFile f
  | some fd, T', r' => fd < NOFILE ∧ (∃ e, T.procs T.proc = some e) ∧ T' = withFd fd f T ∧ r' = r

theorem triple_fdalloc_addFile (hf : f < NFILE) (hx : ∀ fd, (T.proc, fd) ∉ r.fd) :
    Triple T (r.addFile f) (fdalloc f) (GaveFd T r f) := fun m hm hc =>
  mwp_mono (triple_fdalloc hf m hm hc) fun res m' ⟨T', r', h, hm', hc'⟩ => by
    cases res with
    | none => exact ⟨T', r', h, hm', hc'⟩
    | some fd =>
      obtain ⟨h1, ⟨e, he⟩, rfl, rfl⟩ := h
      refine ⟨_, r, ⟨h1, ⟨e, he⟩, rfl, rfl⟩, hm', ?_⟩
      have := hc'.showFd (by rw [fdOf_congr hm']; exact fdOf_withFd he fd f)
        (mem_insert_self _ _) (by
          rw [show ((r.addFile f).hideFd T.proc fd).file f = (r.addFile f).file f from rfl,
            Hold.addFile_self]
          omega)
      rw [show ((r.addFile f).hideFd T.proc fd).showFd T.proc fd
        = ((r.hideFd T.proc fd).showFd T.proc fd).addFile f from rfl,
        Hold.showFd_hideFd r (hx fd), Hold.subFile_addFile] at this
      exact this

theorem triple_openInode {ip : Nat} (hip : ip < NINODE) (omode : Nat) :
    Triple T (Hold.none.addIno ip) (openInode ip omode) fun _ _ r' => r' = Hold.none := by
  refine triple_filealloc.bind fun res T' r' h => ?_
  cases res with
  | none =>
    rw [h.2]
    exact inodes_iunlockput_addIno.bindTriple fun _ _ h => .pure h
  | some f =>
    obtain ⟨hf, -, ht, rfl, rfl⟩ := h
    refine (triple_fdalloc_addFile hf fun _ => notMem_empty _).bind fun res T' r' h => ?_
    cases res with
    | none =>
      rw [h.2]
      refine (triple_fileclose_addFile hf).bind fun _ T' r' h => ?_
      rw [h.2]
      exact inodes_iunlockput_addIno.bindTriple fun _ _ h => .pure h
    | some fd =>
      obtain ⟨-, -, rfl, rfl⟩ := h
      refine .bindStill (still_iunlock ip) fun _ => .bind (.modify (P := fun _ _ r' => r' = Hold.none)
        fun m hm hc => ⟨_, rfl, ?_⟩) fun _ _ _ h => .pure h
      have h1 : m.ftable f = { T.ftable f with ref := 1 } := by
        rw [hm.ftable]
        exact update_self ..
      have := hc.openFile hf (by rw [h1]; exact Nat.one_pos) (by rw [h1]; exact ht) hip
        (by rw [Hold.addIno_self]; omega) omode
      rw [Hold.subIno_addIno] at this
      exact this

theorem triple_sysOpen (path : Option Path) (omode : Nat) :
    Triple T Hold.none (sysOpen path omode) fun _ _ r' => r' = Hold.none := by
  cases path with
  | none => exact .pure rfl
  | some path =>
    refine .ite (fun _ => .bindStill still_beginTrans fun _ => ?_) fun _ => ?_
    · refine (inodes_create path T_FILE 0 0).bindTriple fun res r' h =>
        .bindStill still_commitTrans fun _ => ?_
      cases res with
      | none => exact .pure h
      | some ip =>
        rw [h.2]
        exact triple_openInode h.1 omode
    · refine (inodes_namei path).bindTriple fun res r' h => ?_
      cases res with
      | none => exact .pure h
      | some ip =>
        rw [h.2]
        refine .bindStill (still_ilock ip) fun _ => .bindStill still_get fun m => .ite (fun _ => ?_)
          fun _ => triple_openInode h.1 omode
        exact inodes_iunlockput_addIno.bindTriple fun _ _ h => .pure h

theorem Hold.showCwd_hideCwd (r : Hold) {p : Nat} (h : p ∉ r.cwd) :
    (r.hideCwd p).showCwd p = r := by
  unfold Hold.showCwd Hold.hideCwd
  rw [erase_insert h]

theorem triple_sysChdir (path : Option Path) :
    Triple T Hold.none (sysChdir path) fun _ _ r' => r' = Hold.none := by
  cases path with
  | none => exact .pure rfl
  | some path =>
    refine (inodes_namei path).bindTriple fun res r' h => ?_
    cases res with
    | none => exact .pure h
    | some ip =>
      rw [h.2]
      refine .bindStill (still_ilock ip) fun _ => .bindStill still_get fun m => .ite (fun _ => ?_)
        fun _ => .bindStill (still_iunlock ip) fun _ => .get fun m _ hc => ?_
      · exact inodes_iunlockput_addIno.bindTriple fun _ _ h => .pure h
      · cases hcwd : (curproc m).bind Proc.cwd with
        | none => exact .halt (by decide)
        | some cwd =>
          obtain ⟨e, he, -⟩ := exists_of_cwdOf (m := m) (p := m.proc) hcwd
          -- the process lends its current directory to the code while it is dropped
          refine .recount (u := ((Hold.none.hideCwd m.proc).addIno ip).addIno cwd)
            (fun m' hm' hc' => hc'.hideCwd (by rw [cwdOf_congr hm']; exact hcwd)
              (notMem_empty _)) (inodes_iput_addIno.bindTriple fun _ r' hr => ?_)
          rw [hr]
          refine .bind (.modify (P := fun _ _ r' => r' = Hold.none) fun m' hm' hc' => ⟨_, rfl, ?_⟩)
            fun _ _ _ h => .pure h
          have := hc'.setCwd (k := ip) (by rw [hm'.procs, hm'.proc]; exact he) h.1
            (by rw [hm'.proc]; exact mem_insert_self _ _) (by rw [Hold.addIno_self]; omega)
          rw [hm'.proc, show (((Hold.none.hideCwd m.proc).addIno ip).showCwd m.proc).subIno ip
            = (((Hold.none.hideCwd m.proc).showCwd m.proc).addIno ip).subIno ip from rfl,
            Hold.subIno_addIno, Hold.showCwd_hideCwd _ (notMem_empty _)] at this
          exact this

/-! ### Pipes -/

/-- What `pipealloc` leaves. -/
def GotPipe (T : Mem) (r : Hold) : Option (Nat × Nat) → Mem → Hold → Prop
  | none, T', r' => SameProcs T T' ∧ r' = r
  | some (f0, f1), T', r' => f0 < NFILE ∧ f1 < NFILE ∧ SameProcs T T' ∧
      r' = (r.addFile f0).addFile f1

theorem triple_pipealloc (mem : Bool) : Triple T r (pipealloc mem) (GotPipe T r) := by
  refine triple_filealloc.bind fun res T' r' h => ?_
  cases res with
  | none => exact .pure ⟨by rw [h.1]; exact ⟨rfl, rfl⟩, h.2⟩
  | some f0 =>
    obtain ⟨hf0, -, ht0, rfl, rfl⟩ := h
    refine triple_filealloc.bind fun res T' r' h => ?_
    cases res with
    | none =>
      rw [h.1, h.2]
      exact (triple_fileclose_addFile hf0).bind fun _ _ _ h => .pure h
    | some f1 =>
      obtain ⟨hf1, href1, ht1, rfl, rfl⟩ := h
      have hne : f1 ≠ f0 := fun h => by
        rw [h] at href1
        simp [setFile] at href1
      refine .ite (fun _ => fun m hm hc => ?_) fun _ => ?_
      · simp only [mwp_bind, mwp_getModify, mwp_modify, mwp_pure]
        have h0 : m.ftable f0 = { T.ftable f0 with ref := 1 } := by
          rw [hm.ftable]
          simp [setFile, update_of_ne hne.symm]
        have h1 : m.ftable f1 = { T.ftable f1 with ref := 1 } := by
          rw [hm.ftable]
          simp [setFile, update_of_ne hne]
        simp only [setFile, update_of_ne hne] at ht1
        exact ⟨setFile f1 (pipeEnd m.npipe true) (setFile f0 (pipeEnd m.npipe false) (newPipe m)), _,
          ⟨hf0, hf1, ⟨hm.procs, hm.proc⟩, rfl⟩, Frame.refl _,
          hc.newPipe hf0 hf1 hne (by rw [h0]; exact Nat.one_pos) (by rw [h0]; exact ht0)
            (by rw [h1]; exact Nat.one_pos) (by rw [h1]; exact ht1)⟩
      · rw [Hold.addFile_comm]
        refine (triple_fileclose_addFile hf0).bind fun _ T' r' h => ?_
        rw [h.2]
        refine (triple_fileclose_addFile hf1).bind fun _ T'' r'' h' => .pure ⟨?_, h'.2⟩
        exact ⟨h'.1.1.trans h.1.1, h'.1.2.trans h.1.2⟩

theorem triple_sysPipe (mem : Bool) :
    Triple T Hold.none (sysPipe mem) fun _ _ r' => r' = Hold.none := by
  have close : ∀ {T : Mem} {rf wf : Nat}, rf < NFILE → wf < NFILE →
      Triple T ((Hold.none.addFile wf).addFile rf) (do fileclose rf; fileclose wf; return (-1 : Int))
        fun _ _ r' => r' = Hold.none := fun hrf hwf =>
    (triple_fileclose_addFile hrf).bind fun _ _ r' h => by
      rw [h.2]
      exact (triple_fileclose_addFile hwf).bind fun _ _ _ h => .pure h.2
  refine (triple_pipealloc mem).bind fun res T' r' h => ?_
  cases res with
  | none => exact .pure h.2
  | some x =>
    obtain ⟨hrf, hwf, -, rfl⟩ := h
    rw [Hold.addFile_comm]
    refine (triple_fdalloc_addFile hrf fun _ => notMem_empty _).bind fun res T'' r' h => ?_
    cases res with
    | none =>
      rw [h.2]
      exact close hrf hwf
    | some fd0 =>
      obtain ⟨-, ⟨e, he⟩, rfl, rfl⟩ := h
      refine (triple_fdalloc_addFile hwf fun _ => notMem_empty _).bind fun res T3 r' h => ?_
      cases res with
      | none =>
        obtain ⟨rfl, rfl⟩ := h
        refine (triple_clearFd (fdOf_withFd he fd0 x.1) (notMem_empty _)).bind
          fun _ T4 r' h => ?_
        rw [h.2]
        exact close hrf hwf
      | some fd1 => exact .pure h.2.2.2

/-! ### Processes -/

/-- The loop of `fork`: the code holds one more reference for each descriptor. -/
theorem triple_forkFiles {e : Proc} (he : T.procs T.proc = some e) (n fd : Nat)
    (hx : ∀ fd, (T.proc, fd) ∉ r.fd) :
    Triple T (r.addFiles e.ofile fd) (forkFiles n fd) fun _ T' r' => SameProcs T T' ∧
      r' = r.addFiles e.ofile (fd + n) := by
  induction n generalizing T fd with
  | zero => exact .pure ⟨⟨rfl, rfl⟩, rfl⟩
  | succ n ih =>
    rw [forkFiles]
    intro m hm hc
    have he' : m.procs m.proc = some e := by rw [hm.procs, hm.proc]; exact he
    rw [mwp_bind, mwp_get, show (curproc m).bind (fun p => p.ofile fd) = e.ofile fd by
      rw [curproc, he']; rfl]
    -- the rest of the loop, from tables with the same processes
    have rest : ∀ T', SameProcs T T' → Triple T' (r.addFiles e.ofile (fd + 1)) (forkFiles n (fd + 1))
        fun _ T'' r' => SameProcs T T'' ∧ r' = r.addFiles e.ofile (fd + (n + 1)) := fun T' h => by
      refine (ih (T := T') (by rw [h.1, h.2]; exact he) (fd + 1)
        (by rw [h.2]; exact hx)).mono fun _ T'' r' ⟨h1, h2⟩ => ?_
      refine ⟨⟨h1.1.trans h.1, h1.2.trans h.2⟩, ?_⟩
      rw [h2, Nat.add_assoc, Nat.add_comm 1 n]
    cases hf : e.ofile fd with
    | some f =>
      have hfd : fdOf m m.proc fd = some f := by rw [fdOf, he']; exact hf
      have hpos := hc.pos_of_fd hfd (by rw [hm.proc]; exact hx fd)
      refine (Triple.bind (triple_filedup (T := m) (hc.fd _ _ _ hfd).2 hpos) fun _ T' r' h => ?_)
        m (Frame.refl m) hc
      have hr : r' = r.addFiles e.ofile (fd + 1) := by
        rw [h.2.1, Hold.addFiles_succ_some r hf]
      rw [hr]
      exact rest T' ⟨h.1.1.trans hm.procs, h.1.2.trans hm.proc⟩
    | none =>
      rw [← Hold.addFiles_succ_none r hf] at hc
      exact rest m ⟨hm.procs, hm.proc⟩ m (Frame.refl m) hc

theorem triple_fork {e : Proc} (he : T.procs T.proc = some e) (c : Nat) (mem : Bool) :
    Triple T Hold.none (fork c mem) fun _ _ r' => r' = Hold.none := by
  intro m hm hc
  rw [fork, mwp_bind, mwp_getModify]
  by_cases hfree : c < NPROC ∧ (m.procs c).isNone
  · rw [if_pos hfree, if_pos hfree]
    have hnone : m.procs c = none := Option.isNone_iff_eq_none.mp hfree.2
    have he' : m.procs m.proc = some e := by rw [hm.procs, hm.proc]; exact he
    have hne : m.proc ≠ c := fun h => by
      rw [h, hnone] at he'
      cases he'
    have hembryo : Counts (setChild c (some embryo) m) Hold.none :=
      hc.setIdle hfree.1 (fun fd => by rw [fdOf, hnone]; rfl) (.inl (by rw [cwdOf, hnone]; rfl))
        (by rintro _ ⟨⟩; exact ⟨rfl, fun _ => rfl⟩)
    have hproc : ∀ T', SameProcs (setChild c (some embryo) m) T' →
        T'.procs T'.proc = some e ∧ T'.procs c = some embryo := fun T' h => by
      rw [h.1, h.2]
      exact ⟨(setChild_procs_of_ne m _ hne).trans he', setChild_procs_self ..⟩
    refine (Triple.ite (fun _ => ?_) fun _ => ?_ :
      Triple (setChild c (some embryo) m) Hold.none _ _) _ (Frame.refl _) hembryo
    · have h0 : Hold.none = Hold.none.addFiles e.ofile 0 := rfl
      rw [h0]
      refine (triple_forkFiles (hproc _ ⟨rfl, rfl⟩).1 NOFILE 0
        fun _ => notMem_empty _).bind fun _ T1 r1 h1 => ?_
      obtain ⟨h1, rfl⟩ := h1
      refine .get fun m1 hm1 hc1 => ?_
      obtain ⟨h2, h3⟩ := hproc m1 ⟨hm1.procs.trans h1.1, hm1.proc.trans h1.2⟩
      rw [show curproc m1 = some e from h2]
      dsimp only
      cases hcwd : e.cwd with
      | none => exact .halt (by decide)
      | some cwd =>
        refine (inodes_idup cwd).bindTriple fun _ r' h => ?_
        rw [h.2]
        refine .bind (.modify (P := fun _ _ r' => r' = Hold.none) fun m' hm' hc' => ⟨_, rfl, ?_⟩)
          fun _ _ _ h => .pure h
        have hcwd' : cwdOf m1 m1.proc = some cwd := by rw [cwdOf, h2]; exact hcwd
        have := Counts.fork (b := true) hfree.1 hc' hcwd (by rw [hm'.procs]; exact h3)
          (notMem_empty _) (fun _ => notMem_empty _) (hc1.cwd _ _ hcwd')
          fun fd f h => hc1.fd m1.proc fd f (by rw [fdOf, h2]; exact h)
        rw [hcwd] at this
        exact this
    · refine .bind (.modify (P := fun _ _ r' => r' = Hold.none) fun m' hm' hc' => ⟨_, rfl, ?_⟩)
        fun _ _ _ h => .pure h
      have h1 : m'.procs c = some embryo := by rw [hm'.procs]; exact setChild_procs_self ..
      exact hc'.setIdle hfree.1 (fun fd => by rw [fdOf, h1]; rfl) (.inl (by rw [cwdOf, h1]; rfl))
        (by rintro _ ⟨⟩)
  · rw [if_neg hfree, if_neg hfree, mwp_pure]
    exact ⟨T, _, rfl, hm, hc⟩

/-- The process running is in the table, and its first `n` descriptors are closed. -/
structure Closing (T : Mem) (p n : Nat) : Prop where
  proc : T.proc = p
  entry : ∃ e, T.procs p = some e
  closed : ∀ fd < n, fdOf T p fd = none

theorem fdOf_clearFd {p fd fd' : Nat} {e : Proc} (hp : T.proc = p) (he : T.procs p = some e) :
    fdOf (clearFd fd T) p fd' = if fd' = fd then none else fdOf T p fd' := by
  subst hp
  simp only [fdOf, clearFd, setProc, he, update_self, Option.map_some, Option.bind_some,
    update_apply]

/-- The loop of `exit` closes the descriptors that are left. -/
theorem triple_exitFiles {p : Nat} (n fd : Nat) (h : Closing T p fd) (hfd : fd + n = NOFILE) :
    Triple T Hold.none (exitFiles n fd) fun _ T' r' => Closing T' p NOFILE ∧ r' = Hold.none := by
  induction n generalizing T fd with
  | zero =>
    rw [show fd = NOFILE from hfd] at h
    exact .pure ⟨h, rfl⟩
  | succ n ih =>
    rw [exitFiles]
    refine .get fun m hm hc => ?_
    obtain ⟨e, he⟩ := h.entry
    have hproc : m.proc = p := hm.proc.trans h.proc
    have he' : m.procs p = some e := by rw [hm.procs]; exact he
    have hcl : ∀ fd' < fd, fdOf m p fd' = none := fun fd' h' => by
      rw [fdOf_congr hm]
      exact h.closed fd' h'
    have hcur : (curproc m).bind (fun q => q.ofile fd) = fdOf m p fd := by
      rw [curproc, hproc]
      rfl
    rw [hcur]
    cases hf : fdOf m p fd with
    | some f =>
      have hlt := hc.fd _ _ _ hf
      -- the descriptor still stands in the table while its file is closed
      refine .recount (u := (Hold.none.hideFd p fd).addFile f)
        (fun m' hm' hc' => hc'.hideFd (by rw [fdOf_congr hm']; exact hf) (notMem_empty _))
        ((triple_fileclose_addFile hlt.2).bind fun _ T' r' hT => ?_)
      rw [hT.2]
      have he1 : T'.procs p = some e := by rw [hT.1.1]; exact he'
      have hp1 : T'.proc = p := hT.1.2.trans hproc
      refine .bind (.modify (P := fun _ T'' r'' => Closing T'' p (fd + 1) ∧ r'' = Hold.none)
        fun m' hm' hc' => ?_) fun _ T'' r'' h' => ?_
      · have he2 : m'.procs p = some e := by rw [hm'.procs]; exact he1
        have hp2 : m'.proc = p := hm'.proc.trans hp1
        refine ⟨_, ⟨⟨hp2, ⟨{ e with ofile := update e.ofile fd none }, ?_⟩,
          fun fd' h' => ?_⟩, rfl⟩, ?_⟩
        · simp only [clearFd, setProc, hp2, update_self, he2, Option.map_some]
        · rw [fdOf_clearFd hp2 he2]
          split
          · rfl
          · rw [fdOf, hm'.procs, hT.1.1]
            exact hcl fd' (by omega)
        · have := hc'.clearFd (by rw [hp2]; exact he2) hlt.1
            (by rw [hp2]; exact mem_insert_self _ _)
          rw [hp2, Hold.showFd_hideFd _ (notMem_empty _)] at this
          exact this
      · rw [h'.2]
        exact ih _ h'.1 (by omega)
    | none =>
      refine ih (T := m) (fd + 1) ⟨hproc, ⟨e, he'⟩, fun fd' h' => ?_⟩ (by omega)
      rcases Nat.lt_succ_iff_lt_or_eq.mp h' with h' | rfl
      · exact hcl fd' h'
      · exact hf

theorem triple_exit {e : Proc} (he : T.procs T.proc = some e) :
    Triple T Hold.none exit fun _ _ r' => r' = Hold.none := by
  refine .bindStill still_get fun m => .ite (fun _ => .halt (by decide)) fun _ => ?_
  refine (triple_exitFiles NOFILE 0 ⟨rfl, ⟨e, he⟩, nofun⟩ (Nat.zero_add _)).bind
    fun _ T1 r1 ⟨h1, hr1⟩ => ?_
  rw [hr1]
  refine .get fun m hm hc => ?_
  have hp : m.proc = T.proc := hm.proc.trans h1.proc
  cases hcwd : (curproc m).bind Proc.cwd with
  | none => exact .halt (by decide)
  | some cwd =>
    refine .recount (u := (Hold.none.hideCwd m.proc).addIno cwd)
      (fun m' hm' hc' => hc'.hideCwd (by rw [cwdOf_congr hm']; exact hcwd) (notMem_empty _))
      (inodes_iput_addIno.bindTriple fun _ r' hr => ?_)
    rw [hr]
    refine .bind (.modify (P := fun _ _ r' => r' = Hold.none) fun m' hm' hc' => ⟨_, rfl, ?_⟩)
      fun _ _ _ h => .pure h
    have hfd : ∀ fd, fdOf m' m.proc fd = none := fun fd => by
      by_cases h : fd < NOFILE
      · rw [fdOf_congr hm', fdOf_congr hm, hp]
        exact h1.closed fd h
      · cases hf : fdOf m' m.proc fd with
        | none => rfl
        | some f => exact absurd (hc'.fd _ _ _ hf).1 h
    obtain ⟨e1, he1⟩ := h1.entry
    have hlt : m.proc < NPROC := by
      rw [hp]
      exact hc.proc _ e1 (by rw [hm.procs]; exact he1)
    have := hc'.setIdle (q := none) hlt hfd (.inr (mem_insert_self _ _)) nofun
    rw [Hold.showCwd_hideCwd _ (notMem_empty _)] at this
    rw [hm'.proc]
    exact this

/-! ### Calls -/

theorem triple_prog {e : Proc} (he : T.procs T.proc = some e) (c : Call) :
    Triple T Hold.none c.prog fun _ _ r' => r' = Hold.none := by
  have ofInodes : ∀ {p : K Int}, Inodes Hold.none p (fun _ r' => r' = Hold.none) →
      Triple T Hold.none p fun _ _ r' => r' = Hold.none := fun h => (h T).mono fun _ _ _ h => h.2
  cases c with
  | dup fd => exact triple_sysDup fd
  | read fd n => exact triple_withFd fd rfl fun f hf h0 => triple_fileread hf h0 _
  | write fd src n => exact triple_withFd fd rfl fun f hf h0 => triple_filewrite hf h0 src n
  | close fd => exact triple_sysClose fd
  | fstat fd =>
    refine triple_withFd fd rfl fun f _ _ => .bindStill (still_filestat f) fun x => ?_
    cases x with
    | none => exact .pure rfl
    | some _ => exact .pure rfl
  | link old new => exact ofInodes (inodes_sysLink old new)
  | unlink path => exact ofInodes (inodes_sysUnlink path)
  | «open» path omode => exact triple_sysOpen path omode
  | mkdir path => exact ofInodes (inodes_makeNode path _ _ _)
  | mknod path major minor => exact ofInodes (inodes_makeNode path _ _ _)
  | chdir path => exact triple_sysChdir path
  | exec path reads mem => exact ofInodes (inodes_sysExec path reads mem)
  | pipe mem => exact triple_sysPipe mem
  | fork c mem => exact triple_fork he c mem
  | exit => exact triple_exit he

theorem triple_invoke (p : Nat) (c : Call) :
    Triple T Hold.none (invoke p c) fun _ _ r' => r' = Hold.none := by
  refine .bind (.modify (P := fun _ _ r' => r' = Hold.none) fun m _ hc => ⟨_, rfl,
    hc.switch _⟩) fun _ T' r' h => ?_
  rw [h]
  refine .get fun m _ _ => .ite (fun h => ?_) fun _ => .pure rfl
  cases he : curproc m with
  | none =>
    rw [he] at h
    cases h
  | some e => exact (triple_prog he c).bind fun _ _ _ h => .pure h

theorem triple_calls (cs : List (Nat × Call)) :
    Triple T Hold.none (calls cs) fun _ _ r' => r' = Hold.none := by
  induction cs generalizing T with
  | nil => exact .pure rfl
  | cons x cs ih =>
    refine (triple_invoke x.1 x.2).bind fun _ T' r' h => ?_
    rw [h]
    exact ih

theorem triple_start (h : T.procs initproc = none) :
    Triple T Hold.none start fun _ _ r' => r' = Hold.none := by
  have hinit : Triple T Hold.none userinit fun _ _ r' => r' = Hold.none := by
    refine (inodes_namei [slash]).bindTriple fun res r' hr => .modify fun m hm hc => ?_
    have hnone : m.procs initproc = none := by rw [hm.procs]; exact h
    have hfd : ∀ fd, fdOf m initproc fd = none := fun fd => by rw [fdOf, hnone]; rfl
    have hcwd : cwdOf m initproc = none := by rw [cwdOf, hnone]; rfl
    cases res with
    | none =>
      rw [show r' = Hold.none from hr] at hc
      exact ⟨_, rfl, hc.setIdle (by decide) hfd (.inl hcwd) (by rintro _ ⟨⟩; exact ⟨rfl, fun _ => rfl⟩)⟩
    | some k =>
      rw [hr.2] at hc
      have h1 : Counts (setChild initproc (some embryo) m) (Hold.none.addIno k) :=
        hc.setIdle (by decide) hfd (.inl hcwd) (by rintro _ ⟨⟩; exact ⟨rfl, fun _ => rfl⟩)
      rw [← Hold.addFiles_none Hold.none NOFILE] at h1
      have h2 := Counts.fork (m := setChild initproc (some embryo) m) (r := Hold.none) (k := k)
        (e := ⟨true, some k, fun _ => none⟩) (p := initproc) (b := true) (by decide) h1 rfl
        (setChild_procs_self ..) (notMem_empty _) (fun _ => notMem_empty _) hr.1 (by rintro _ _ ⟨⟩)
      refine ⟨_, rfl, ?_⟩
      rw [setChild, setChild, update_idem] at h2
      exact h2
  refine hinit.bind fun _ T' r' h => ?_
  rw [h]
  refine .bind (.modify (P := fun _ _ r' => r' = Hold.none) fun m _ hc => ⟨_, rfl,
    hc.switch _⟩) fun _ T' r' h => ?_
  rw [h]
  exact (Triple.still still_initlog).mono fun _ _ _ h => h.2

end FileCode

/-! ### The result -/

/-- The counts of a memory are those of its tables: of a file the descriptors that hold it, of
an inode the files open on it and the processes that have it as current directory; a pipe has
an end open if and only if a file that is in use is that end, and it has been freed once if no end
is open and never otherwise. -/
structure ExactCounts (m : Mem) : Prop where
  file : ∀ f < NFILE, (m.ftable f).ref =
    ((Finset.range NPROC ×ˢ Finset.range NOFILE).filter fun x => fdOf m x.1 x.2 = some f).card
  ino : ∀ k < NINODE, (m.icache k).ref =
    ((Finset.range NFILE).filter fun f => OpenOn m f k).card +
      ((Finset.range NPROC).filter fun p => cwdOf m p = some k).card
  oneEnd : ∀ i w f g, PipeEnd m i w f → PipeEnd m i w g → f = g
  opened : ∀ i < m.npipe, ∀ w, (m.pipes i).opened w = true ↔ ∃ f, PipeEnd m i w f
  freed : ∀ i < m.npipe,
    (m.pipes i).frees = if (m.pipes i).readopen || (m.pipes i).writeopen then 0 else 1

theorem Counts.exact {m : Mem} (hc : Counts m Hold.none) : ExactCounts m := by
  refine ⟨fun f hf => ?_, fun k hk => ?_, hc.pipe.uniq, hc.pipe.opened, hc.pipe.freed⟩
  · rw [hc.file f hf, fdSet]
    change _ + 0 = _
    rw [Nat.add_zero]
    exact congrArg Finset.card (filter_congr fun x _ => and_iff_right (notMem_empty x))
  · rw [hc.ino k hk, openSet, cwdSet]
    change _ + _ + 0 = _
    rw [Nat.add_zero, Nat.add_comm]
    exact congrArg (_ + Finset.card ·)
      (filter_congr fun p _ => and_iff_right (notMem_empty p))

theorem counts_boot : Counts bootMem Hold.none := by
  have hopen : ∀ f k, ¬ OpenOn bootMem f k := fun f k h => Nat.lt_irrefl 0 h.1
  have hpipe : PipeCounts bootMem := ⟨fun i w f h => absurd h.2.1 (Nat.lt_irrefl 0),
    fun i w f g h => absurd h.2.1 (Nat.lt_irrefl 0), fun i hi => absurd hi (Nat.not_lt_zero i),
    fun i hi => absurd hi (Nat.not_lt_zero i)⟩
  refine ⟨fun k _ => ?_, fun f _ => ?_, fun _ _ _ => rfl, fun f _ k h => absurd h (hopen f k),
    fun _ _ h => (by cases h), fun _ _ _ h => (by cases h), fun _ _ h => (by cases h), hpipe⟩
  · rw [card_cwdSet, card_openSet]
    have h1 : ∀ p, cwdCount bootMem Hold.none p k = 0 := fun p => if_neg fun h => nomatch h.2
    have h2 : ∀ f, openCount bootMem f k = 0 := fun f => if_neg (hopen f k)
    simp only [h1, h2, sum_const_zero]
    rfl
  · rw [card_fdSet]
    have h1 : ∀ p fd, fdCount bootMem Hold.none p fd f = 0 := fun p fd => if_neg fun h => nomatch h.2
    simp only [h1, sum_const_zero]
    rfl

/-- **Reference counts are exact between calls**, from any disk, after any calls by any processes,
whatever failed on the way; and no call stops with a panic of `filedup` or `fileclose`. -/
theorem counts_exact_between_calls (d : Nat → Block) (lim : Bool) (cs : List (Nat × Call)) :
    match run limits lim (do start; calls cs) (boot d) with
    | .ok _ s => ExactCounts s.mem
    | .stop e _ => e ≠ .panic "filedup" ∧ e ≠ .panic "fileclose" := by
  have htriple : Triple bootMem Hold.none (do start; calls cs) fun _ _ r' => r' = Hold.none :=
    (triple_start rfl).bind fun _ T' r' h => by
      rw [h]
      exact triple_calls cs
  have hsat := run_of_mwp limits lim (s := boot d) (htriple bootMem (Frame.refl _) counts_boot)
  cases hrun : run limits lim (do start; calls cs) (boot d) with
  | ok a s =>
    rw [hrun] at hsat
    obtain ⟨T', r', rfl, -, hc⟩ := hsat
    exact hc.exact
  | stop e s =>
    rw [hrun] at hsat
    have hspared : ∀ msg, e = .panic msg → Spared msg := fun msg h => by
      rcases hsat msg h with h | h | h
      · exact h
      · rw [h]; decide
      · rw [h]; decide
    exact ⟨fun h => (hspared _ h).1 rfl, fun h => (hspared _ h).2 rfl⟩

/-- A pipe that a child shares is freed once, when the last of its ends is closed. -/
example : (run limits true (do
    start
    calls [(0, .pipe true), (0, .fork 1 true), (1, .exit), (0, .close 0), (0, .close 1)])
    (boot fun _ => zero)).returned
      (fun s => decide (s.mem.npipe = 1 ∧ (s.mem.pipes 0).frees = 1)) = true := by decide +kernel

end Xv6
