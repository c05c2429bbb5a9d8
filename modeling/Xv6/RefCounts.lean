import Xv6.Counts
import Xv6.Steps

/-!
# Code and the references it holds

How the functions of the kernel change what is counted in `Counts`, whatever is on disk and
whatever fails. Most code below the inode layer takes no references at all (`Still`: each of its
steps leaves the tables and the inode counts alone). The rest is described by triples that say
what the code holds when it starts and when it ends: `Inodes` for code that leaves the tables of
files and processes alone, which is all of `fs.c` and most system calls, and `Triple` in general.
-/

open Bytes Device

namespace Xv6

/-- `m'` has the tables of `m` and its inode counts. -/
structure SameCounts (m m' : Mem) : Prop extends Frame m m' where
  ref : ∀ k, (m'.icache k).ref = (m.icache k).ref

theorem SameCounts.refl (m : Mem) : SameCounts m m := ⟨Frame.refl m, fun _ => rfl⟩

theorem SameCounts.trans {m m' m'' : Mem} (h : SameCounts m m') (h' : SameCounts m' m'') : SameCounts m m'' :=
  ⟨h.toFrame.trans h'.toFrame, fun k => (h'.ref k).trans (h.ref k)⟩

theorem sameCounts_setInode (k : Nat) {g : Inode → Inode} (hg : ∀ ip, (g ip).ref = ip.ref) (m : Mem) :
    SameCounts m (setInode k g m) := by
  refine ⟨frame_setInode k g m, fun k' => ?_⟩
  by_cases hne : k' = k
  · subst hne
    rw [setInode_self, hg]
  · rw [setInode_of_ne m g hne]

theorem sameCounts_setFlags (k : Nat) (b v : Inode → Bool) (m : Mem) :
    SameCounts m (setInode k (fun ip => { ip with busy := b ip, valid := v ip }) m) :=
  sameCounts_setInode k (g := fun ip => { ip with busy := b ip, valid := v ip }) (fun _ => rfl) m

theorem sameCounts_setDinode (k : Nat) (g : Dinode → Dinode) (m : Mem) : SameCounts m (setDinode k g m) :=
  sameCounts_setInode k (g := fun ip => { ip with din := g ip.din }) (fun _ => rfl) m

theorem sameCounts_log (l : LogState → LogState) (m : Mem) : SameCounts m { m with log := l m.log } :=
  ⟨⟨rfl, rfl, rfl, rfl, rfl⟩, fun _ => rfl⟩

/-! ### Code that keeps the counts -/

/-- Code that leaves the tables and the inode counts alone at every step. -/
abbrev Still {α : Type} (p : K α) : Prop := Keeping SameCounts p

instance : Harmless SameCounts where
  refl := SameCounts.refl
  dinode := sameCounts_setDinode
  flags := sameCounts_setFlags
  header l m := sameCounts_log (fun x => { x with lh := l }) m
  input _ _ := ⟨⟨rfl, rfl, rfl, rfl, rfl⟩, fun _ => rfl⟩

section Still

theorem still_initlog : Still initlog :=
  .bind still_readsb fun sb =>
    .bind (.modify fun m =>
      sameCounts_log (fun l => { l with start := sb.size - sb.nlog, size := sb.nlog }) m) fun _ =>
    .bind (.bind still_get fun _ => .bind (.bread _) fun buf =>
      .bind (.modify fun m => sameCounts_log (fun l => { l with lh := getHeader buf }) m) fun _ =>
        .brelse _) fun _ => still_installAndErase

theorem still_beginTrans : Still beginTrans :=
  .bind .yield fun _ => .wait fun _ => ⟨⟨rfl, rfl, rfl, rfl, rfl⟩, fun _ => rfl⟩

theorem still_commitTrans : Still commitTrans := by
  rw [commitTrans_eq]
  exact .bind still_commitBody fun _ =>
    .modify fun m => sameCounts_log (fun l => { l with busy := false, owner := none }) m

end Still

/-! ### Code that takes and drops references -/

/-- Code that starts with the tables of `T` while `r` is held ends with tables and holdings
that satisfy `P`. -/
def Triple {α : Type} (T : Mem) (r : Hold) (p : K α) (P : α → Mem → Hold → Prop) : Prop :=
  ∀ m, Frame T m → Counts m r →
    mwp Spared p (fun a m' => ∃ T' r', P a T' r' ∧ Frame T' m' ∧ Counts m' r') m

/-- Code that leaves the tables alone, and ends holding what `R` says. -/
def Inodes {α : Type} (r : Hold) (p : K α) (R : α → Hold → Prop) : Prop :=
  ∀ T, Triple T r p fun a T' r' => T' = T ∧ R a r'

section Rules

variable {α β : Type} {T : Mem} {r : Hold} {p q : K α} {f : α → K β} {P : α → Mem → Hold → Prop}
  {P' : β → Mem → Hold → Prop} {R : α → Hold → Prop} {R' : β → Hold → Prop}

theorem Triple.mono {P' : α → Mem → Hold → Prop} (h : Triple T r p P)
    (hP : ∀ a T' r', P a T' r' → P' a T' r') : Triple T r p P' := fun m hf hc =>
  mwp_mono (h m hf hc) fun a _ ⟨T', r', h1, h2⟩ => ⟨T', r', hP a T' r' h1, h2⟩

theorem Triple.bind (hp : Triple T r p P) (hf : ∀ a T' r', P a T' r' → Triple T' r' (f a) P') :
    Triple T r (p >>= f) P' := fun m hm hc => by
  rw [mwp_bind]
  exact mwp_mono (hp m hm hc) fun a m' ⟨T', r', h1, h2, h3⟩ => hf a T' r' h1 m' h2 h3

theorem Triple.pure {a : α} (h : P a T r) : Triple T r (Pure.pure a) P := fun _ hf hc =>
  (mwp_pure a).mpr ⟨T, r, h, hf, hc⟩

theorem Triple.halt {msg : String} (h : Spared msg) : Triple T r (halt msg) P := fun _ _ _ =>
  (mwp_halt msg).mpr h

theorem Triple.still (h : Still p) : Triple T r p fun _ T' r' => T' = T ∧ r' = r :=
  fun _ hf hc => mwp_of_keeps SameCounts.refl SameCounts.trans h fun _ _ hq =>
    ⟨T, r, ⟨rfl, rfl⟩, hf.trans hq.toFrame,
      hc.frame hq.toFrame rfl rfl rfl fun k _ => by rw [hq.ref]⟩

theorem Triple.bindStill (h : Still p) (hf : ∀ a, Triple T r (f a) P') :
    Triple T r (p >>= f) P' := (Triple.still h).bind fun a _ _ ⟨hT, hr⟩ => by
  rw [hT, hr]
  exact hf a

/-- The memory that is read is one with the tables and counts at hand. -/
theorem Triple.get {f : Mem → K β} (hf : ∀ m, Frame T m → Counts m r → Triple m r (f m) P') :
    Triple T r (Device.get >>= f) P' := fun m hm hc => by
  rw [mwp_bind, mwp_get]
  exact hf m hm hc m (Frame.refl m) hc

theorem Triple.ite {c : Prop} [Decidable c] (hp : c → Triple T r p P) (hq : ¬ c → Triple T r q P) :
    Triple T r (if c then p else q) P := by
  split
  · exact hp ‹_›
  · exact hq ‹_›

theorem Triple.check {c : Prop} [Decidable c] {msg : String} {f : Unit → K α} (h : Spared msg)
    (hf : ¬ c → Triple T r (f ()) P) :
    Triple T r (if c then (Device.halt msg >>= f) else f ()) P := by
  split
  · exact (Triple.halt (P := fun _ _ _ => False) h).bind fun _ _ _ h => h.elim
  · exact hf ‹_›

theorem Triple.modify {g : Mem → Mem} {P : Unit → Mem → Hold → Prop}
    (h : ∀ m, Frame T m → Counts m r → ∃ r', P () (g m) r' ∧ Counts (g m) r') :
    Triple T r (modify g) P := fun m hf hc =>
  have ⟨r', h1, h2⟩ := h m hf hc
  (mwp_modify g).mpr ⟨g m, r', h1, Frame.refl _, h2⟩

theorem Triple.recount {u : Hold} (h : ∀ m, Frame T m → Counts m r → Counts m u)
    (hp : Triple T u p P) : Triple T r p P := fun m hf hc => hp m hf (h m hf hc)

theorem Inodes.mono {R' : α → Hold → Prop} (h : Inodes r p R) (hR : ∀ a r', R a r' → R' a r') :
    Inodes r p R' := fun T => (h T).mono fun a _ r' ⟨h1, h2⟩ => ⟨h1, hR a r' h2⟩

theorem Inodes.bind (hp : Inodes r p R) (hf : ∀ a r', R a r' → Inodes r' (f a) R') :
    Inodes r (p >>= f) R' := fun T => (hp T).bind fun a _ r' ⟨hT, hr⟩ => by
  rw [hT]
  exact hf a r' hr T

theorem Inodes.bindTriple (hp : Inodes r p R) (hf : ∀ a r', R a r' → Triple T r' (f a) P') :
    Triple T r (p >>= f) P' := (hp T).bind fun a _ r' ⟨hT, hr⟩ => by
  rw [hT]
  exact hf a r' hr

theorem Inodes.pure {a : α} (h : R a r) : Inodes r (Pure.pure a) R := fun _ => .pure ⟨rfl, h⟩

theorem Inodes.halt {msg : String} (h : Spared msg) : Inodes r (halt msg) R := fun _ => .halt h

theorem Inodes.still (h : Still p) (hf : ∀ a, Inodes r (f a) R') : Inodes r (p >>= f) R' :=
  fun _ => .bindStill h fun a => hf a _

theorem Inodes.get {f : Mem → K β} (hf : ∀ m, Counts m r → Inodes r (f m) R') :
    Inodes r (Device.get >>= f) R' := fun T m hm hc => by
  rw [mwp_bind, mwp_get]
  exact hf m hc T m hm hc

theorem Inodes.ite {c : Prop} [Decidable c] (hp : c → Inodes r p R) (hq : ¬ c → Inodes r q R) :
    Inodes r (if c then p else q) R := fun T => .ite (fun h => hp h T) fun h => hq h T

theorem Inodes.setInode {k : Nat} {g : Inode → Inode} {R : Unit → Hold → Prop} {r' : Hold}
    (hR : R () r') (h : ∀ m, Counts m r → Counts (setInode k g m) r') :
    Inodes r (Device.modify (Xv6.setInode k g)) R := fun T m hf hc =>
  (mwp_modify _).mpr ⟨T, r', ⟨rfl, hR⟩, hf.trans (frame_setInode k g m), h m hc⟩

end Rules

/-! ### Inodes -/

section InodeCode

variable {r : Hold} {k dp ip : Nat}

theorem inodes_iget (i : Nat) :
    Inodes r (iget i) fun k r' => k < NINODE ∧ r' = r.addIno k := fun T m hf hc => by
  simp only [iget, mwp_bind, mwp_yield, mwp_getModify]
  rw [igetMem]
  cases h1 : cachedSlot m.icache i with
  | some k =>
    exact (mwp_pure k).mpr ⟨T, _, ⟨rfl, (cachedSlot_eq_some h1).1, rfl⟩,
      hf.trans (frame_setInode k _ m), hc.addIno _ rfl⟩
  | none =>
    cases h2 : emptySlot m.icache with
    | some k =>
      refine (mwp_pure k).mpr ⟨T, _, ⟨rfl, (emptySlot_eq_some h2).1, rfl⟩,
        hf.trans (frame_setInode k _ m), hc.addIno _ ?_⟩
      rw [(emptySlot_eq_some h2).2]
    | none => exact (mwp_halt _).mpr (by decide)

theorem inodes_idup (k : Nat) : Inodes r (idup k) fun k' r' => k' = k ∧ r' = r.addIno k :=
  .still .yield fun _ => .bind (R := fun _ r' => r' = r.addIno k)
    (.setInode rfl fun _ hc => hc.addIno _ rfl) fun _ _ hr => .pure ⟨rfl, hr⟩

theorem inodes_iput (h0 : 0 < r.ino k) : Inodes r (iput k) fun _ r' => r' = r.subIno k := by
  have hend : Inodes r (modify (setInode k fun ip => { ip with ref := ip.ref - 1 }))
      fun _ r' => r' = r.subIno k := .setInode rfl fun _ hc => hc.subIno h0
  refine .still .yield fun _ => .get fun m _ => .ite (fun _ => ?_) fun _ => hend
  refine fun T => .check (by decide) fun _ => ?_
  refine Inodes.still (still_setFlags k (fun _ => true) Inode.valid) (fun _ =>
    .still (.emit _) fun _ => .still .yield fun _ => .still (still_itrunc k) fun _ =>
    .still (still_setDinode ..) fun _ => .still (still_iupdate k) fun _ => .still .yield fun _ =>
    .still (still_setFlags k (fun _ => false) fun _ => false) fun _ => hend) T

theorem inodes_iput_addIno : Inodes (r.addIno k) (iput k) fun _ r' => r' = r :=
  (inodes_iput (by rw [Hold.addIno_self]; omega)).mono fun _ _ h => by rw [h, Hold.subIno_addIno]

theorem inodes_iunlockput_addIno : Inodes (r.addIno k) (iunlockput k) fun _ r' => r' = r :=
  .still (still_iunlock k) fun _ => inodes_iput_addIno

theorem Hold.addIno_comm (r : Hold) (a b : Nat) :
    (r.addIno a).addIno b = (r.addIno b).addIno a := by
  unfold Hold.addIno
  congr 1
  funext k
  by_cases ha : k = a <;> by_cases hb : k = b <;> simp_all [Function.update]

theorem inodes_iunlockput_addIno_addIno {k' : Nat} :
    Inodes ((r.addIno k).addIno k') (iunlockput k) fun _ r' => r' = r.addIno k' := by
  rw [Hold.addIno_comm]
  exact inodes_iunlockput_addIno

/-- A search that found an inode holds a reference to it. -/
def Got {β : Type} (r : Hold) : Option (Nat × β) → Hold → Prop
  | none, r' => r' = r
  | some (k, _), r' => k < NINODE ∧ r' = r.addIno k

theorem inodes_dirlookup (dp : Nat) (name : List UInt8) :
    Inodes r (dirlookup dp name) (Got r) := by
  have loop : ∀ n off, Inodes r (dirlookupLoop dp name n off) (Got r) := fun n => by
    induction n with
    | zero => exact fun _ => .pure rfl
    | succ n ih =>
      refine fun off => .get fun m _ => .ite (fun _ => .still (still_readi ..) fun res => ?_)
        fun _ => .pure rfl
      cases res with
      | none => exact .halt (by decide)
      | some x =>
        refine .ite (fun _ => .halt (by decide)) fun _ => .ite (fun _ => ih _) fun _ =>
          .ite (fun _ => ?_) fun _ => ih _
        exact (inodes_iget _).bind fun k r' h => .pure h
  exact .get fun m _ T => .check (by decide) fun _ => loop _ _ T

theorem inodes_dirlink (dp : Nat) (name : List UInt8) (inum : Nat) :
    Inodes r (dirlink dp name inum) fun _ r' => r' = r := by
  refine (inodes_dirlookup dp name).bind fun res r' h => ?_
  cases res with
  | some x =>
    rw [h.2]
    exact inodes_iput_addIno.bind fun _ _ h => .pure h
  | none =>
    rw [show r' = r from h]
    refine .get fun m _ => .still (still_dirlinkLoop ..) fun off => ?_
    have hend : Inodes r (do
        let w ← writei dp (direntBytes ⟨inum, strncpy (cname name) DIRSIZ⟩) off DESIZE
        if w ≠ DESIZE then halt "dirlink"
        return (0 : Int)) fun _ r' => r' = r :=
      .still (still_writei ..) fun _ T => .check (by decide) fun _ => .pure ⟨rfl, rfl⟩
    exact .ite (fun _ => .still (.emit _) fun _ => hend) fun _ => hend

theorem length_skipelem {path rest : Path} {name : List UInt8}
    (h : skipelem path = some (rest, name)) : rest.length < path.length := by
  rw [skipelem] at h
  split at h
  · cases h
  · next hs =>
    cases h
    have h1 := (List.dropWhile_suffix (l := path) (· == slash)).length_le
    have h2 := (List.dropWhile_suffix
      (l := (path.dropWhile (· == slash)).dropWhile (· != slash)) (· == slash)).length_le
    -- the first element is not empty
    cases hp : path.dropWhile (· == slash) with
    | nil => exact absurd hp hs
    | cons c cs =>
      have hc : (c == slash) = false := by
        have := List.head_dropWhile_not (p := (· == slash)) (l := path) (by rw [hp]; nofun)
        simpa [hp] using this
      have h3 : (List.dropWhile (· != slash) (c :: cs)) = List.dropWhile (· != slash) cs := by
        rw [List.dropWhile_cons_of_pos]
        simpa using hc
      have h4 := (List.dropWhile_suffix (l := cs) (· != slash)).length_le
      rw [hp] at h1 h2
      rw [h3] at h2 ⊢
      simp only [List.length_cons] at h1
      omega

/-- The path bounds the number of rounds, so the loop ends before it runs out of them. -/
theorem inodes_namexLoop (parent : Bool) (n : Nat) (ip : Nat) (hip : ip < NINODE) (path : Path)
    (name : List UInt8) (hn : path.length < n) :
    Inodes (r.addIno ip) (namexLoop parent n ip path name) (Got r) := by
  induction n generalizing ip path name with
  | zero => exact absurd hn (Nat.not_lt_zero _)
  | succ n ih =>
    rw [namexLoop]
    cases hs : skipelem path with
    | none =>
      exact .ite (fun _ => inodes_iput_addIno.bind fun _ _ h => .pure h) fun _ => .pure ⟨hip, rfl⟩
    | some x =>
      have hlen := length_skipelem hs
      refine .still (still_ilock ip) fun _ => .get fun m _ => .ite (fun _ => ?_) fun _ =>
        .ite (fun _ => .still (still_iunlock ip) fun _ => .pure ⟨hip, rfl⟩) fun _ => ?_
      · exact inodes_iunlockput_addIno.bind fun _ _ h => .pure h
      · refine (inodes_dirlookup _ _).bind fun res r' h => ?_
        cases res with
        | none =>
          rw [show r' = r.addIno ip from h]
          exact inodes_iunlockput_addIno.bind fun _ _ h => .pure h
        | some x =>
          rw [h.2]
          refine inodes_iunlockput_addIno_addIno.bind fun _ r'' h' => ?_
          rw [h']
          exact ih _ h.1 _ _ (by omega)

theorem inodes_namex (path : Path) (parent : Bool) : Inodes r (namex path parent) (Got r) := by
  refine .bind (R := fun k r' => k < NINODE ∧ r' = r.addIno k) (.ite (fun _ => inodes_iget _)
    fun _ => .get fun m hc => ?_) fun ip r' h => ?_
  · cases hcwd : (m.procs m.proc).bind Proc.cwd with
    | some k =>
      refine (inodes_idup k).mono fun k' r' h => ?_
      rw [h.1]
      exact ⟨hc.cwd m.proc k hcwd, h.2⟩
    | none => exact .halt (by decide)
  · rw [h.2]
    exact inodes_namexLoop parent _ ip h.1 path [] (Nat.lt_succ_self _)

/-- What `namei` holds when it returns. -/
def GotIno (r : Hold) : Option Nat → Hold → Prop
  | none, r' => r' = r
  | some k, r' => k < NINODE ∧ r' = r.addIno k

theorem inodes_namei (path : Path) : Inodes r (namei path) (GotIno r) := by
  refine (inodes_namex path false).bind fun res r' h => ?_
  cases res with
  | none => exact .pure h
  | some x => exact .pure h

theorem inodes_ialloc (type : Int) :
    Inodes r (ialloc type) fun k r' => k < NINODE ∧ r' = r.addIno k := by
  have loop : ∀ sb n inum, Inodes r (iallocLoop sb type n inum)
      fun k r' => k < NINODE ∧ r' = r.addIno k := fun sb n => by
    induction n with
    | zero => exact fun _ => .halt (by decide)
    | succ n ih =>
      intro inum
      rw [iallocLoop]
      refine Inodes.ite (fun _ => ?_) fun _ => .halt (by decide)
      refine Inodes.still ?_ ?_
      · exact .bread _
      intro bp
      generalize getDinode bp _ = d
      refine .ite (fun _ => ?_) fun _ => .still (.brelse _) fun _ => ih _
      exact .still (still_logWrite ..) fun _ => .still (.brelse _) fun _ => inodes_iget _
  exact .still .yield fun _ => .still still_readsb fun sb => loop sb _ _

/-! ### Calls that leave the tables alone -/

theorem inodes_commit {a : Int} {R : Int → Hold → Prop} (h : R a r) :
    Inodes r (do commitTrans; return a) R := .still still_commitTrans fun _ => .pure h

theorem inodes_linkBad : Inodes (r.addIno ip) (linkBad ip) fun _ r' => r' = r :=
  .still (still_ilock ip) fun _ => .still (still_decLink ip) fun _ => .still (still_iupdate ip) fun _ =>
    inodes_iunlockput_addIno.bind fun _ _ h => inodes_commit h

theorem inodes_sysLink (old new : Option Path) : Inodes r (sysLink old new) fun _ r' => r' = r := by
  cases old with
  | none => exact .pure rfl
  | some old =>
    cases new with
    | none => exact .pure rfl
    | some new =>
      refine (inodes_namei old).bind fun res r' h => ?_
      cases res with
      | none => exact .pure h
      | some ip =>
        rw [h.2]
        refine .still still_beginTrans fun _ => .still (still_ilock ip) fun _ => .get fun m _ =>
          .ite (fun _ => inodes_iunlockput_addIno.bind fun _ _ h => inodes_commit h) fun _ => ?_
        refine .still (still_incLink ip) fun _ => .still (still_iupdate ip) fun _ =>
          .still (still_iunlock ip) fun _ => (inodes_namex new true).bind fun res r' h => ?_
        cases res with
        | none =>
          rw [show r' = r.addIno ip from h]
          exact inodes_linkBad
        | some x =>
          rw [h.2]
          refine .still (still_ilock _) fun _ => .get fun m _ =>
            (inodes_dirlink _ _ _).bind fun w r' h => ?_
          rw [h]
          refine .ite (fun _ => ?_) fun _ => ?_
          · refine inodes_iunlockput_addIno.bind fun _ r' h => ?_
            rw [h]
            exact inodes_linkBad
          · refine inodes_iunlockput_addIno.bind fun _ r' h => ?_
            rw [h]
            exact inodes_iput_addIno.bind fun _ _ h => inodes_commit h

theorem inodes_unlinkBad : Inodes (r.addIno dp) (unlinkBad dp) fun _ r' => r' = r :=
  inodes_iunlockput_addIno.bind fun _ _ h => inodes_commit h

theorem inodes_unlinkEntry (off : Nat) :
    Inodes ((r.addIno dp).addIno ip) (unlinkEntry dp ip off) fun _ r' => r' = r := by
  have hlast : Inodes ((r.addIno dp).addIno ip) (do
      iunlockput dp; decLink ip; iupdate ip; iunlockput ip; commitTrans; return (0 : Int))
      fun _ r' => r' = r := by
    refine inodes_iunlockput_addIno_addIno.bind fun _ r' h => ?_
    rw [h]
    exact .still (still_decLink ip) fun _ => .still (still_iupdate ip) fun _ =>
      inodes_iunlockput_addIno.bind fun _ _ h => inodes_commit h
  have hwrite : Inodes ((r.addIno dp).addIno ip) (do
      let w ← writei dp zero off DESIZE
      if w ≠ DESIZE then halt "unlink: writei"
      else
        let m ← get
        if (m.icache ip).din.type = T_DIR then
          decLink dp
          iupdate dp
        iunlockput dp
        decLink ip
        iupdate ip
        iunlockput ip
        commitTrans
        return (0 : Int)) fun _ r' => r' = r :=
    .still (still_writei ..) fun _ => .ite (fun _ => .halt (by decide)) fun _ => .get fun m _ =>
      .ite (fun _ => .still (still_decLink dp) fun _ => .still (still_iupdate dp) fun _ => hlast)
        fun _ => hlast
  exact .get fun m _ => .ite (fun _ => .still (.emit _) fun _ => hwrite) fun _ => hwrite

theorem inodes_sysUnlink (path : Option Path) :
    Inodes r (sysUnlink path) fun _ r' => r' = r := by
  cases path with
  | none => exact .pure rfl
  | some path =>
    refine (inodes_namex path true).bind fun res r' h => ?_
    cases res with
    | none => exact .pure h
    | some x =>
      rw [h.2]
      refine .still still_beginTrans fun _ => .still (still_ilock _) fun _ =>
        .ite (fun _ => inodes_unlinkBad) fun _ => (inodes_dirlookup _ _).bind fun res r' h => ?_
      cases res with
      | none =>
        rw [show r' = r.addIno x.1 from h]
        exact inodes_unlinkBad
      | some y =>
        rw [h.2]
        refine .still (still_ilock _) fun _ => .get fun m _ => .ite (fun _ => .halt (by decide))
          fun _ => .ite (fun _ => .still (still_isdirempty _) fun b => .ite
            (fun _ => inodes_unlinkEntry _) fun _ => ?_) fun _ => inodes_unlinkEntry _
        refine inodes_iunlockput_addIno.bind fun _ r' h => ?_
        rw [h]
        exact inodes_unlinkBad

theorem inodes_createNew (name : List UInt8) (type major minor : Int) :
    Inodes (r.addIno dp) (createNew dp name type major minor)
      fun k r' => k < NINODE ∧ r' = r.addIno k := by
  refine (inodes_ialloc type).bind fun ip r' h => ?_
  rw [h.2]
  have hdots : Inodes ((r.addIno dp).addIno ip) (createDots ip dp)
      fun _ r' => r' = (r.addIno dp).addIno ip := by
    refine .still (still_incLink dp) fun _ => .still (still_iupdate dp) fun _ => .get fun m _ =>
      (inodes_dirlink _ _ _).bind fun w r' h => ?_
    rw [h]
    refine .ite (fun _ => .halt (by decide)) fun _ => (inodes_dirlink _ _ _).bind fun w r' h => ?_
    rw [h]
    exact .ite (fun _ => .halt (by decide)) fun _ => .pure rfl
  have hlast : Inodes ((r.addIno dp).addIno ip) (do
      let m ← get
      let w ← dirlink dp name (m.icache ip).inum
      if w < 0 then halt "create: dirlink"
      else
        iunlockput dp
        return ip) fun k r' => k < NINODE ∧ r' = r.addIno k := by
    refine .get fun m _ => (inodes_dirlink _ _ _).bind fun w r' h' => ?_
    rw [h']
    exact .ite (fun _ => .halt (by decide)) fun _ =>
      inodes_iunlockput_addIno_addIno.bind fun _ _ h' => .pure ⟨h.1, h'⟩
  refine .still (still_ilock ip) fun _ => .still (still_setDinode ..) fun _ =>
    .still (still_iupdate ip) fun _ => .ite (fun _ => hdots.bind fun _ r' h' => ?_) fun _ => hlast
  rw [h']
  exact hlast

theorem inodes_create (path : Path) (type major minor : Int) :
    Inodes r (create path type major minor) (GotIno r) := by
  refine (inodes_namex path true).bind fun res r' h => ?_
  cases res with
  | none => exact .pure h
  | some x =>
    rw [h.2]
    refine .still (still_ilock _) fun _ => (inodes_dirlookup _ _).bind fun res r' h => ?_
    cases res with
    | none =>
      rw [show r' = r.addIno x.1 from h]
      exact (inodes_createNew _ _ _ _).bind fun _ _ h => .pure h
    | some y =>
      rw [h.2]
      refine inodes_iunlockput_addIno_addIno.bind fun _ r' h' => ?_
      rw [h']
      refine .still (still_ilock _) fun _ => .get fun m _ => .ite (fun _ => .pure ⟨h.1, rfl⟩)
        fun _ => inodes_iunlockput_addIno.bind fun _ _ h => .pure h

theorem inodes_makeNode (path : Option Path) (type major minor : Int) :
    Inodes r (makeNode path type major minor) fun _ r' => r' = r := by
  refine .still still_beginTrans fun _ => ?_
  cases path with
  | none => exact inodes_commit rfl
  | some path =>
    refine (inodes_create path type major minor).bind fun res r' h => ?_
    cases res with
    | none => exact inodes_commit h
    | some ip =>
      rw [h.2]
      exact inodes_iunlockput_addIno.bind fun _ _ h => inodes_commit h

theorem inodes_sysExec (path : Option Path) (reads : List (Nat × Nat)) (mem : Bool) :
    Inodes r (sysExec path reads mem) fun _ r' => r' = r := by
  cases path with
  | none => exact .pure rfl
  | some path =>
    refine (inodes_namei path).bind fun res r' h => ?_
    cases res with
    | none => exact .pure h
    | some ip =>
      rw [h.2]
      exact .still (still_ilock ip) fun _ => .still (still_execReads ..) fun _ =>
        inodes_iunlockput_addIno.bind fun _ _ h => .pure h

end InodeCode

end Xv6
