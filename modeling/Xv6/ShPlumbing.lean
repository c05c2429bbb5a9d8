import Xv6.ShRun

/-!
# The plumbing of pipelines

Whenever `runcmd` is entered, and whenever it calls `exec` or `wait`, the process has the descriptors
0, 1 and 2 and no others; the left side of a pipe has its write end as descriptor 1, the right side
its read end as descriptor 0 (`plumbing`). This is shown for the code of the shell on its own, whatever
its calls return (`wp_runcmd`), and then for the system: each step keeps it for every process (`Inv.step`).

Between these calls a process may have further descriptors (`Act.settled` says when it is not there),
but then its next call waits for nobody.
-/

open Function

namespace Xv6

namespace Sh

open Relation

variable {α β : Type} {t t' : Table} {f : File} {fd i n n0 : Nat} {two : Option File} {l l' : Local}
  {cmd : Cmd (List Char)} {c : SysCall}

/-! ### Tables -/

/-- The descriptors 0, 1 and 2 are open, and no others. -/
def Std (t : Table) : Prop := ∀ fd, (t fd).isSome ↔ fd < 3

theorem Std.none (h : Std t) (hfd : 3 ≤ fd) : t fd = none :=
  Option.not_isSome_iff_eq_none.mp fun hs => absurd ((h fd).mp hs) (by omega)

theorem Std.update (h : Std t) (hi : i < 3) (f : File) : Std (Function.update t i (some f)) := by
  intro fd
  by_cases hfd : fd = i
  · subst hfd
    simp [hi]
  · rw [update_of_ne hfd]
    exact h fd

theorem firstFree_eq (hi : i < NOFILE) (hlt : ∀ j < i, (t j).isSome) (hnone : t i = none) :
    firstFree t = some i := by
  rw [firstFree, List.find?_range_eq_some]
  refine ⟨by rw [hnone]; rfl, List.mem_range.mpr hi, fun j hj => ?_⟩
  simpa using hlt j hj

/-- A descriptor that was just closed is the next one, if those before it are open. -/
theorem fdalloc_sysClose (hi : i < NOFILE) (hlt : ∀ j < i, (t j).isSome) (f : File) :
    fdalloc (sysClose t i) f = some (i, Function.update t i (some f)) := by
  have hfree : firstFree (sysClose t i) = some i := by
    refine firstFree_eq hi (fun j hj => ?_) (update_self ..)
    rw [sysClose, update_of_ne (by omega)]
    exact hlt j hj
  rw [fdalloc, hfree, Option.map_some, sysClose, update_idem]

/-- The table with both ends of the pipe `n`. -/
def piped (t : Table) (n : Nat) : Table :=
  Function.update (Function.update t 3 (some (.pipe n false))) 4 (some (.pipe n true))

theorem Std.sysPipe (h : Std t) (n : Nat) : sysPipe t n = some ((3, 4), piped t n) := by
  have h3 : firstFree t = some 3 :=
    firstFree_eq (by decide) (fun j hj => (h j).mpr hj) (h.none (le_refl 3))
  have h4 : firstFree (Function.update t 3 (some (File.pipe n false))) = some 4 := by
    refine firstFree_eq (by decide) (fun j hj => ?_) ?_
    · by_cases hj3 : j = 3
      · subst hj3
        simp
      · rw [update_of_ne hj3]
        exact (h j).mpr (by omega)
    · rw [update_of_ne (by decide)]
      exact h.none (by decide)
  simp only [Sh.sysPipe, fdalloc, h3, h4, Option.map_some, Option.bind_eq_bind, Option.bind_some]
  rfl

theorem Std.isSome_piped (h : Std t) : ∀ j < 5, (piped t n j).isSome := by
  intro j hj
  unfold piped
  by_cases h4 : j = 4
  · subst h4
    simp
  rw [update_of_ne h4]
  by_cases h3 : j = 3
  · subst h3
    simp
  rw [update_of_ne h3]
  exact (h j).mpr (by omega)

theorem Std.close_piped (h : Std t) : sysClose (sysClose (piped t n) 3) 4 = t := by
  funext fd
  by_cases h4 : fd = 4
  · subst h4
    simp [sysClose, h.none]
  · by_cases h3 : fd = 3
    · subst h3
      simp [sysClose, h.none]
    · simp [sysClose, piped, h3, h4]

/-- What a child of a pipeline does: one end takes the place of descriptor `i`, and both are closed. -/
theorem Std.replace (h : Std t) (hi : i < 3) (he : piped t n fd = some f) (hfd : 3 ≤ fd) :
    sysDup (sysClose (piped t n) i) fd = ((i : Int), Function.update (piped t n) i (some f)) ∧
    sysClose (sysClose (Function.update (piped t n) i (some f)) 3) 4 =
      Function.update t i (some f) := by
  constructor
  · have he' : sysClose (piped t n) i fd = some f := by
      rw [sysClose, update_of_ne (by omega), he]
    have halloc := fdalloc_sysClose (t := piped t n) (show i < NOFILE by
      have : NOFILE = 16 := rfl
      omega) (fun j hj => h.isSome_piped j (by omega)) f
    simp only [sysDup, he', halloc]
  · have h3 : i ≠ 3 := by omega
    have h4 : i ≠ 4 := by omega
    rw [sysClose, sysClose, update_comm h3, update_comm h4]
    exact congrArg (Function.update · i (some f)) h.close_piped

/-! ### The code of the shell -/

/-- What holds when `runcmd` is entered, and at its calls of `exec` and `wait`. Descriptor 2 is the
one from the start, and a write end of a pipe made since then belongs to the left side of it. -/
structure Good (n0 : Nat) (two : Option File) (l : Local) : Prop where
  std : Std l.ofile
  two : l.ofile 2 = two
  writer : ∀ fd n, l.ofile fd = some (.pipe n true) → n0 ≤ n → (n, Side.left) ∈ l.sides
  /-- Pipes made since then are only on 0 and 1. -/
  ends : ∀ fd n w, l.ofile fd = some (.pipe n w) → n0 ≤ n → fd = 0 ∨ fd = 1

/-- How the descriptors differ from those of the command above. -/
def Entered (l : Local) (cmd : Cmd (List Char)) : Role → Prop
  | .top => True
  | .redir => ∃ file mode fd, l.node = .redir cmd file mode fd ∧
      l.ofile = Function.update l.entry fd (some (.inode file mode))
  | .first => (∃ right, l.node = .list cmd right) ∧ l.ofile = l.entry
  | .rest => (∃ left, l.node = .list left cmd) ∧ l.ofile = l.entry
  | .left => ∃ right n, l.node = .pipe cmd right ∧ l.pipe = some n ∧
      l.ofile 1 = some (.pipe n true) ∧ l.ofile 0 = l.entry 0 ∧ l.ofile 2 = l.entry 2
  | .right => ∃ left n, l.node = .pipe left cmd ∧ l.pipe = some n ∧
      l.ofile 0 = some (.pipe n false) ∧ l.ofile 1 = l.entry 1 ∧ l.ofile 2 = l.entry 2
  | .back => l.node = .back cmd ∧ l.ofile = l.entry

/-- What must hold before a call. -/
def Before (n0 : Nat) (two : Option File) : SysCall → Local → Prop
  | .enter role cmd, l => Good n0 two (l.enter role cmd) ∧ Entered l cmd role
  | .exec _ _, l => Good n0 two l
  | .wait, l => Good n0 two l
  | .pipe, l => l.pipe = none
  | _, _ => True

/-- The weakest precondition of code: what must hold before its calls does, whatever the calls
return, and so does `Q` at the end. A pipe that it makes is a new one. -/
def wp (n0 : Nat) (two : Option File) (Q : α → Local → Prop) : Code α → Local → Prop
  | .ret a, l => Q a l
  | .call c k, l => Before n0 two c l ∧ ∀ n r l', n0 ≤ n → (∀ fd w, l.ofile fd ≠ some (.pipe n w)) →
      After n c l r l' → wp n0 two Q (k r) l'

section Wp

variable {Q Q' : α → Local → Prop} {R : β → Local → Prop} {x : Code α} {g : α → Code β}

theorem wp_mono (h : wp n0 two Q x l) (hQ : ∀ a l, Q a l → Q' a l) : wp n0 two Q' x l := by
  induction x generalizing l with
  | ret a => exact hQ a l h
  | call c k ih => exact ⟨h.1, fun n r l' hn hu ha => ih r (h.2 n r l' hn hu ha)⟩

theorem wp_bind : wp n0 two R (x >>= g) l ↔ wp n0 two (fun a l => wp n0 two R (g a) l) x l := by
  change wp n0 two R (x.bind g) l ↔ _
  induction x generalizing l with
  | ret a => exact Iff.rfl
  | call c k ih =>
    exact and_congr Iff.rfl (forall_congr' fun n => forall_congr' fun r => forall_congr' fun l' =>
      imp_congr Iff.rfl (imp_congr Iff.rfl (imp_congr Iff.rfl (ih r))))

theorem wp_sys {Q : c.Ret → Local → Prop} : wp n0 two Q (sys c) l ↔ Before n0 two c l ∧
    ∀ n r l', n0 ≤ n → (∀ fd w, l.ofile fd ≠ some (.pipe n w)) → After n c l r l' → Q r l' := Iff.rfl

theorem wp_exit : wp n0 two Q exit l := ⟨trivial, fun _ r => r.elim⟩

theorem wp_panic (s : String) : wp n0 two Q (panic s) l := by
  rw [panic, wp_bind, wp_sys]
  exact ⟨trivial, fun _ _ _ _ _ _ => wp_exit⟩

theorem wp_close {Q : Int → Local → Prop}
    (h : ∀ r, Q r { l with ofile := sysClose l.ofile fd }) : wp n0 two Q (sys (.close fd)) l := by
  refine wp_sys.mpr ⟨trivial, fun n r l' _ _ ha => ?_⟩
  rw [show l' = _ from ha]
  exact h r

theorem wp_dup {Q : Int → Local → Prop} {r : Int} (hd : sysDup l.ofile fd = (r, t))
    (h : Q r { l with ofile := t }) : wp n0 two Q (sys (.dup fd)) l := by
  refine wp_sys.mpr ⟨trivial, fun n r' l' _ _ ⟨t', h1, h2⟩ => ?_⟩
  rw [hd] at h1
  obtain ⟨rfl, rfl⟩ := Prod.mk.inj h1
  rw [h2]
  exact h

/-- Both processes go on from the same state, and the child does not return. -/
theorem wp_forkChild {Q : Unit → Local → Prop} {child : Code Unit}
    (hchild : wp n0 two (fun _ _ => False) child l) (h : Q () l) :
    wp n0 two Q (forkChild child) l := by
  rw [forkChild, wp_bind, fork1, wp_bind, wp_sys]
  refine ⟨trivial, fun n r l' _ _ ha => ?_⟩
  obtain rfl : l' = l := ha
  split
  · exact wp_panic _
  · change wp n0 two Q (if r = 0 then child else _) l'
    split
    · exact wp_mono hchild fun _ _ => False.elim
    · exact h

end Wp

/-- Redirections are of descriptors 0 and 1. -/
def FdOk : Cmd (List Char) → Prop
  | .exec _ => True
  | .redir cmd _ _ fd => FdOk cmd ∧ fd ≤ 1
  | .pipe left right => FdOk left ∧ FdOk right
  | .list left right => FdOk left ∧ FdOk right
  | .back cmd => FdOk cmd

/-- The process has entered `cmd`. -/
structure Fresh (n0 : Nat) (two : Option File) (cmd : Cmd (List Char)) (l : Local) : Prop where
  good : Good n0 two l
  node : l.node = cmd
  entry : l.entry = l.ofile
  pipe : l.pipe = none

theorem wp_enter {Q : Int → Local → Prop} {role : Role} (hgood : Good n0 two (l.enter role cmd))
    (hrole : Entered l cmd role) (h : ∀ r, Fresh n0 two cmd (l.enter role cmd) →
      Q r (l.enter role cmd)) : wp n0 two Q (sys (.enter role cmd)) l := by
  refine wp_sys.mpr ⟨⟨hgood, hrole⟩, fun n r l' _ _ ha => ?_⟩
  rw [show l' = _ from ha]
  exact h r ⟨hgood, rfl, rfl, rfl⟩

theorem Good.enter (h : Good n0 two l) {role : Role} (hl : role ≠ .left) (hr : role ≠ .right) :
    Good n0 two (l.enter role cmd) := by
  have hsides : (l.enter role cmd).sides = l.sides := by
    cases role <;> first | rfl | contradiction
  exact ⟨h.std, h.two, fun fd n hf hn => hsides ▸ h.writer fd n hf hn, h.ends⟩

theorem Good.redirect (h : Good n0 two l) (hi : i ≤ 1) (file : List Char) (mode : Nat) :
    Good n0 two { l with ofile := Function.update l.ofile i (some (.inode file mode)) } where
  std := h.std.update (by omega) _
  two := by
    change Function.update l.ofile i _ 2 = two
    rw [update_of_ne (by omega)]
    exact h.two
  writer fd n hf hn := by
    change Function.update l.ofile i _ fd = _ at hf
    by_cases hfd : fd = i
    · rw [hfd, update_self] at hf
      cases hf
    · rw [update_of_ne hfd] at hf
      exact h.writer fd n hf hn
  ends fd n w hf hn := by
    change Function.update l.ofile i _ fd = _ at hf
    by_cases hfd : fd = i
    · omega
    · rw [update_of_ne hfd] at hf
      exact h.ends fd n w hf hn

/-- An end of a new pipe in place of descriptor 0 or 1, on its side of the pipe. -/
theorem Good.side (h : Good n0 two l) {side : Side} (hi : i ≤ 1) {w : Bool} (hw : w = true →
    side = .left) {l' : Local} (hfile : l'.ofile = Function.update l.ofile i (some (.pipe n w)))
    (hsides : l'.sides = (n, side) :: l.sides) : Good n0 two l' where
  std := hfile ▸ h.std.update (by omega) _
  two := by
    rw [hfile, update_of_ne (by omega)]
    exact h.two
  writer fd n' hf hn := by
    rw [hsides]
    rw [hfile] at hf
    by_cases hfd : fd = i
    · rw [hfd, update_self] at hf
      cases hf
      rw [hw rfl]
      exact List.mem_cons_self
    · rw [update_of_ne hfd] at hf
      exact List.mem_cons_of_mem _ (h.writer fd n' hf hn)
  ends fd n' w' hf hn := by
    rw [hfile] at hf
    by_cases hfd : fd = i
    · omega
    · rw [update_of_ne hfd] at hf
      exact h.ends fd n' w' hf hn

/-- A child of a pipeline, up to the command of its side. -/
theorem wp_side {l1 : Local} {role : Role} {w : Bool} (hstd : Std l.ofile) (hi : i < 3)
    (he : piped l.ofile n fd = some (.pipe n w)) (hfd : 3 ≤ fd)
    (hl1 : l1 = { l with ofile := Function.update l.ofile i (some (.pipe n w)), pipe := some n })
    (hgood : Good n0 two (l1.enter role cmd)) (hrole : Entered l1 cmd role)
    (h : ∀ {l}, Fresh n0 two cmd l → wp n0 two (fun _ _ => False) (runcmd cmd) l) :
    wp n0 two (fun _ _ => False) (do
      let _ ← sys (.close i)
      let _ ← sys (.dup fd)
      let _ ← sys (.close 3)
      let _ ← sys (.close 4)
      let _ ← sys (.enter role cmd)
      runcmd cmd) { l with ofile := piped l.ofile n, pipe := some n } := by
  obtain ⟨hdup, hclose⟩ := hstd.replace (n := n) hi he hfd
  rw [wp_bind]
  refine wp_close fun _ => ?_
  rw [wp_bind]
  refine wp_dup hdup ?_
  rw [wp_bind]
  refine wp_close fun _ => ?_
  rw [wp_bind]
  refine wp_close fun _ => ?_
  dsimp only
  rw [hclose, ← hl1, wp_bind]
  exact wp_enter hgood hrole fun _ hfresh => h hfresh

/-- **The code of the shell.** `runcmd` needs three descriptors, and does not return. -/
theorem wp_runcmd (hcmd : FdOk cmd) (h : Fresh n0 two cmd l) :
    wp n0 two (fun _ _ => False) (runcmd cmd) l := by
  induction cmd generalizing l with
  | exec argv =>
    cases argv with
    | nil => exact wp_exit
    | cons path argv =>
      rw [runcmd, wp_bind]
      refine wp_sys.mpr ⟨h.good, fun n r l' _ _ _ => ?_⟩
      rw [wp_bind]
      exact wp_sys.mpr ⟨trivial, fun _ _ _ _ _ _ => wp_exit⟩
  | redir cmd file mode fd ih =>
    obtain ⟨hcmd, hfd⟩ := hcmd
    rw [runcmd, wp_bind]
    refine wp_close fun r => ?_
    rw [wp_bind]
    refine wp_sys.mpr ⟨trivial, fun n r l' _ _ ha => ?_⟩
    have halloc := fdalloc_sysClose (t := l.ofile) (i := fd) (show fd < NOFILE by
      have : NOFILE = 16 := rfl
      omega) (fun j hj => (h.good.std j).mpr (by omega)) (.inode file mode)
    rcases ha with ⟨rfl, rfl⟩ | ⟨fd', t, hf, rfl, rfl⟩
    · -- the file could not be opened
      rw [if_pos (show (-1 : Int) < 0 by decide), wp_bind]
      exact wp_sys.mpr ⟨trivial, fun _ _ _ _ _ _ => wp_exit⟩
    · obtain ⟨rfl, rfl⟩ := Prod.mk.inj (Option.some.inj (halloc.symm.trans hf))
      rw [if_neg (show ¬ ((fd : Int) < 0) by omega), wp_bind]
      have hgood := h.good.redirect hfd file mode
      refine wp_enter (hgood.enter nofun nofun) ⟨file, mode, fd, h.node, ?_⟩ fun _ hfresh => ?_
      · rw [h.entry]
      · rw [wp_bind]
        exact wp_mono (ih hcmd hfresh) fun _ _ => False.elim
  | list left right ihl ihr =>
    obtain ⟨hl, hr⟩ := hcmd
    rw [runcmd, wp_bind]
    refine wp_forkChild ?_ ?_
    · rw [wp_bind]
      exact wp_enter (h.good.enter nofun nofun) ⟨⟨right, h.node⟩, h.entry.symm⟩
        fun _ hfresh => ihl hl hfresh
    · rw [wp_bind]
      refine wp_sys.mpr ⟨h.good, fun n r l' _ _ ha => ?_⟩
      obtain rfl : l' = l := ha
      rw [wp_bind]
      refine wp_enter (h.good.enter nofun nofun) ⟨⟨left, h.node⟩, h.entry.symm⟩ fun _ hfresh => ?_
      rw [wp_bind]
      exact wp_mono (ihr hr hfresh) fun _ _ => False.elim
  | pipe left right ihl ihr =>
    obtain ⟨hl, hr⟩ := hcmd
    rw [runcmd, wp_bind]
    refine wp_sys.mpr ⟨h.pipe, fun n r l' hn _ ha => ?_⟩
    rcases ha with ⟨rfl, rfl⟩ | ⟨p, t, hp, rfl, rfl⟩
    · exact wp_panic _
    rw [h.good.std.sysPipe n] at hp
    cases hp
    rw [wp_bind]
    refine wp_forkChild ?_ ?_
    · -- the left side: the write end is descriptor 1
      refine wp_side h.good.std (i := 1) (by decide) (update_self ..) (by decide) rfl
        (h.good.side (i := 1) (le_refl 1) (fun _ => rfl) rfl rfl) ?_ (ihl hl)
      exact ⟨right, n, h.node, rfl, by simp, by simp [h.entry], by simp [h.entry]⟩
    rw [wp_bind]
    refine wp_forkChild ?_ ?_
    · -- the right side: the read end is descriptor 0
      have he : piped l.ofile n 3 = some (.pipe n false) := by simp [piped]
      refine wp_side h.good.std (i := 0) (by decide) he (by decide) rfl
        (h.good.side (i := 0) (w := false) (by decide) nofun rfl rfl) ?_ (ihr hr)
      exact ⟨left, n, h.node, rfl, by simp, by simp [h.entry], by simp [h.entry]⟩
    · -- the node itself: both ends are closed
      rw [wp_bind]
      refine wp_close fun _ => ?_
      rw [wp_bind]
      refine wp_close fun _ => ?_
      dsimp only
      rw [h.good.std.close_piped, wp_bind]
      have hgood : Good n0 two { l with pipe := some n } :=
        ⟨h.good.std, h.good.two, h.good.writer, h.good.ends⟩
      refine wp_sys.mpr ⟨hgood, fun _ _ l' _ _ ha => ?_⟩
      obtain rfl : l' = _ := ha
      rw [wp_bind]
      exact wp_sys.mpr ⟨hgood, fun _ _ _ _ _ _ => wp_exit⟩
  | back cmd ih =>
    rw [runcmd, wp_bind]
    refine wp_forkChild ?_ wp_exit
    rw [wp_bind]
    exact wp_enter (h.good.enter nofun nofun) ⟨h.node, h.entry.symm⟩ fun _ hfresh => ih hcmd hfresh

/-! ### The system -/

/-- Every pipe of the table has a number below `n`. -/
def Below (n : Nat) (l : Local) : Prop := ∀ fd m w, l.ofile fd = some (.pipe m w) → m < n

theorem Below.mono {m : Nat} (h : Below n l) (hn : n ≤ m) : Below m l :=
  fun fd k w hf => (h fd k w hf).trans_le hn

/-- The write ends of a process are of pipes on whose left side it is, or of the pipe for the command
that it runs. -/
def Owns (n0 : Nat) (l : Local) : Prop :=
  ∀ fd n, l.ofile fd = some (.pipe n true) → n0 ≤ n → (n, Side.left) ∈ l.sides ∨ l.pipe = some n

/-- A process of the shell will keep to `wp`. Another one has write ends only of pipes on whose left
side it is. -/
def Obeys (n0 : Nat) (two : Option File) (made : List Nat) (q : Process) : Prop :=
  match q.act with
  | .shell code => wp n0 two (fun _ _ => True) code q.loc ∧ Owns n0 q.loc
  | .user => ∀ fd n, q.loc.ofile fd = some (.pipe n true) → n ∈ made → (n, Side.left) ∈ q.loc.sides
  | .zombie => ∀ fd, q.loc.ofile fd = none

structure Inv (n0 : Nat) (two : Option File) (s : Sys) : Prop where
  le : n0 ≤ s.npipe
  made : ∀ n ∈ s.made, n0 ≤ n ∧ n < s.npipe
  below : ∀ p q, s.procs p = some q → Below s.npipe q.loc
  obeys : ∀ p q, s.procs p = some q → Obeys n0 two s.made q

section System

variable {s s' : Sys} {p : Nat} {q q' : Process} {made : List Nat}

theorem fdalloc_files {g : File} (h : fdalloc t f = some (fd, t')) (hg : t' i = some g) :
    g = f ∨ t i = some g := by
  obtain ⟨fd', -, he⟩ := Option.map_eq_some_iff.mp h
  obtain ⟨rfl, rfl⟩ := Prod.mk.inj he
  by_cases hi : i = fd'
  · rw [hi, update_self] at hg
    exact .inl (Option.some.inj hg).symm
  · rw [update_of_ne hi] at hg
    exact .inr hg

/-- The files of a process after a call: those that it had, one that it has opened, and the ends of
a new pipe. -/
theorem After.files {r : c.Ret} {g : File} (h : After n c l r l') (hg : l'.ofile i = some g) :
    (∃ j, l.ofile j = some g) ∨ (∃ path mode, g = .inode path mode) ∨ c = .pipe ∧ ∃ w, g = .pipe n w := by
  cases c with
  | close fd =>
    rw [show l' = _ from h] at hg
    by_cases hi : i = fd
    · rw [hi] at hg
      simp [sysClose] at hg
    · exact .inl ⟨i, by simpa [sysClose, hi] using hg⟩
  | dup fd =>
    obtain ⟨t, h, rfl⟩ := h
    unfold sysDup at h
    split at h
    · cases h
      exact .inl ⟨i, hg⟩
    · next f hf =>
      split at h
      · cases h
        exact .inl ⟨i, hg⟩
      · next fd' t hfd =>
        cases h
        rcases fdalloc_files hfd hg with rfl | hg
        · exact .inl ⟨fd, hf⟩
        · exact .inl ⟨i, hg⟩
  | openFile path mode =>
    rcases h with ⟨-, rfl⟩ | ⟨fd, t, hfd, -, rfl⟩
    · exact .inl ⟨i, hg⟩
    · rcases fdalloc_files hfd hg with rfl | hg
      · exact .inr (.inl ⟨path, mode, rfl⟩)
      · exact .inl ⟨i, hg⟩
  | pipe =>
    rcases h with ⟨-, rfl⟩ | ⟨p, t, hp, -, rfl⟩
    · exact .inl ⟨i, hg⟩
    · -- two descriptors, one after the other
      obtain ⟨⟨fd0, t0⟩, h0, hp⟩ := Option.bind_eq_some_iff.mp hp
      obtain ⟨⟨fd1, t1⟩, h1, hp⟩ := Option.bind_eq_some_iff.mp hp
      cases hp
      rcases fdalloc_files h1 hg with rfl | hg
      · exact .inr (.inr ⟨rfl, true, rfl⟩)
      · rcases fdalloc_files h0 hg with rfl | hg
        · exact .inr (.inr ⟨rfl, false, rfl⟩)
        · exact .inl ⟨i, hg⟩
  | fork =>
    rw [show l' = l from h] at hg
    exact .inl ⟨i, hg⟩
  | wait =>
    rw [show l' = l from h] at hg
    exact .inl ⟨i, hg⟩
  | exec path argv =>
    rw [h.2] at hg
    exact .inl ⟨i, hg⟩
  | printf fd text =>
    rw [show l' = l from h] at hg
    exact .inl ⟨i, hg⟩
  | exit => exact h.elim
  | enter role cmd =>
    rw [show l' = l.enter role cmd from h] at hg
    exact .inl ⟨i, hg⟩

/-- Only `runcmd` changes on which side of a pipe a process is. -/
theorem After.sides {r : c.Ret} (h : After n c l r l') (hc : ∀ role cmd, c ≠ .enter role cmd) :
    l'.sides = l.sides := by
  cases c with
  | close fd => rw [show l' = _ from h]
  | dup fd =>
    obtain ⟨t, -, rfl⟩ := h
    rfl
  | openFile path mode =>
    rcases h with ⟨-, rfl⟩ | ⟨fd, t, -, -, rfl⟩
    · rfl
    · rfl
  | pipe =>
    rcases h with ⟨-, rfl⟩ | ⟨p, t, -, -, rfl⟩
    · rfl
    · rfl
  | fork => rw [show l' = l from h]
  | wait => rw [show l' = l from h]
  | exec path argv => rw [h.2]
  | printf fd text => rw [show l' = l from h]
  | exit => exact h.elim
  | enter role cmd => exact absurd rfl (hc role cmd)

/-- Only `pipe` and `runcmd` change the pipe of the command. -/
theorem After.pipe {r : c.Ret} (h : After n c l r l') (hp : c ≠ .pipe)
    (hc : ∀ role cmd, c ≠ .enter role cmd) : l'.pipe = l.pipe := by
  cases c with
  | close fd => rw [show l' = _ from h]
  | dup fd =>
    obtain ⟨t, -, rfl⟩ := h
    rfl
  | openFile path mode =>
    rcases h with ⟨-, rfl⟩ | ⟨fd, t, -, -, rfl⟩
    · rfl
    · rfl
  | pipe => exact absurd rfl hp
  | fork => rw [show l' = l from h]
  | wait => rw [show l' = l from h]
  | exec path argv => rw [h.2]
  | printf fd text => rw [show l' = l from h]
  | exit => exact h.elim
  | enter role cmd => exact absurd rfl (hc role cmd)

theorem Below.after {r : c.Ret} (h : Below n l) (hc : c ≠ .pipe) (ha : After n c l r l') :
    Below n l' := by
  intro fd m w hf
  rcases ha.files hf with ⟨j, hj⟩ | ⟨path, mode, hg⟩ | ⟨hp, -⟩
  · exact h j m w hj
  · cases hg
  · exact absurd hp hc

theorem Below.after_pipe {r : Option (Nat × Nat)} (h : Below n l) (ha : After n .pipe l r l') :
    Below (n + 1) l' := by
  intro fd m w hf
  rcases ha.files hf with ⟨j, hj⟩ | ⟨path, mode, hg⟩ | ⟨-, w', hg⟩
  · exact Nat.lt_succ_of_lt (h j m w hj)
  · cases hg
  · cases hg
    exact Nat.lt_succ_self n

/-- What is known before a call keeps the write ends owned: a second pipe for one command would not,
nor would entering another command with one of them. -/
theorem Owns.after {r : c.Ret} (h : Owns n0 l) (hbefore : Before n0 two c l) (ha : After n c l r l') :
    Owns n0 l' := by
  intro fd m hf hm
  cases c with
  | enter role cmd =>
    obtain rfl : l' = l.enter role cmd := ha
    exact .inl (hbefore.1.writer fd m hf hm)
  | pipe =>
    rcases ha with ⟨-, rfl⟩ | ⟨p, t, hp, hr, rfl⟩
    · exact h fd m hf hm
    · have hnone : l.pipe = none := hbefore
      rcases After.files (c := .pipe) (.inr ⟨p, t, hp, hr, rfl⟩) hf with ⟨j, hj⟩ |
        ⟨path, mode, hg⟩ | ⟨-, w, hg⟩
      · refine .inl ((h j m hj hm).resolve_right fun he => ?_)
        rw [hnone] at he
        cases he
      · cases hg
      · cases hg
        exact .inr rfl
  | _ =>
    have hpipe : l'.pipe = l.pipe := ha.pipe nofun nofun
    rcases ha.files hf with ⟨j, hj⟩ | ⟨path, mode, hg⟩ | ⟨hc, -⟩
    · rw [ha.sides nofun, hpipe]
      exact h j m hj hm
    · cases hg
    · cases hc

theorem Obeys.after {k : c.Ret → Act} {r : c.Ret} (h : Obeys n0 two made q)
    (hnext : Next q.act c k) (hb : Below n q.loc) (hn : n0 ≤ n) (hmade : ∀ m ∈ made, m < n)
    (ha : After n c q.loc r l') : Obeys n0 two made { q with act := k r, loc := l' } := by
  obtain ⟨act, parent, l⟩ := q
  cases hnext with
  | shell c k =>
    obtain ⟨hwp, howns⟩ := h
    exact ⟨hwp.2 n r l' hn (fun fd w hf => absurd (hb fd n w hf) (lt_irrefl n)) ha,
      howns.after hwp.1 ha⟩
  | user c hc =>
    intro fd m hf hm
    rcases ha.files hf with ⟨j, hj⟩ | ⟨path, mode, hg⟩ | ⟨-, w, hg⟩
    · change (m, Side.left) ∈ l'.sides
      rw [ha.sides hc]
      exact h j m hj hm
    · cases hg
    · cases hg
      exact absurd (hmade _ hm) (lt_irrefl _)

theorem Obeys.cons (h : Obeys n0 two made q) (hb : Below n q.loc) : Obeys n0 two (n :: made) q := by
  obtain ⟨act, parent, l⟩ := q
  cases act with
  | shell code => exact h
  | user =>
    intro fd m hf hm
    rcases List.mem_cons.mp hm with rfl | hm
    · exact absurd (hb fd m true hf) (lt_irrefl m)
    · exact h fd m hf hm
  | zombie => exact h

namespace Inv

theorem set (h : Inv n0 two s) (hb : Below s.npipe q.loc) (hq : Obeys n0 two s.made q) :
    Inv n0 two (s.set p (some q)) := by
  refine ⟨h.le, h.made, fun p' q' hp' => ?_, fun p' q' hp' => ?_⟩ <;>
  · change Function.update s.procs p (some q) p' = some q' at hp'
    by_cases he : p' = p
    · rw [he, update_self] at hp'
      cases hp'
      assumption
    · rw [update_of_ne he] at hp'
      first | exact h.below p' q' hp' | exact h.obeys p' q' hp'

theorem remove (h : Inv n0 two s) : Inv n0 two (s.set p none) := by
  have hold : ∀ p' q', (s.set p none).procs p' = some q' → s.procs p' = some q' := by
    intro p' q' hp'
    change Function.update s.procs p none p' = some q' at hp'
    by_cases he : p' = p
    · rw [he, update_self] at hp'
      cases hp'
    · rwa [update_of_ne he] at hp'
  exact ⟨h.le, h.made, fun p' q' hp' => h.below p' q' (hold p' q' hp'),
    fun p' q' hp' => h.obeys p' q' (hold p' q' hp')⟩

theorem after {k : c.Ret → Act} {r : c.Ret} (h : Inv n0 two s) (hp : s.procs p = some q)
    (hnext : Next q.act c k) (hc : c ≠ .pipe) (ha : After s.npipe c q.loc r l') :
    Inv n0 two (s.set p (some { q with act := k r, loc := l' })) :=
  h.set ((h.below p q hp).after hc ha)
    ((h.obeys p q hp).after hnext (h.below p q hp) h.le (fun m hm => (h.made m hm).2) ha)

theorem step (h : Inv n0 two s) (hs : Step s s') : Inv n0 two s' := by
  cases hs with
  | @own p q c k r l' hp hnext hown ha =>
    exact h.after hp hnext (fun he => by rw [he] at hown; cases hown) ha
  | @pipe p q k r l' hp hnext ha =>
    have hb := h.below p q hp
    have hq := (h.obeys p q hp).after hnext hb h.le (fun m hm => (h.made m hm).2) ha
    -- the shell and another program differ only in who knows of the pipe
    have hmade : ∀ made', (made' = s.made ∨ made' = s.npipe :: s.made) →
        Obeys n0 two made' { q with act := k r, loc := l' } → Inv n0 two
          { s.set p (some { q with act := k r, loc := l' }) with
            npipe := s.npipe + 1, made := made' } := by
      intro made' hm hq'
      refine ⟨Nat.le_succ_of_le h.le, fun n hn => ?_, fun p' q' hp' => ?_, fun p' q' hp' => ?_⟩
      · rcases hm with rfl | rfl
        · exact ⟨(h.made n hn).1, Nat.lt_succ_of_lt (h.made n hn).2⟩
        · rcases List.mem_cons.mp hn with rfl | hn
          · exact ⟨h.le, Nat.lt_succ_self _⟩
          · exact ⟨(h.made n hn).1, Nat.lt_succ_of_lt (h.made n hn).2⟩
      · change Function.update s.procs p (some _) p' = some q' at hp'
        by_cases he : p' = p
        · rw [he, update_self] at hp'
          cases hp'
          exact hb.after_pipe ha
        · rw [update_of_ne he] at hp'
          exact (h.below p' q' hp').mono (Nat.le_succ _)
      · change Function.update s.procs p (some _) p' = some q' at hp'
        by_cases he : p' = p
        · rw [he, update_self] at hp'
          cases hp'
          exact hq'
        · rw [update_of_ne he] at hp'
          rcases hm with rfl | rfl
          · exact h.obeys p' q' hp'
          · exact (h.obeys p' q' hp').cons (h.below p' q' hp')
    obtain ⟨act, parent, l⟩ := q
    cases hnext with
    | shell c k => exact hmade _ (.inr rfl) hq
    | user c hc => exact hmade _ (.inl rfl) hq
  | @fork p q k c pid hp hnext hc hpid =>
    have hparent := h.after (r := pid) hp hnext nofun rfl
    refine hparent.set (h.below p q hp) ?_
    exact (h.obeys p q hp).after (r := (0 : Int)) hnext (h.below p q hp) h.le
      (fun m hm => (h.made m hm).2) rfl
  | @forkFail p q k hp hnext => exact h.after hp hnext nofun rfl
  | @wait p q k c z pid hp hnext _ _ _ _ => exact (h.after hp hnext nofun rfl).remove
  | @waitFail p q k hp hnext _ => exact h.after hp hnext nofun rfl
  | @exec p q path argv k hp hnext =>
    refine h.set (h.below p q hp) fun fd n hf hn => ?_
    have hq := h.obeys p q hp
    obtain ⟨act, parent, l⟩ := q
    cases hnext with
    | shell c k => exact hq.1.1.writer fd n hf (h.made n hn).1
    | user c hc => exact hq fd n hf hn
  | @exit p q k hp hnext =>
    have hz : Inv n0 two (s.set p (some { q with
        act := .zombie, loc := { q.loc with ofile := fun _ => none } })) :=
      h.set (fun _ _ _ hf => nomatch hf) fun _ => rfl
    -- the children change only their parent
    have hkeep : ∀ p' q', ((s.set p (some { q with
        act := .zombie, loc := { q.loc with ofile := fun _ => none } })).procs p').map (·.orphan p) =
        some q' → ∃ q1, (s.set p (some { q with
          act := .zombie, loc := { q.loc with ofile := fun _ => none } })).procs p' = some q1 ∧
          q'.act = q1.act ∧ q'.loc = q1.loc := by
      intro p' q' hp'
      obtain ⟨q1, h1, rfl⟩ := Option.map_eq_some_iff.mp hp'
      refine ⟨q1, h1, ?_⟩
      unfold Process.orphan
      split
      · exact ⟨rfl, rfl⟩
      · exact ⟨rfl, rfl⟩
    refine ⟨h.le, h.made, fun p' q' hp' => ?_, fun p' q' hp' => ?_⟩
    · obtain ⟨q1, h1, -, hl⟩ := hkeep p' q' hp'
      rw [hl]
      exact hz.below p' q1 h1
    · obtain ⟨q1, h1, hact, hl⟩ := hkeep p' q' hp'
      have := hz.obeys p' q1 h1
      rw [Obeys] at this ⊢
      rw [hact, hl]
      exact this
  | reap _ _ _ => exact h.remove

theorem reach (h : Inv n0 two s) (hs : ReflTransGen Step s s') : Inv n0 two s' := by
  induction hs with
  | refl => exact h
  | tail _ hstep ih => exact ih.step hstep

end Inv

end System

/-! ### The commands of the parser -/

theorem fdOk_backs {k : Nat} (h : FdOk cmd) : FdOk (backs k cmd) := by
  induction k generalizing cmd with
  | zero => exact h
  | succ k ih => exact ih h

theorem Redirs.fdOk {ts : List Token} {rs : List Redir} (h : Redirs ts rs) : ∀ r ∈ rs, r.fd ≤ 1 := by
  induction h with
  | nil => exact nofun
  | @cons op ts rs m fd w hop _ ih =>
    intro r hr
    rcases List.mem_cons.mp hr with rfl | hr
    · -- `<` is for descriptor 0, the other two for 1
      unfold redirOp at hop
      split at hop
      · split at hop
        · cases hop
          exact Nat.zero_le 1
        · split at hop
          · cases hop
            exact le_refl 1
          · cases hop
      · cases hop
        exact le_refl 1
      · cases hop
    · exact ih r hr

theorem Args.fdOk {ts : List Token} {ws : List (List Char)} {rs : List Redir} (h : Args ts ws rs) :
    ∀ r ∈ rs, r.fd ≤ 1 := by
  induction h with
  | nil => exact nofun
  | cons w hr _ ih => exact fun r hm => (List.mem_append.mp hm).elim (hr.fdOk r) (ih r)

theorem fdOk_wrap {rs : List Redir} (h : FdOk cmd) (hrs : ∀ r ∈ rs, r.fd ≤ 1) :
    FdOk (wrap cmd rs) := by
  induction rs generalizing cmd with
  | nil => exact h
  | cons r rs ih =>
    exact ih ⟨h, hrs r List.mem_cons_self⟩ fun r' hr' => hrs r' (List.mem_cons_of_mem r hr')

mutual

theorem Line.fdOk {ts : List Token} {cmd : Cmd (List Char)} : Line ts cmd → FdOk cmd
  | .pipe _ h => fdOk_backs h.fdOk
  | .list _ h h' => ⟨fdOk_backs h.fdOk, h'.fdOk⟩

theorem Pipe.fdOk {ts : List Token} {cmd : Cmd (List Char)} : Pipe ts cmd → FdOk cmd
  | .exec h => h.fdOk
  | .pipe h h' => ⟨h.fdOk, h'.fdOk⟩

theorem Exec.fdOk {ts : List Token} {cmd : Cmd (List Char)} : Exec ts cmd → FdOk cmd
  | .block h hrs => fdOk_wrap h.fdOk hrs.fdOk
  | .args hrs ha _ =>
    fdOk_wrap trivial fun r hr => (List.mem_append.mp hr).elim (hrs.fdOk r) (ha.fdOk r)

end

/-- The parser redirects only descriptors 0 and 1. -/
theorem fdOk_parsecmd {line : List Char} (hline : NUL ∉ line) (hn : 4 * line.length + 4 ≤ n)
    (h : parsecmd n line = .ok cmd) : FdOk cmd := by
  rcases parsecmd_sound hline hn with ⟨t, ht, hl⟩ | ⟨e, he, -⟩
  · cases h.symm.trans ht
    exact hl.fdOk
  · cases h.symm.trans he

/-! ### Whole runs -/

/-- Whether a process is past the code of the shell, or in one of the two calls at which it may stay
for long. Its other calls wait for nobody. -/
def Act.settled : Act → Bool
  | .shell (.call (.exec _ _) _) => true
  | .shell (.call .wait _) => true
  | .shell _ => false
  | .user => true
  | .zombie => true

/-- A process of a command, started with descriptor 2 as `two` when there were `n0` pipes. -/
structure Plumbed (n0 : Nat) (two : Option File) (q : Process) : Prop where
  /-- Entering `runcmd`. -/
  enter : ∀ role cmd k, q.act = .shell (.call (.enter role cmd) k) →
    Std q.loc.ofile ∧ Entered q.loc cmd role
  exec : ∀ path argv k, q.act = .shell (.call (.exec path argv) k) → Std q.loc.ofile
  /-- At `exec` and in `wait`. -/
  ends : ∀ c k, q.act = .shell (.call c k) → (c = .wait ∨ ∃ path argv, c = .exec path argv) →
    q.loc.ofile 2 = two ∧ ∀ fd n w, q.loc.ofile fd = some (.pipe n w) → n0 ≤ n → fd = 0 ∨ fd = 1

/-- The pipe `n` can still be written to: this is when the kernel's `writeopen` is set. -/
def WriteOpen (s : Sys) (n : Nat) : Prop :=
  ∃ p q fd, s.procs p = some q ∧ q.loc.ofile fd = some (.pipe n true)

theorem Inv.plumbed {s : Sys} {p : Nat} {q : Process} (h : Inv n0 two s) (hp : s.procs p = some q) :
    Plumbed n0 two q := by
  have hq := h.obeys p q hp
  obtain ⟨act, parent, l⟩ := q
  refine ⟨?_, ?_, ?_⟩
  · rintro role cmd k rfl
    exact ⟨hq.1.1.1.std, hq.1.1.2⟩
  · rintro path argv k rfl
    exact hq.1.1.std
  · rintro c k rfl hc
    rcases hc with rfl | ⟨path, argv, rfl⟩
    · exact ⟨hq.1.1.two, hq.1.1.ends⟩
    · exact ⟨hq.1.1.two, hq.1.1.ends⟩

/-- A process that can write to a pipe of the shell is on the left side of it, or it still runs the
command for which the pipe was made, and is not in `wait`. -/
theorem Inv.writer {s : Sys} {p : Nat} {q : Process} (h : Inv n0 two s) (hp : s.procs p = some q)
    (hn : n ∈ s.made) (hf : q.loc.ofile fd = some (.pipe n true)) :
    (n, Side.left) ∈ q.loc.sides ∧ q.act ≠ .zombie ∨
      q.loc.pipe = some n ∧ q.act.settled = false := by
  have hq := h.obeys p q hp
  have hn0 := (h.made n hn).1
  obtain ⟨act, parent, l⟩ := q
  cases act with
  | user => exact .inl ⟨hq fd n hf hn, nofun⟩
  | zombie => cases hf.symm.trans (hq fd)
  | shell code =>
    obtain ⟨hwp, howns⟩ := hq
    rcases howns fd n hf hn0 with hl | hl
    · exact .inl ⟨hl, nofun⟩
    · cases code with
      | ret a => exact .inr ⟨hl, rfl⟩
      | call c k =>
        cases c with
        | wait => exact .inl ⟨hwp.1.writer fd n hf hn0, nofun⟩
        | exec path argv => exact .inl ⟨hwp.1.writer fd n hf hn0, nofun⟩
        | _ => exact .inr ⟨hl, rfl⟩

theorem Start.inv {s : Sys} {p : Nat} (h : Start cmd p s) (hcmd : FdOk cmd) :
    ∃ q, s.procs p = some q ∧ Inv s.npipe (q.loc.ofile 2) s := by
  obtain ⟨q, hp, hsides, hstd, hact⟩ := h.shell
  refine ⟨q, hp, le_refl _, fun n hn => ?_, fun p' q' hp' fd n w => h.below p' q' fd n w hp', ?_⟩
  · rw [h.made] at hn
    cases hn
  · intro p' q' hp'
    by_cases he : p' = p
    · subst he
      obtain rfl : q' = q := Option.some.inj (hp'.symm.trans hp)
      have hgood : Good s.npipe (q'.loc.ofile 2) (q'.loc.enter .top cmd) :=
        ⟨hstd, rfl, fun fd n hf hn => absurd (h.below p' q' fd n true hp' hf) (not_lt.mpr hn),
          fun fd n w hf hn => absurd (h.below p' q' fd n w hp' hf) (not_lt.mpr hn)⟩
      rw [Obeys, hact]
      refine ⟨⟨⟨hgood, trivial⟩, fun n r l' _ _ ha => ?_⟩, ?_⟩
      · obtain rfl : l' = _ := ha
        exact wp_mono (wp_runcmd hcmd ⟨hgood, rfl, rfl, rfl⟩) fun _ _ => False.elim
      · exact fun fd n hf hn => absurd (h.below p' q' fd n true hp' hf) (not_lt.mpr hn)
    · rw [Obeys, h.made]
      rcases h.others p' q' hp' he with ha | ⟨ha, hnone⟩
      · rw [ha]
        exact fun _ _ _ hn => nomatch hn
      · rw [ha]
        exact hnone

/-- **Pipelines are plumbed.** In every run of a command of the parser, whatever else the system
does, every process of it has the right descriptors whenever `runcmd` is entered and at `exec` and
`wait`. Once the processes on the left side of a pipe have exited, it cannot be written to, if the
process that made it has come to `wait` and its children are where they belong. -/
theorem plumbing (line : List Char) (hline : NUL ∉ line) (n : Nat) (hn : 4 * line.length + 4 ≤ n)
    (cmd : Cmd (List Char)) (hcmd : parsecmd n line = .ok cmd) (p0 : Nat) (s0 s : Sys)
    (h0 : Start cmd p0 s0) (hs : ReflTransGen Step s0 s) :
    (∃ q0, s0.procs p0 = some q0 ∧
      ∀ p q, s.procs p = some q → Plumbed s0.npipe (q0.loc.ofile 2) q) ∧
    ∀ m ∈ s.made,
      (∀ p q, s.procs p = some q → (m, Side.left) ∈ q.loc.sides → q.act = .zombie) →
      (∀ p q, s.procs p = some q → q.loc.pipe = some m → q.act.settled = true) →
      ¬ WriteOpen s m := by
  obtain ⟨q0, hq0, hinv⟩ := h0.inv (fdOk_parsecmd hline hn hcmd)
  have h := hinv.reach hs
  refine ⟨⟨q0, hq0, fun p q hp => h.plumbed hp⟩, ?_⟩
  rintro m hm hleft hnode ⟨p, q, fd, hp, hf⟩
  rcases h.writer hp hm hf with ⟨hl, hz⟩ | ⟨hpipe, hset⟩
  · exact hz (hleft p q hp hl)
  · rw [hnode p q hp hpipe] at hset
    cases hset

/-- The system in which process 0 is about to run `a|b`. -/
def pipelineStart : Sys where
  procs p := if p = 0 then some {
      act := .shell (.call (.enter .top (.pipe (.exec [['a']]) (.exec [['b']]))) fun _ =>
        runcmd (.pipe (.exec [['a']]) (.exec [['b']])))
      parent := none
      loc := {
        ofile := fun fd => if fd < 3 then some (.inode [] 0) else none
        node := .exec []
        entry := fun _ => none
        pipe := none
        sides := [] } }
    else none
  npipe := 0
  made := []

theorem plumbing_leftEntered : ∃ s q, ReflTransGen Step pipelineStart s ∧ s.procs 1 = some q ∧
    s.made = [0] ∧ Plumbed 0 (some (.inode [] 0)) q ∧
    ∃ k, q.act = .shell (.call (.enter .left (.exec [['a']])) k) := by
  have hstart : Start (.pipe (.exec [['a']]) (.exec [['b']])) 0 pipelineStart := by
    refine ⟨⟨_, rfl, rfl, fun fd => ?_, rfl⟩, ?_, ?_, rfl⟩
    · change (if fd < 3 then some (File.inode [] 0) else none).isSome ↔ fd < 3
      split <;> simp [*]
    · intro p q hq hp
      simp [pipelineStart, hp] at hq
    · intro p q fd n w hq hf
      unfold pipelineStart at hq
      dsimp only at hq
      split at hq
      · cases hq
        dsimp only at hf
        split at hf <;> cases hf
      · cases hq
  -- the pipe is made, and the first child runs up to its command
  have hrun := ReflTransGen.refl (r := Step) (a := pipelineStart)
    |>.tail (.own (p := 0) (r := (0 : Int)) rfl (.shell _ _) rfl rfl)
    |>.tail (.pipe (p := 0) rfl (.shell _ _) (.inr ⟨_, _, rfl, rfl, rfl⟩))
    |>.tail (.fork (p := 0) (c := 1) rfl (.shell _ _) rfl (show (0 : Int) < 1 by decide))
    |>.tail (.own (p := 1) (r := (0 : Int)) rfl (.shell _ _) rfl rfl)
    |>.tail (.own (p := 1) (r := (1 : Int)) rfl (.shell _ _) rfl ⟨_, rfl, rfl⟩)
    |>.tail (.own (p := 1) (r := (0 : Int)) rfl (.shell _ _) rfl rfl)
    |>.tail (.own (p := 1) (r := (0 : Int)) rfl (.shell _ _) rfl rfl)
  obtain ⟨⟨q0, h0, h⟩, -⟩ := plumbing "a|b".toList (by decide) 100 (by decide) _
    (by decide +kernel) 0 _ _ hstart hrun
  cases h0
  exact ⟨_, _, hrun, rfl, rfl, h 1 _ rfl, _, rfl⟩

end Sh

end Xv6
