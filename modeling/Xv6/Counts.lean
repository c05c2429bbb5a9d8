import Xv6.Cache
import Xv6.Lib.MemWp

/-!
# Counting references

The counts of the inode cache, of the file table and of the pipes, and how they follow the
tables. `Counts m r` says that in memory `m` every count is the number of the table entries
that refer to it plus what the running code holds (`Hold`), and that a pipe has an end open
exactly if some file is that end.

A count is a sum over processes, and for files over descriptors (`card_fdSet`, `card_cwdSet`), so
a change of one process changes one summand (`Counts.setEntry`). An entry whose reference the code has
taken over (`Hold.fd`, `Hold.cwd`) has the summand 0.
-/

open Bytes Device Finset

open Function (update update_eq_self update_idem update_of_ne update_self)

namespace Xv6

/-! ### The invariant -/

/-- File `f` is the write end (`w`) or the read end of pipe `i`. -/
def PipeEnd (m : Mem) (i : Nat) (w : Bool) (f : Nat) : Prop :=
  f < NFILE ∧ 0 < (m.ftable f).ref ∧ (m.ftable f).type = .FD_PIPE ∧ (m.ftable f).pipe = i ∧
    (m.ftable f).writable = w

/-- Whether the write end (`w`) or the read end is open. -/
def Pipe.opened (w : Bool) (p : Pipe) : Bool := if w then p.writeopen else p.readopen

/-- The ends of pipes are files, one for each, and a pipe without ends has been freed once. -/
structure PipeCounts (m : Mem) : Prop where
  lt : ∀ i w f, PipeEnd m i w f → i < m.npipe
  uniq : ∀ i w f g, PipeEnd m i w f → PipeEnd m i w g → f = g
  opened : ∀ i < m.npipe, ∀ w, (m.pipes i).opened w = true ↔ ∃ f, PipeEnd m i w f
  freed : ∀ i < m.npipe,
    (m.pipes i).frees = if (m.pipes i).readopen || (m.pipes i).writeopen then 0 else 1

/-- **Counts are exact**, up to what running code holds. -/
structure Counts (m : Mem) (r : Hold) : Prop where
  ino : ∀ k < NINODE, (m.icache k).ref = (cwdSet m r k).card + (openSet m k).card + r.ino k
  file : ∀ f < NFILE, (m.ftable f).ref = (fdSet m r f).card + r.file f
  closed : ∀ f < NFILE, (m.ftable f).ref = 0 → (m.ftable f).type = .FD_NONE
  on : ∀ f < NFILE, ∀ k, OpenOn m f k → k < NINODE
  cwd : ∀ p k, cwdOf m p = some k → k < NINODE
  fd : ∀ p fd f, fdOf m p fd = some f → fd < NOFILE ∧ f < NFILE
  proc : ∀ p q, m.procs p = some q → p < NPROC
  pipe : PipeCounts m

/-! ### Sums -/

section Sums

theorem sum_add_of_eq_off {s : Finset Nat} {f g : Nat → Nat} {p : Nat} (hp : p ∈ s)
    (h : ∀ q ∈ s, q ≠ p → f q = g q) : ∑ q ∈ s, f q + g p = ∑ q ∈ s, g q + f p := by
  rw [← add_sum_erase s f hp, ← add_sum_erase s g hp]
  have : ∑ q ∈ s.erase p, f q = ∑ q ∈ s.erase p, g q :=
    sum_congr rfl fun q hq => h q (mem_of_mem_erase hq) (ne_of_mem_erase hq)
  omega

theorem le_sum_sum {s t : Finset Nat} {g : Nat → Nat → Nat} {a b : Nat} (ha : a ∈ s) (hb : b ∈ t) :
    g a b ≤ ∑ x ∈ s, ∑ y ∈ t, g x y :=
  calc
    g a b ≤ ∑ y ∈ t, g a y := single_le_sum (fun _ _ => Nat.zero_le _) hb
    _ ≤ ∑ x ∈ s, ∑ y ∈ t, g x y :=
      single_le_sum (f := fun x => ∑ y ∈ t, g x y) (fun _ _ => Nat.zero_le _) ha

/-- What descriptor `fd` of process `p` adds to the count of file `f`. -/
def fdCount (m : Mem) (r : Hold) (p fd f : Nat) : Nat :=
  if (p, fd) ∉ r.fd ∧ fdOf m p fd = some f then 1 else 0

/-- What process `p` adds to the count of slot `k`. -/
def cwdCount (m : Mem) (r : Hold) (p k : Nat) : Nat :=
  if p ∉ r.cwd ∧ cwdOf m p = some k then 1 else 0

theorem card_fdSet (m : Mem) (r : Hold) (f : Nat) : (fdSet m r f).card =
    ∑ p ∈ Finset.range NPROC, ∑ fd ∈ Finset.range NOFILE, fdCount m r p fd f := by
  rw [fdSet, card_filter, sum_product]
  rfl

theorem card_cwdSet (m : Mem) (r : Hold) (k : Nat) : (cwdSet m r k).card =
    ∑ p ∈ Finset.range NPROC, cwdCount m r p k := by
  rw [cwdSet, card_filter]
  rfl

end Sums

/-! ### Changing a process -/

/-- The code takes over the reference of descriptor `fd` of process `p`, or gives it back. -/
def Hold.hideFd (r : Hold) (p fd : Nat) : Hold := { r with fd := insert (p, fd) r.fd }
def Hold.showFd (r : Hold) (p fd : Nat) : Hold := { r with fd := r.fd.erase (p, fd) }

/-- The code takes over the reference of the current directory of process `p`, or gives it
back. -/
def Hold.hideCwd (r : Hold) (p : Nat) : Hold := { r with cwd := insert p r.cwd }
def Hold.showCwd (r : Hold) (p : Nat) : Hold := { r with cwd := r.cwd.erase p }

theorem Hold.addFile_self (r : Hold) (f : Nat) : (r.addFile f).file f = r.file f + 1 :=
  update_self ..

theorem Hold.addFile_of_ne (r : Hold) {f f' : Nat} (hne : f' ≠ f) :
    (r.addFile f).file f' = r.file f' := update_of_ne hne ..

theorem Hold.subFile_self (r : Hold) (f : Nat) : (r.subFile f).file f = r.file f - 1 :=
  update_self ..

theorem Hold.subFile_of_ne (r : Hold) {f f' : Nat} (hne : f' ≠ f) :
    (r.subFile f).file f' = r.file f' := update_of_ne hne ..

theorem Hold.subFile_addFile (r : Hold) (f : Nat) : (r.addFile f).subFile f = r := by
  unfold Hold.subFile Hold.addFile
  simp

section Entry

variable {m : Mem} {r u : Hold} {p fd f k : Nat} {q : Option Proc}

@[simp] theorem setChild_procs_self (m : Mem) (p : Nat) (q : Option Proc) :
    (setChild p q m).procs p = q := update_self ..

theorem setChild_procs_of_ne (m : Mem) (q : Option Proc) {p' : Nat} (h : p' ≠ p) :
    (setChild p q m).procs p' = m.procs p' := update_of_ne h ..

theorem fdOf_setChild (m : Mem) (p : Nat) (q : Option Proc) (fd : Nat) :
    fdOf (setChild p q m) p fd = q.bind fun e => e.ofile fd := by
  rw [fdOf, setChild_procs_self]

theorem fdOf_setChild_of_ne (m : Mem) (q : Option Proc) {p' : Nat} (h : p' ≠ p) (fd : Nat) :
    fdOf (setChild p q m) p' fd = fdOf m p' fd := by
  rw [fdOf, setChild_procs_of_ne m q h, fdOf]

theorem cwdOf_setChild (m : Mem) (p : Nat) (q : Option Proc) :
    cwdOf (setChild p q m) p = q.bind Proc.cwd := by
  rw [cwdOf, setChild_procs_self]

theorem cwdOf_setChild_of_ne (m : Mem) (q : Option Proc) {p' : Nat} (h : p' ≠ p) :
    cwdOf (setChild p q m) p' = cwdOf m p' := by
  rw [cwdOf, setChild_procs_of_ne m q h, cwdOf]

theorem setChild_self (m : Mem) (p : Nat) : setChild p (m.procs p) m = m := by
  rw [setChild, update_eq_self]

/-- Changing the entry of one process, in the table or in who holds its references. What its
summands lose, the code holds afterwards. -/
theorem Counts.setEntry (hc : Counts m r) (hp : p < NPROC)
    (hfd : ∀ f < NFILE, ∑ fd ∈ Finset.range NOFILE, fdCount (setChild p q m) u p fd f + u.file f =
      ∑ fd ∈ Finset.range NOFILE, fdCount m r p fd f + r.file f)
    (hcwd : ∀ k < NINODE, cwdCount (setChild p q m) u p k + u.ino k =
      cwdCount m r p k + r.ino k)
    (hrfd : ∀ p' ≠ p, ∀ fd, ((p', fd) ∈ u.fd ↔ (p', fd) ∈ r.fd))
    (hrcwd : ∀ p' ≠ p, (p' ∈ u.cwd ↔ p' ∈ r.cwd))
    (hq : ∀ e, q = some e → (∀ k, e.cwd = some k → k < NINODE) ∧
      ∀ fd f, e.ofile fd = some f → fd < NOFILE ∧ f < NFILE) :
    Counts (setChild p q m) u := by
  have hmem : p ∈ Finset.range NPROC := mem_range.mpr hp
  refine ⟨fun k hk => ?_, fun f hf => ?_, hc.closed, hc.on, fun p' k h => ?_, fun p' fd f h => ?_,
    fun p' e h => ?_, ⟨hc.pipe.lt, hc.pipe.uniq, hc.pipe.opened, hc.pipe.freed⟩⟩
  · have h1 := hc.ino k hk
    have h2 := hcwd k hk
    have h3 := sum_add_of_eq_off (f := fun p' => cwdCount (setChild p q m) u p' k)
      (g := fun p' => cwdCount m r p' k) hmem fun p' _ hne => by
        simp only [cwdCount, cwdOf_setChild_of_ne m q hne, hrcwd p' hne]
    rw [card_cwdSet] at h1 ⊢
    change (m.icache k).ref = _ + (openSet m k).card + _
    omega
  · have h1 := hc.file f hf
    have h2 := hfd f hf
    have h3 := sum_add_of_eq_off
      (f := fun p' => ∑ fd ∈ Finset.range NOFILE, fdCount (setChild p q m) u p' fd f)
      (g := fun p' => ∑ fd ∈ Finset.range NOFILE, fdCount m r p' fd f) hmem fun p' _ hne =>
        sum_congr rfl fun fd _ => by
          simp only [fdCount, fdOf_setChild_of_ne m q hne, hrfd p' hne]
    rw [card_fdSet] at h1 ⊢
    change (m.ftable f).ref = _ + _
    omega
  · by_cases hne : p' = p
    · subst hne
      rw [cwdOf_setChild] at h
      obtain ⟨e, he, hk⟩ := Option.bind_eq_some_iff.mp h
      exact (hq e he).1 k hk
    · rw [cwdOf_setChild_of_ne m q hne] at h
      exact hc.cwd p' k h
  · by_cases hne : p' = p
    · subst hne
      rw [fdOf_setChild] at h
      obtain ⟨e, he, hk⟩ := Option.bind_eq_some_iff.mp h
      exact (hq e he).2 fd f hk
    · rw [fdOf_setChild_of_ne m q hne] at h
      exact hc.fd p' fd f h
  · by_cases hne : p' = p
    · rw [hne]; exact hp
    · rw [setChild_procs_of_ne m q hne] at h
      exact hc.proc p' e h

/-- `u` differs from `r` in what is held of files and in who holds descriptor `x`. -/
structure Hold.FdBut (x : Nat × Nat) (r u : Hold) : Prop where
  ino : u.ino = r.ino
  cwd : u.cwd = r.cwd
  fd : ∀ y ≠ x, (y ∈ u.fd ↔ y ∈ r.fd)

theorem Counts.setFd (hc : Counts m r) {e : Proc} (he : m.procs p = some e) (hfd : fd < NOFILE)
    (v : Option Nat) (hv : ∀ f, v = some f → f < NFILE) (hr : Hold.FdBut (p, fd) r u)
    (hcount : ∀ f < NFILE, (if (p, fd) ∉ u.fd ∧ v = some f then 1 else 0) + u.file f =
      fdCount m r p fd f + r.file f) :
    Counts (setChild p (some { e with ofile := update e.ofile fd v }) m) u := by
  have hother : ∀ fd', fdOf m p fd' = e.ofile fd' := fun fd' => by rw [fdOf, he]; rfl
  refine hc.setEntry (hc.proc p e he) (fun f hf => ?_) (fun k hk => ?_) (fun p' hne fd' => ?_)
    (fun p' _ => by rw [hr.cwd]) ?_
  · have h1 := hcount f hf
    -- the descriptors other than `fd` add what they added before
    have h2 := sum_add_of_eq_off (p := fd) (mem_range.mpr hfd)
      (f := fun fd' => fdCount (setChild p
        (some { e with ofile := update e.ofile fd v }) m) u p fd' f)
      (g := fun fd' => fdCount m r p fd' f) fun fd' _ hne => by
        have hx : (p, fd') ≠ (p, fd) := fun h => hne (Prod.mk.inj h).2
        simp only [fdCount, fdOf_setChild, hr.fd _ hx, hother, Option.bind_some,
          update_of_ne hne]
    have h3 : fdCount (setChild p (some { e with ofile := update e.ofile fd v }) m) u p fd
        f = if (p, fd) ∉ u.fd ∧ v = some f then 1 else 0 := by
      simp only [fdCount, fdOf_setChild, Option.bind_some, update_self]
    rw [h3] at h2
    omega
  · have h1 : cwdOf m p = e.cwd := by rw [cwdOf, he]; rfl
    simp only [cwdCount, cwdOf_setChild, hr.cwd, hr.ino, h1, Option.bind_some]
  · exact hr.fd _ fun h => hne (Prod.mk.inj h).1
  · rintro _ ⟨⟩
    refine ⟨fun k hk => hc.cwd p k (by rw [cwdOf, he]; exact hk), fun fd' f h => ?_⟩
    change update e.ofile fd v fd' = some f at h
    by_cases hne : fd' = fd
    · subst hne
      rw [update_self] at h
      exact ⟨hfd, hv f h⟩
    · rw [update_of_ne hne] at h
      exact hc.fd p fd' f ((hother fd').trans h)

theorem exists_of_fdOf (h : fdOf m p fd = some f) : ∃ e, m.procs p = some e ∧ e.ofile fd = some f :=
  Option.bind_eq_some_iff.mp h

theorem Counts.hideFd (hc : Counts m r) (h : fdOf m p fd = some f) (hx : (p, fd) ∉ r.fd) :
    Counts m ((r.hideFd p fd).addFile f) := by
  obtain ⟨e, he, hf⟩ := exists_of_fdOf h
  have := hc.setFd he (hc.fd p fd f h).1 (e.ofile fd) (fun f' h' => (hc.fd p fd f' ?_).2)
    (u := (r.hideFd p fd).addFile f) ⟨rfl, rfl, fun y hy => ?_⟩ fun f' _ => ?_
  · rw [update_eq_self, ← he, setChild_self] at this
    exact this
  · rw [fdOf, he]
    exact h'
  · exact ⟨fun h' => (mem_insert.mp h').resolve_left hy, mem_insert_of_mem⟩
  · have h1 : (p, fd) ∈ ((r.hideFd p fd).addFile f).fd := mem_insert_self (p, fd) r.fd
    rw [if_neg fun h' => h'.1 h1, fdCount, h]
    by_cases hne : f' = f
    · subst hne
      rw [if_pos ⟨hx, rfl⟩, Hold.addFile_self]
      exact (Nat.zero_add _).trans (Nat.add_comm _ 1)
    · rw [if_neg fun h' => hne (Option.some.inj h'.2).symm, Hold.addFile_of_ne _ hne]
      rfl

theorem Counts.showFd (hc : Counts m r) (h : fdOf m p fd = some f) (hx : (p, fd) ∈ r.fd)
    (h0 : 0 < r.file f) : Counts m ((r.showFd p fd).subFile f) := by
  obtain ⟨e, he, hf⟩ := exists_of_fdOf h
  have := hc.setFd he (hc.fd p fd f h).1 (e.ofile fd) (fun f' h' => (hc.fd p fd f' ?_).2)
    (u := (r.showFd p fd).subFile f) ⟨rfl, rfl, fun y hy => ?_⟩ fun f' _ => ?_
  · rw [update_eq_self, ← he, setChild_self] at this
    exact this
  · rw [fdOf, he]
    exact h'
  · exact ⟨mem_of_mem_erase, fun h' => mem_erase.mpr ⟨hy, h'⟩⟩
  · have h1 : (p, fd) ∉ ((r.showFd p fd).subFile f).fd := notMem_erase (p, fd) r.fd
    have h2 : fdCount m r p fd f' = 0 := if_neg fun h' => h'.1 hx
    rw [h2, hf]
    by_cases hne : f' = f
    · subst hne
      have h3 : (r.showFd p fd).file f' = r.file f' := rfl
      rw [if_pos ⟨h1, rfl⟩, Hold.subFile_self, h3]
      omega
    · rw [if_neg fun h' => hne (Option.some.inj h'.2).symm, Hold.subFile_of_ne _ hne]
      rfl

/-- A free descriptor gets a file; the reference is still the code's. -/
theorem Counts.putFd (hc : Counts m r) {e : Proc} (he : m.procs m.proc = some e)
    (hfd : fd < NOFILE) (hf : f < NFILE) (hn : e.ofile fd = none) :
    Counts (setProc (fun p => { p with ofile := update p.ofile fd (some f) }) m)
      (r.hideFd m.proc fd) := by
  have := hc.setFd he hfd (some f) (by rintro _ ⟨⟩; exact hf) (u := r.hideFd m.proc fd)
    ⟨rfl, rfl, fun y hy => ⟨fun h' => (mem_insert.mp h').resolve_left hy,
      mem_insert_of_mem⟩⟩ fun f' _ => by
    have h1 : (m.proc, fd) ∈ (r.hideFd m.proc fd).fd := mem_insert_self (m.proc, fd) r.fd
    have h2 : fdOf m m.proc fd = none := by rw [fdOf, he]; exact hn
    rw [if_neg fun h' => h'.1 h1, fdCount, h2, if_neg nofun]
    rfl
  rw [setProc, he]
  exact this

theorem Counts.clearFd (hc : Counts m r) {e : Proc} (he : m.procs m.proc = some e)
    (hfd : fd < NOFILE) (hx : (m.proc, fd) ∈ r.fd) :
    Counts (Xv6.clearFd fd m) (r.showFd m.proc fd) := by
  have := hc.setFd he hfd none nofun (u := r.showFd m.proc fd)
    ⟨rfl, rfl, fun y hy => ⟨mem_of_mem_erase, fun h' => mem_erase.mpr ⟨hy, h'⟩⟩⟩
    fun f' _ => by
    rw [if_neg nofun, fdCount, if_neg fun h' => h'.1 hx]
    rfl
  rw [Xv6.clearFd, setProc, he]
  exact this

theorem Counts.setCwdEntry (hc : Counts m r) {e : Proc} (he : m.procs p = some e)
    (v : Option Nat) (hv : ∀ k, v = some k → k < NINODE) (hfile : u.file = r.file)
    (hfd : u.fd = r.fd) (hr : ∀ p' ≠ p, (p' ∈ u.cwd ↔ p' ∈ r.cwd))
    (hcount : ∀ k < NINODE, (if p ∉ u.cwd ∧ v = some k then 1 else 0) + u.ino k =
      cwdCount m r p k + r.ino k) :
    Counts (setChild p (some { e with cwd := v }) m) u := by
  refine hc.setEntry (hc.proc p e he) (fun f _ => ?_) (fun k hk => ?_) (fun p' _ fd => by rw [hfd])
    hr ?_
  · have h1 : ∀ fd, fdOf m p fd = e.ofile fd := fun fd => by rw [fdOf, he]; rfl
    simp only [fdCount, fdOf_setChild, hfd, hfile, h1, Option.bind_some]
  · have h1 := hcount k hk
    simp only [cwdCount, cwdOf_setChild, Option.bind_some] at h1 ⊢
    exact h1
  · rintro _ ⟨⟩
    exact ⟨hv, fun fd f h => hc.fd p fd f (by rw [fdOf, he]; exact h)⟩

theorem exists_of_cwdOf (h : cwdOf m p = some k) : ∃ e, m.procs p = some e ∧ e.cwd = some k :=
  Option.bind_eq_some_iff.mp h

theorem Counts.hideCwd (hc : Counts m r) (h : cwdOf m p = some k) (hp : p ∉ r.cwd) :
    Counts m ((r.hideCwd p).addIno k) := by
  obtain ⟨e, he, hk⟩ := exists_of_cwdOf h
  have := hc.setCwdEntry he e.cwd (fun k' h' => hc.cwd p k' ?_) (u := (r.hideCwd p).addIno k)
    rfl rfl (fun p' hne => ?_) fun k' _ => ?_
  · rw [← he, setChild_self] at this
    exact this
  · rw [cwdOf, he]
    exact h'
  · exact ⟨fun h' => (mem_insert.mp h').resolve_left hne, mem_insert_of_mem⟩
  · have h1 : p ∈ ((r.hideCwd p).addIno k).cwd := mem_insert_self p r.cwd
    rw [if_neg fun h' => h'.1 h1, cwdCount, h]
    by_cases hne : k' = k
    · subst hne
      rw [if_pos ⟨hp, rfl⟩, Hold.addIno_self]
      exact (Nat.zero_add _).trans (Nat.add_comm _ 1)
    · rw [if_neg fun h' => hne (Option.some.inj h'.2).symm, Hold.addIno_of_ne _ hne]
      rfl

theorem Counts.setCwd (hc : Counts m r) {e : Proc} (he : m.procs m.proc = some e)
    (hk : k < NINODE) (hp : m.proc ∈ r.cwd) (h0 : 0 < r.ino k) :
    Counts (setProc (fun p => { p with cwd := some k }) m) ((r.showCwd m.proc).subIno k) := by
  have := hc.setCwdEntry he (some k) (by rintro _ ⟨⟩; exact hk)
    (u := (r.showCwd m.proc).subIno k) rfl rfl
    (fun p' hne => ⟨mem_of_mem_erase, fun h' => mem_erase.mpr ⟨hne, h'⟩⟩)
    fun k' _ => by
      have h1 : m.proc ∉ ((r.showCwd m.proc).subIno k).cwd := notMem_erase m.proc r.cwd
      have h2 : cwdCount m r m.proc k' = 0 := if_neg fun h' => h'.1 hp
      rw [h2]
      by_cases hne : k' = k
      · subst hne
        have h3 : (r.showCwd m.proc).ino k' = r.ino k' := rfl
        rw [if_pos ⟨h1, rfl⟩, Hold.subIno_self, h3]
        omega
      · rw [if_neg fun h' => hne (Option.some.inj h'.2).symm, Hold.subIno_of_ne _ hne]
        rfl
  rw [setProc, he]
  exact this

/-! ### Making and ending a process -/

/-- An entry that refers to nothing, or whose references the code has, can come and go. -/
theorem Counts.setIdle (hc : Counts m r) (hp : p < NPROC) (hfd : ∀ fd, fdOf m p fd = none)
    (hcwd : cwdOf m p = none ∨ p ∈ r.cwd)
    (hq : ∀ e, q = some e → e.cwd = none ∧ ∀ fd, e.ofile fd = none) :
    Counts (setChild p q m) (r.showCwd p) := by
  have hqfd : ∀ fd, fdOf (setChild p q m) p fd = none := fun fd => by
    rw [fdOf_setChild]
    cases q with
    | none => rfl
    | some e => exact (hq e rfl).2 fd
  have hqcwd : cwdOf (setChild p q m) p = none := by
    rw [cwdOf_setChild]
    cases q with
    | none => rfl
    | some e => exact (hq e rfl).1
  refine hc.setEntry hp (fun f _ => ?_) (fun k _ => ?_) (fun _ _ _ => Iff.rfl)
    (fun p' hne => ⟨mem_of_mem_erase, fun h' => mem_erase.mpr ⟨hne, h'⟩⟩) ?_
  · simp only [fdCount, hfd, hqfd]
    rfl
  · have h1 : cwdCount m r p k = 0 := if_neg fun h' => by
      rcases hcwd with h | h
      · rw [h] at h'
        cases h'.2
      · exact h'.1 h
    rw [h1, cwdCount, hqcwd, if_neg nofun]
    rfl
  · intro e he
    obtain ⟨h1, h2⟩ := hq e he
    refine ⟨fun k h => ?_, fun fd f h => ?_⟩
    · rw [h1] at h
      cases h
    · rw [h2 fd] at h
      cases h

theorem Counts.switch (hc : Counts m r) (p : Nat) : Counts { m with proc := p } r :=
  ⟨hc.ino, hc.file, hc.closed, hc.on, hc.cwd, hc.fd, hc.proc,
    hc.pipe.lt, hc.pipe.uniq, hc.pipe.opened, hc.pipe.freed⟩

/-- The first `n` descriptors `o` of a process are held. -/
def Hold.addFiles (r : Hold) (o : Nat → Option Nat) (n : Nat) : Hold :=
  { r with file := fun f => r.file f + ∑ fd ∈ Finset.range n, if o fd = some f then 1 else 0 }

theorem Hold.addFiles_none (r : Hold) (n : Nat) : r.addFiles (fun _ => Option.none) n = r := by
  unfold Hold.addFiles
  simp only [reduceCtorEq, if_false, sum_const_zero, Nat.add_zero]

theorem Hold.addFiles_succ_some (r : Hold) {o : Nat → Option Nat} {n f : Nat} (h : o n = some f) :
    r.addFiles o (n + 1) = (r.addFiles o n).addFile f := by
  unfold Hold.addFiles Hold.addFile
  congr 1
  funext g
  by_cases hg : g = f
  · subst hg
    simp only [sum_range_succ, h, update_self, if_true, Nat.add_assoc]
  · have hg' : some f ≠ some g := fun h => hg (Option.some.inj h).symm
    simp only [sum_range_succ, h, update_of_ne hg, if_neg hg', Nat.add_zero]

theorem Hold.addFiles_succ_none (r : Hold) {o : Nat → Option Nat} {n : Nat} (h : o n = Option.none) :
    r.addFiles o (n + 1) = r.addFiles o n := by
  unfold Hold.addFiles
  simp only [sum_range_succ, h, reduceCtorEq, if_false, Nat.add_zero]

/-- `fork` fills in the entry of the child: what the code holds for it becomes the child's. -/
theorem Counts.fork (hp : p < NPROC) {e : Proc}
    (hc : Counts m ((r.addFiles e.ofile NOFILE).addIno k)) (he : e.cwd = some k)
    (hchild : m.procs p = some embryo) (hrcwd : p ∉ r.cwd) (hrfd : ∀ fd, (p, fd) ∉ r.fd)
    (hk : k < NINODE) (hof : ∀ fd f, e.ofile fd = some f → fd < NOFILE ∧ f < NFILE) (b : Bool) :
    Counts (setChild p (some { e with runnable := b }) m) r := by
  have h1 : ∀ fd, fdOf m p fd = none := fun fd => by rw [fdOf, hchild]; rfl
  have h2 : cwdOf m p = none := by rw [cwdOf, hchild]; rfl
  refine hc.setEntry hp (fun f _ => ?_) (fun k' _ => ?_) (fun _ _ _ => Iff.rfl)
    (fun _ _ => Iff.rfl) ?_
  · have h3 : ∀ fd, fdCount (setChild p (some { e with runnable := b }) m) r p fd f =
        if e.ofile fd = some f then 1 else 0 := fun fd => by
      simp only [fdCount, fdOf_setChild, hrfd fd, Option.bind_some, not_false_iff, true_and]
    have h4 : ∀ fd, fdCount m ((r.addFiles e.ofile NOFILE).addIno k) p fd f = 0 := fun fd => by
      rw [fdCount, h1 fd, if_neg nofun]
    simp only [h3, h4, sum_const_zero, Nat.zero_add]
    exact Nat.add_comm _ _
  · have h3 : cwdCount m ((r.addFiles e.ofile NOFILE).addIno k) p k' = 0 := by
      rw [cwdCount, h2, if_neg nofun]
    rw [h3, cwdCount, cwdOf_setChild, Option.bind_some, he]
    by_cases hne : k' = k
    · subst hne
      rw [if_pos ⟨hrcwd, rfl⟩, Hold.addIno_self]
      change 1 + r.ino k' = 0 + (r.ino k' + 1)
      omega
    · rw [if_neg fun h' => hne (Option.some.inj h'.2).symm, Hold.addIno_of_ne _ hne]
      rfl
  · rintro _ ⟨⟩
    refine ⟨fun k' h' => ?_, hof⟩
    change e.cwd = some k' at h'
    rw [he] at h'
    cases h'
    exact hk

end Entry

/-! ### Changing the inode cache -/

/-- `m'` has the tables of `m`. -/
structure Frame (m m' : Mem) : Prop where
  procs : m'.procs = m.procs
  proc : m'.proc = m.proc
  ftable : m'.ftable = m.ftable
  pipes : m'.pipes = m.pipes
  npipe : m'.npipe = m.npipe

theorem Frame.refl (m : Mem) : Frame m m := ⟨rfl, rfl, rfl, rfl, rfl⟩

theorem Frame.trans {m m' m'' : Mem} (h : Frame m m') (h' : Frame m' m'') : Frame m m'' :=
  ⟨h'.procs.trans h.procs, h'.proc.trans h.proc, h'.ftable.trans h.ftable,
    h'.pipes.trans h.pipes, h'.npipe.trans h.npipe⟩

theorem frame_setInode (k : Nat) (g : Inode → Inode) (m : Mem) : Frame m (setInode k g m) :=
  ⟨rfl, rfl, rfl, rfl, rfl⟩

section Slots

variable {m m' : Mem} {r r' : Hold} {k f : Nat}

theorem cwdSet_congr (hprocs : m'.procs = m.procs) (hcwd : r'.cwd = r.cwd) :
    cwdSet m' r' k = cwdSet m r k :=
  filter_congr fun p _ => by rw [cwdOf, cwdOf, hprocs, hcwd]

theorem fdSet_congr (hprocs : m'.procs = m.procs) (hfd : r'.fd = r.fd) :
    fdSet m' r' f = fdSet m r f :=
  filter_congr fun x _ => by rw [fdOf, fdOf, hprocs, hfd]

theorem openSet_congr (hft : m'.ftable = m.ftable) : openSet m' k = openSet m k :=
  filter_congr fun f _ => by rw [OpenOn, OpenOn, hft]

theorem PipeCounts.congr (hp : PipeCounts m) (hpipes : m'.pipes = m.pipes)
    (hn : m'.npipe = m.npipe) (hend : ∀ i w f, PipeEnd m' i w f ↔ PipeEnd m i w f) :
    PipeCounts m' := by
  refine ⟨fun i w f h => ?_, fun i w f g h h' => ?_, fun i hi w => ?_, fun i hi => ?_⟩
  · rw [hn]
    exact hp.lt i w f ((hend i w f).mp h)
  · exact hp.uniq i w f g ((hend i w f).mp h) ((hend i w g).mp h')
  · rw [hn] at hi
    simp only [hpipes, hend]
    exact hp.opened i hi w
  · rw [hn] at hi
    rw [hpipes]
    exact hp.freed i hi

/-- Changes of the inode cache: what a slot gains, the code holds. -/
theorem Counts.frame (hc : Counts m r) (hf : Frame m m') (hfile : r'.file = r.file)
    (hcwd : r'.cwd = r.cwd) (hfd : r'.fd = r.fd)
    (href : ∀ k < NINODE, (m'.icache k).ref + r.ino k = (m.icache k).ref + r'.ino k) :
    Counts m' r' := by
  refine ⟨fun k hk => ?_, fun f hf' => ?_, ?_, ?_, ?_, ?_, ?_, ?_⟩
  · have := hc.ino k hk
    have := href k hk
    rw [cwdSet_congr hf.procs hcwd, openSet_congr hf.ftable]
    omega
  · rw [fdSet_congr hf.procs hfd, hf.ftable, hfile]
    exact hc.file f hf'
  · rw [hf.ftable]
    exact hc.closed
  · simp only [OpenOn, hf.ftable]
    exact hc.on
  · simp only [cwdOf, hf.procs]
    exact hc.cwd
  · simp only [fdOf, hf.procs]
    exact hc.fd
  · rw [hf.procs]
    exact hc.proc
  · refine hc.pipe.congr hf.pipes hf.npipe fun i w f => ?_
    simp only [PipeEnd, hf.ftable]

theorem Counts.setSlot (hc : Counts m r) (hs : Hold.SameBut k r r') (g : Inode → Inode)
    (href : k < NINODE → (g (m.icache k)).ref + r.ino k = (m.icache k).ref + r'.ino k) :
    Counts (setInode k g m) r' := by
  refine hc.frame (frame_setInode k g m) hs.file hs.cwd hs.fd fun k' hk' => ?_
  by_cases hne : k' = k
  · subst hne
    rw [setInode_self]
    exact href hk'
  · rw [setInode_of_ne m g hne, hs.ino k' hne]

theorem Counts.addIno (hc : Counts m r) (g : Inode → Inode)
    (href : (g (m.icache k)).ref = (m.icache k).ref + 1) :
    Counts (setInode k g m) (r.addIno k) :=
  hc.setSlot (r.sameBut_addIno k) g fun _ => by
    rw [href, Hold.addIno_self]
    omega

theorem Counts.subIno (hc : Counts m r) (h0 : 0 < r.ino k) :
    Counts (setInode k (fun ip => { ip with ref := ip.ref - 1 }) m) (r.subIno k) :=
  hc.setSlot (r.sameBut_subIno k) _ fun hk => by
    have := hc.ino k hk
    rw [Hold.subIno_self]
    change (m.icache k).ref - 1 + _ = _
    omega

end Slots

/-! ### Changing the file table -/

section Files

variable {m m' : Mem} {r r' : Hold} {f : Nat} {ff : File}

/-- What file `f` adds to the count of slot `k`. -/
def openCount (m : Mem) (f k : Nat) : Nat := if OpenOn m f k then 1 else 0

theorem card_openSet (m : Mem) (k : Nat) :
    (openSet m k).card = ∑ f ∈ Finset.range NFILE, openCount m f k := by
  rw [openSet, card_filter]
  rfl

/-- What file `ff` would add to the count of slot `k`. -/
def File.count (ff : File) (k : Nat) : Nat :=
  if 0 < ff.ref ∧ ff.type = .FD_INODE ∧ ff.ip = k then 1 else 0

theorem openCount_eq (m : Mem) (f k : Nat) : openCount m f k = (m.ftable f).count k := rfl

theorem Counts.setEntryFile (hc : Counts m r) (hf : f < NFILE)
    (hm : m'.ftable = update m.ftable f ff) (hprocs : m'.procs = m.procs)
    (hic : m'.icache = m.icache) (hcwd : r'.cwd = r.cwd) (hfd : r'.fd = r.fd)
    (hother : ∀ g ≠ f, r'.file g = r.file g)
    (href : ff.ref + r.file f = (m.ftable f).ref + r'.file f)
    (hino : ∀ k < NINODE, ff.count k + r'.ino k = (m.ftable f).count k + r.ino k)
    (hclosed : ff.ref = 0 → ff.type = .FD_NONE)
    (hon : 0 < ff.ref → ff.type = .FD_INODE → ff.ip < NINODE) (hpipe : PipeCounts m') :
    Counts m' r' := by
  have hself : m'.ftable f = ff := by rw [hm, update_self]
  have hne : ∀ g ≠ f, m'.ftable g = m.ftable g := fun g h => by rw [hm, update_of_ne h]
  refine ⟨fun k hk => ?_, fun g hg => ?_, fun g hg => ?_, fun g hg k => ?_, ?_, ?_, ?_, hpipe⟩
  · have h1 := hc.ino k hk
    have h2 := hino k hk
    have h4 := sum_add_of_eq_off (f := fun g => openCount m' g k) (g := fun g => openCount m g k)
      (mem_range.mpr hf) fun g _ h => by
        rw [openCount_eq, openCount_eq, hne g h]
    rw [← card_openSet, ← card_openSet, openCount_eq, openCount_eq, hself] at h4
    rw [hic, cwdSet_congr hprocs hcwd]
    omega
  · have h2 := hc.file g hg
    rw [fdSet_congr hprocs hfd]
    by_cases h : g = f
    · subst h
      rw [hself]
      omega
    · rw [hne g h, hother g h]
      exact h2
  · by_cases h : g = f
    · subst h
      rw [hself]
      exact hclosed
    · rw [hne g h]
      exact hc.closed g hg
  · by_cases h : g = f
    · subst h
      rw [OpenOn, hself]
      rintro ⟨h1, h2, rfl⟩
      exact hon h1 h2
    · rw [OpenOn, hne g h]
      exact hc.on g hg k
  · simp only [cwdOf, hprocs]
    exact hc.cwd
  · simp only [fdOf, hprocs]
    exact hc.fd
  · rw [hprocs]
    exact hc.proc

/-- A change of a file that stays what it is: of its count, while it is open, or of its
offset. -/
theorem PipeCounts.setFile (hp : PipeCounts m) (g : File → File)
    (hg : (0 < (g (m.ftable f)).ref ∧ (g (m.ftable f)).type = .FD_PIPE ↔
      0 < (m.ftable f).ref ∧ (m.ftable f).type = .FD_PIPE))
    (hpipe : (m.ftable f).type = .FD_PIPE → (g (m.ftable f)).pipe = (m.ftable f).pipe ∧
      (g (m.ftable f)).writable = (m.ftable f).writable) : PipeCounts (setFile f g m) := by
  refine hp.congr rfl rfl fun i w h => ?_
  rw [PipeEnd, PipeEnd, Xv6.setFile]
  by_cases hne : h = f
  · subst hne
    simp only [update_self, ← and_assoc]
    grind
  · simp only [update_of_ne hne]

/-- A change of a file that is no end of a pipe, before and after. -/
theorem PipeCounts.setOther (hp : PipeCounts m) (g : File → File)
    (h : (m.ftable f).type ≠ .FD_PIPE) (hg : (g (m.ftable f)).type ≠ .FD_PIPE) :
    PipeCounts (Xv6.setFile f g m) :=
  hp.setFile g ⟨fun h' => absurd h'.2 hg, fun h' => absurd h'.2 h⟩ fun h' => absurd h' h

/-- Changes of the count of a file, and of what says nothing about its users. -/
theorem Counts.setCount (hc : Counts m r) (hf : f < NFILE) (g : File → File)
    (hcwd : r'.cwd = r.cwd) (hfd : r'.fd = r.fd) (hino : r'.ino = r.ino)
    (hother : ∀ g ≠ f, r'.file g = r.file g)
    (href : (g (m.ftable f)).ref + r.file f = (m.ftable f).ref + r'.file f)
    (hpos : 0 < (g (m.ftable f)).ref)
    (hold : 0 < (m.ftable f).ref ∨ (m.ftable f).type = .FD_NONE)
    (htype : (g (m.ftable f)).type = (m.ftable f).type)
    (hip : (g (m.ftable f)).ip = (m.ftable f).ip)
    (hpipe : (g (m.ftable f)).pipe = (m.ftable f).pipe)
    (hwr : (g (m.ftable f)).writable = (m.ftable f).writable) :
    Counts (setFile f g m) r' := by
  refine hc.setEntryFile hf rfl rfl rfl hcwd hfd hother href (fun k _ => ?_) (fun h => by omega)
    (fun _ h => ?_) (hc.pipe.setFile g ⟨?_, ?_⟩ fun _ => ⟨hpipe, hwr⟩)
  · rw [hino, File.count, File.count, htype, hip]
    rcases hold with h | h
    · simp only [hpos, h, true_and]
    · simp only [h, reduceCtorEq, false_and, and_false]
  · rw [htype] at h
    rw [hip]
    refine hc.on f hf _ ⟨hold.resolve_right fun h' => ?_, h, rfl⟩
    rw [h] at h'
    cases h'
  · rintro ⟨_, h⟩
    rw [htype] at h
    refine ⟨hold.resolve_right fun h' => ?_, h⟩
    rw [h] at h'
    cases h'
  · rintro ⟨_, h⟩
    exact ⟨hpos, htype.trans h⟩

theorem Counts.alloc (hc : Counts m r) (hf : f < NFILE) (h0 : (m.ftable f).ref = 0) :
    Counts (setFile f (fun ff => { ff with ref := 1 }) m) (r.addFile f) :=
  hc.setCount hf _ rfl rfl rfl (fun _ hne => r.addFile_of_ne hne)
    (by rw [h0, Hold.addFile_self]; dsimp only; omega) Nat.one_pos (.inr (hc.closed f hf h0)) rfl rfl rfl rfl

theorem Counts.dupFile (hc : Counts m r) (hf : f < NFILE) (h0 : 0 < (m.ftable f).ref) :
    Counts (setFile f (fun ff => { ff with ref := ff.ref + 1 }) m) (r.addFile f) :=
  hc.setCount hf _ rfl rfl rfl (fun _ hne => r.addFile_of_ne hne)
    (by rw [Hold.addFile_self]; dsimp only; omega) (Nat.succ_pos _) (.inl h0) rfl rfl rfl rfl

theorem Counts.dropFile (hc : Counts m r) (hf : f < NFILE) (h1 : 1 < (m.ftable f).ref)
    (h0 : 0 < r.file f) :
    Counts (setFile f (fun ff => { ff with ref := ff.ref - 1 }) m) (r.subFile f) :=
  hc.setCount hf _ rfl rfl rfl (fun _ hne => r.subFile_of_ne hne)
    (by rw [Hold.subFile_self]; dsimp only; omega) (Nat.sub_pos_of_lt h1) (.inl (by omega)) rfl rfl
    rfl rfl

theorem Counts.setOff (hc : Counts m r) (hf : f < NFILE) (h0 : 0 < (m.ftable f).ref) (off : Nat) :
    Counts (setFile f (fun ff => { ff with off := off }) m) r :=
  hc.setCount hf _ rfl rfl rfl (fun _ _ => rfl) rfl h0 (.inl h0) rfl rfl rfl rfl

def File.closed (ff : File) : File := { ff with ref := 0, type := .FD_NONE }

theorem File.count_closed (ff : File) (k : Nat) : ff.closed.count k = 0 :=
  if_neg fun h => Nat.lt_irrefl 0 h.1

/-- `fileclose` drops the last reference: the code now holds what the file held. -/
theorem Counts.close (hc : Counts m r) (hf : f < NFILE) (h1 : (m.ftable f).ref = 1)
    (h0 : 0 < r.file f) (hm : m'.ftable = update m.ftable f (m.ftable f).closed)
    (hprocs : m'.procs = m.procs) (hic : m'.icache = m.icache) (hcwd : r'.cwd = r.cwd)
    (hfd : r'.fd = r.fd) (hfile : r'.file = (r.subFile f).file)
    (hino : ∀ k < NINODE, r'.ino k = (m.ftable f).count k + r.ino k) (hpipe : PipeCounts m') :
    Counts m' r' := by
  refine hc.setEntryFile hf hm hprocs hic hcwd hfd (fun g hne => ?_) ?_ (fun k hk => ?_)
    (fun _ => rfl) (fun h => absurd h (Nat.lt_irrefl 0)) hpipe
  · rw [hfile, Hold.subFile_of_ne r hne]
  · rw [hfile, Hold.subFile_self, h1]
    change 0 + _ = _
    omega
  · rw [File.count_closed, hino k hk, Nat.zero_add]

theorem Counts.closeInode (hc : Counts m r) (hf : f < NFILE) (h1 : (m.ftable f).ref = 1)
    (h0 : 0 < r.file f) (ht : (m.ftable f).type = .FD_INODE) :
    Counts (setFile f File.closed m) ((r.subFile f).addIno (m.ftable f).ip) := by
  refine hc.close hf h1 h0 rfl rfl rfl rfl rfl rfl (fun k _ => ?_)
    (hc.pipe.setOther _ (by rw [ht]; nofun) (by nofun))
  · rw [File.count, h1, ht]
    by_cases hk : k = (m.ftable f).ip
    · subst hk
      rw [if_pos ⟨Nat.one_pos, rfl, rfl⟩, Hold.addIno_self]
      exact Nat.add_comm _ _
    · rw [if_neg fun h => hk h.2.2.symm, Hold.addIno_of_ne _ hk, Nat.zero_add]
      rfl

theorem Counts.closeNone (hc : Counts m r) (hf : f < NFILE) (h1 : (m.ftable f).ref = 1)
    (h0 : 0 < r.file f) (ht : (m.ftable f).type = .FD_NONE) :
    Counts (setFile f File.closed m) (r.subFile f) := by
  refine hc.close hf h1 h0 rfl rfl rfl rfl rfl rfl (fun k _ => ?_)
    (hc.pipe.setOther _ (by rw [ht]; nofun) (by nofun))
  rw [File.count, ht, if_neg (fun h => nomatch h.2.1), Nat.zero_add]
  rfl

/-- `sys_open` turns a new file into one on slot `k`, which keeps the reference. -/
theorem Counts.openFile (hc : Counts m r) (hf : f < NFILE) (href : 0 < (m.ftable f).ref)
    (ht : (m.ftable f).type = .FD_NONE) {k : Nat} (hk : k < NINODE) (h0 : 0 < r.ino k)
    (omode : Nat) : Counts (setFile f (openedFile k omode) m) (r.subIno k) := by
  refine hc.setEntryFile hf rfl rfl rfl rfl rfl (fun _ _ => rfl) rfl (fun k' _ => ?_)
    (fun h => absurd h href.ne') (fun _ _ => hk) (hc.pipe.setOther _ (by rw [ht]; nofun) (by nofun))
  have h1 : (m.ftable f).count k' = 0 := if_neg fun h => by
    rw [ht] at h
    cases h.2.1
  rw [h1, File.count]
  by_cases hne : k' = k
  · subst hne
    rw [if_pos ⟨href, rfl, rfl⟩, Hold.subIno_self]
    omega
  · rw [if_neg fun h => hne h.2.2.symm, Hold.subIno_of_ne _ hne]

end Files

/-! ### Changing pipes -/

section Pipes

variable {m m' : Mem} {r : Hold} {f i : Nat} {w : Bool} {ff : File} {P : Pipe}

theorem Pipe.opened_close (w : Bool) (P : Pipe) : (P.close w).opened w = false := by
  cases w <;> cases P with | mk a b n => cases a <;> cases b <;> rfl

theorem Pipe.opened_close_not (w : Bool) (P : Pipe) :
    (P.close w).opened (!w) = P.opened (!w) := by
  cases w <;> cases P with | mk a b n => cases a <;> cases b <;> rfl

theorem Pipe.frees_close (w : Bool) (P : Pipe) :
    (P.close w).frees = P.frees + if P.opened (!w) then 0 else 1 := by
  cases w <;> cases P with | mk a b n => cases a <;> cases b <;> rfl

/-- Whether a pipe has an end open, said of one end and the other. -/
theorem Pipe.or_opened (w : Bool) (P : Pipe) :
    (P.readopen || P.writeopen) = (P.opened w || P.opened (!w)) := by
  cases w with
  | false => rfl
  | true => exact Bool.or_comm ..

/-- Pipe `i` changes, and with it the files that are ends of it. -/
theorem PipeCounts.setPipe (hp : PipeCounts m) (hn : m'.npipe = m.npipe) (hi : i < m.npipe)
    (hpipes : m'.pipes = update m.pipes i P)
    (hother : ∀ j w f, j ≠ i → (PipeEnd m' j w f ↔ PipeEnd m j w f))
    (huniq : ∀ w f g, PipeEnd m' i w f → PipeEnd m' i w g → f = g)
    (hopen : ∀ w, P.opened w = true ↔ ∃ f, PipeEnd m' i w f)
    (hfrees : P.frees = if P.readopen || P.writeopen then 0 else 1) : PipeCounts m' := by
  have hne : ∀ j ≠ i, m'.pipes j = m.pipes j := fun j h => by rw [hpipes, update_of_ne h]
  have hself : m'.pipes i = P := by rw [hpipes, update_self]
  refine ⟨fun j w f h => ?_, fun j w f g h h' => ?_, fun j hj w => ?_, fun j hj => ?_⟩
  · rw [hn]
    by_cases hji : j = i
    · rw [hji]; exact hi
    · exact hp.lt j w f ((hother j w f hji).mp h)
  · by_cases hji : j = i
    · subst hji
      exact huniq w f g h h'
    · exact hp.uniq j w f g ((hother j w f hji).mp h) ((hother j w g hji).mp h')
  · rw [hn] at hj
    by_cases hji : j = i
    · subst hji
      rw [hself]
      exact hopen w
    · rw [hne j hji, hp.opened j hj w]
      exact exists_congr fun f => (hother j w f hji).symm
  · rw [hn] at hj
    by_cases hji : j = i
    · subst hji
      rw [hself]
      exact hfrees
    · rw [hne j hji]
      exact hp.freed j hj

/-- The last descriptor of an end of a pipe goes: the end is closed. -/
theorem PipeCounts.closeEnd (hp : PipeCounts m) (he : PipeEnd m i w f)
    (hm : m'.ftable = update m.ftable f (m.ftable f).closed) (hn : m'.npipe = m.npipe)
    (hpipes : m'.pipes = update m.pipes i ((m.pipes i).close w)) : PipeCounts m' := by
  have hi := hp.lt i w f he
  -- the ends in `m'` are those in `m` without `f`
  have hend : ∀ j w' g, PipeEnd m' j w' g ↔ PipeEnd m j w' g ∧ g ≠ f := fun j w' g => by
    rw [PipeEnd, PipeEnd, hm]
    by_cases hg : g = f
    · subst hg
      rw [update_self]
      exact ⟨fun h => absurd h.2.1 (Nat.lt_irrefl 0), fun h => absurd rfl h.2⟩
    · rw [update_of_ne hg]
      exact ⟨fun h => ⟨h, hg⟩, fun h => h.1⟩
  have hopened : (m.pipes i).opened w = true := (hp.opened i hi w).mpr ⟨f, he⟩
  refine hp.setPipe hn hi hpipes (fun j w' g hj => ?_)
    (fun w' g g' h h' => hp.uniq i w' g g' ((hend i w' g).mp h).1 ((hend i w' g').mp h').1)
    (fun w' => ?_) ?_
  · rw [hend]
    refine and_iff_left_of_imp fun h hg => hj ?_
    rw [hg] at h
    exact h.2.2.2.1.symm.trans he.2.2.2.1
  · by_cases hw : w' = w
    · subst hw
      rw [Pipe.opened_close]
      refine ⟨nofun, fun ⟨g, h⟩ => ?_⟩
      obtain ⟨h1, h2⟩ := (hend i w' g).mp h
      exact absurd (hp.uniq i w' g f h1 he) h2
    · obtain rfl : w' = !w := Bool.eq_not_of_ne hw
      rw [Pipe.opened_close_not, hp.opened i hi]
      refine exists_congr fun g => ?_
      rw [hend]
      refine (and_iff_left_of_imp fun h hg => hw ?_).symm
      rw [hg] at h
      exact h.2.2.2.2.symm.trans he.2.2.2.2
  · have h1 := hp.freed i hi
    rw [Pipe.or_opened w, hopened] at h1
    rw [Pipe.frees_close, h1, Pipe.or_opened w, Pipe.opened_close, Pipe.opened_close_not]
    exact Nat.zero_add _

theorem PipeCounts.addEnd (hp : PipeCounts m) (hf : f < NFILE) (hi : i < m.npipe)
    (ht : (m.ftable f).type = .FD_NONE) (hclosed : (m.pipes i).opened w = false)
    (hm : m'.ftable = update m.ftable f ff) (href : 0 < ff.ref) (hff : ff.type = .FD_PIPE)
    (hfi : ff.pipe = i) (hfw : ff.writable = w) (hn : m'.npipe = m.npipe)
    (hpipes : m'.pipes = update m.pipes i P) (hP : P.opened w = true)
    (hP' : P.opened (!w) = (m.pipes i).opened (!w)) (hPf : P.frees = 0) : PipeCounts m' := by
  have hself : PipeEnd m' i w f := by
    refine ⟨hf, ?_⟩
    rw [hm, update_self]
    exact ⟨href, hff, hfi, hfw⟩
  have hnot : ∀ j w', ¬ PipeEnd m j w' f := fun j w' h => by
    have := h.2.2.1
    rw [ht] at this
    cases this
  have hne : ∀ j w' g, g ≠ f → (PipeEnd m' j w' g ↔ PipeEnd m j w' g) := fun j w' g hg => by
    rw [PipeEnd, PipeEnd, hm, update_of_ne hg]
  have hwf : ∀ j w', PipeEnd m' j w' f → j = i ∧ w' = w := fun j w' h => by
    obtain ⟨-, -, -, h1, h2⟩ := h
    rw [hm, update_self] at h1 h2
    exact ⟨h1.symm.trans hfi, h2.symm.trans hfw⟩
  have hno : ∀ g, ¬ PipeEnd m i w g := fun g h => by
    rw [(hp.opened i hi w).mpr ⟨g, h⟩] at hclosed
    cases hclosed
  refine hp.setPipe hn hi hpipes (fun j w' g hj => ?_) (fun w' g g' h h' => ?_) (fun w' => ?_) ?_
  · by_cases hg : g = f
    · subst hg
      exact ⟨fun h => absurd (hwf j w' h).1 hj, fun h => absurd h (hnot j w')⟩
    · exact hne j w' g hg
  · by_cases hg : g = f
    · by_cases hg' : g' = f
      · rw [hg, hg']
      · subst hg
        obtain rfl := (hwf i w' h).2
        exact absurd ((hne i w' g' hg').mp h') (hno g')
    · by_cases hg' : g' = f
      · subst hg'
        obtain rfl := (hwf i w' h').2
        exact absurd ((hne i w' g hg).mp h) (hno g)
      · exact hp.uniq i w' g g' ((hne i w' g hg).mp h) ((hne i w' g' hg').mp h')
  · by_cases hw : w' = w
    · subst hw
      exact ⟨fun _ => ⟨f, hself⟩, fun _ => hP⟩
    · obtain rfl : w' = !w := Bool.eq_not_of_ne hw
      rw [hP', hp.opened i hi]
      refine exists_congr fun g => ?_
      by_cases hg : g = f
      · subst hg
        exact ⟨fun h => absurd h (hnot i _), fun h => absurd (hwf i _ h).2 hw⟩
      · exact (hne i _ g hg).symm
  · rw [Pipe.or_opened w, hP, hPf]
    rfl

theorem Counts.closePipe (hc : Counts m r) (hf : f < NFILE) (h1 : (m.ftable f).ref = 1)
    (h0 : 0 < r.file f) (ht : (m.ftable f).type = .FD_PIPE) :
    Counts { setFile f File.closed m with
      pipes := update m.pipes (m.ftable f).pipe
        ((m.pipes (m.ftable f).pipe).close (m.ftable f).writable) } (r.subFile f) := by
  refine hc.close hf h1 h0 rfl rfl rfl rfl rfl rfl (fun k _ => ?_)
    (hc.pipe.closeEnd ⟨hf, by rw [h1]; exact Nat.one_pos, ht, rfl, rfl⟩ rfl rfl rfl)
  rw [File.count, ht, if_neg (fun h => nomatch h.2.1), Nat.zero_add]
  rfl

/-- A number for a pipe that has no ends. -/
def noPipe (m : Mem) : Mem :=
  { m with pipes := update m.pipes m.npipe ⟨false, false, 1⟩, npipe := m.npipe + 1 }

theorem Counts.noPipe (hc : Counts m r) : Counts (Xv6.noPipe m) r := by
  refine ⟨hc.ino, hc.file, hc.closed, hc.on, hc.cwd, hc.fd, hc.proc, fun i w f h => ?_,
    hc.pipe.uniq, fun i hi w => ?_, fun i hi => ?_⟩
  · exact Nat.lt_succ_of_lt (hc.pipe.lt i w f h)
  · change (update m.pipes m.npipe _ i).opened w = true ↔ ∃ f, PipeEnd m i w f
    rcases Nat.lt_succ_iff_lt_or_eq.mp hi with h | rfl
    · rw [update_of_ne h.ne]
      exact hc.pipe.opened i h w
    · rw [update_self]
      refine ⟨fun h => (by cases w <;> cases h), fun ⟨f, h⟩ => ?_⟩
      exact absurd (hc.pipe.lt _ w f h) (Nat.lt_irrefl _)
  · rcases Nat.lt_succ_iff_lt_or_eq.mp hi with h | rfl
    · simp only [Xv6.noPipe, update_of_ne h.ne]
      exact hc.pipe.freed i h
    · simp only [Xv6.noPipe, update_self]
      rfl

theorem Counts.addEnd (hc : Counts m r) (hf : f < NFILE) (href : 0 < (m.ftable f).ref)
    (hi : i < m.npipe) (ht : (m.ftable f).type = .FD_NONE)
    (hclosed : (m.pipes i).opened w = false) (hP : P.opened w = true)
    (hP' : P.opened (!w) = (m.pipes i).opened (!w)) (hPf : P.frees = 0) :
    Counts { setFile f (pipeEnd i w) m with pipes := update m.pipes i P } r := by
  refine hc.setEntryFile hf rfl rfl rfl rfl rfl (fun _ _ => rfl) rfl (fun k _ => ?_)
    (fun h => absurd h href.ne') (by nofun)
    (hc.pipe.addEnd hf hi ht hclosed rfl href rfl rfl rfl rfl rfl hP hP' hPf)
  have h1 : (m.ftable f).count k = 0 := if_neg fun h => by
    rw [ht] at h
    cases h.2.1
  rw [h1, File.count, if_neg (fun h => nomatch h.2.1)]

theorem Counts.newPipe (hc : Counts m r) {g : Nat} (hf : f < NFILE) (hg : g < NFILE) (hne : g ≠ f)
    (href : 0 < (m.ftable f).ref) (ht : (m.ftable f).type = .FD_NONE)
    (hrefg : 0 < (m.ftable g).ref) (htg : (m.ftable g).type = .FD_NONE) :
    Counts (setFile g (pipeEnd m.npipe true) (setFile f (pipeEnd m.npipe false)
      (Xv6.newPipe m))) r := by
  -- the ends are added one after the other to a pipe that has none
  have h1 := hc.noPipe.addEnd (f := f) (i := m.npipe) (w := false) (P := ⟨true, false, 0⟩) hf href
    (Nat.lt_succ_self _) ht (by rw [Xv6.noPipe]; simp only [update_self]; rfl) rfl
    (by rw [Xv6.noPipe]; simp only [update_self]; rfl) rfl
  have h2 := h1.addEnd (f := g) (i := m.npipe) (w := true) (P := ⟨true, true, 0⟩) hg
    (by simp only [setFile, update_of_ne hne]; exact hrefg) (Nat.lt_succ_self _)
    (by simp only [setFile, update_of_ne hne]; exact htg)
    (by simp only [update_self]; rfl) rfl (by simp only [update_self]; rfl) rfl
  simp only [update_idem, Xv6.noPipe] at h2
  exact h2

end Pipes

end Xv6
