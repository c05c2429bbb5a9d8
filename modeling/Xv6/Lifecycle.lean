import Xv6.ProcTable

/-!
# Process numbers, and who waits for whom

What the history of a run says about the process table. `heir` is the parent that a process should
have: the one that forked it, until that one exits, and then `init`. The table follows it: every
process in the table has the parent that the history gives it, except for the children
that a process in the loop of `exit` has already passed on.
-/

namespace Xv6

namespace ProcTable

open ProcState Spinlock Code

/-! ### Histories -/

/-- How many slots `allocproc` has taken. -/
def allocs : List Event → Nat
  | [] => 0
  | .alloc _ _ :: h => allocs h + 1
  | _ :: h => allocs h

/-- What `wait` has returned. -/
def reaped : List Event → List Int
  | [] => []
  | .reap _ _ pid :: h => pid :: reaped h
  | _ :: h => reaped h

/-- The parent of process `pid`: who forked it, or `init` if that one has exited since. -/
def heir (pid : Int) : List Event → Option Nat
  | [] => none
  | .fork p _ pid' :: h => if pid' = pid then some p else heir pid h
  | .exit p :: h => if heir pid h = some p then some initproc else heir pid h
  | _ :: h => heir pid h

/-- Whatever `wait` has returned, it has returned to its parent. -/
def Rightful : List Event → Prop
  | [] => True
  | .reap p _ pid :: h => heir pid h = some p ∧ Rightful h
  | _ :: h => Rightful h

/-- An event that concerns neither births nor deaths. -/
def neutral : Event → Bool
  | .kill _ _ => true
  | .fault _ => true
  | .force _ => true
  | _ => false

/-! ### The invariant -/

/-- The numbers of processes: fresh ones are larger than all that were given away. -/
structure Pids (s : State) : Prop where
  next : s.nextpid = allocs s.hist + 1
  lt : ∀ i, 0 ≤ (s.proc i).pid ∧ (s.proc i).pid < s.nextpid
  pos : ∀ i, (s.proc i).state ≠ UNUSED → 0 < (s.proc i).pid
  inj : ∀ i j, i ≠ j → (s.proc i).pid = (s.proc j).pid → (s.proc i).pid = 0
  forked : ∀ p i pid, Event.fork p i pid ∈ s.hist → 0 < pid ∧ pid < s.nextpid
  gone : ∀ pid ∈ reaped s.hist, 0 < pid ∧ pid < s.nextpid ∧ ∀ i, (s.proc i).pid ≠ pid

/-- What becomes of the processes. -/
structure Life (s : State) : Prop where
  once : (reaped s.hist).Nodup
  rightful : Rightful s.hist
  stays : ∀ p i pid, Event.fork p i pid ∈ s.hist → pid ∈ reaped s.hist ∨
    (s.proc i).pid = pid ∧ Occupied (s.proc i).state
  /-- A process has the parent that the history says, but for the loop of `exit`. -/
  parent : ∀ i, Occupied (s.proc i).state → i ≠ initproc →
    (s.proc i).parent = heir (s.proc i).pid s.hist ∨
    (s.proc i).parent = some initproc ∧
      ∃ c, heir (s.proc i).pid s.hist = some c ∧ leaving i (s.code c) = true

/-- A step in which nobody is born, dies or gets another parent. -/
structure Frame (s s' : State) : Prop where
  next : s'.nextpid = s.nextpid
  hist : s'.hist = s.hist
  pid : ∀ i, (s'.proc i).pid = (s.proc i).pid
  used : ∀ i, (s'.proc i).state ≠ UNUSED → (s.proc i).state ≠ UNUSED
  occupied : ∀ i, Occupied (s'.proc i).state ↔ Occupied (s.proc i).state
  parent : ∀ i, Occupied (s.proc i).state → (s'.proc i).parent = (s.proc i).parent
  leaving : ∀ c i, leaving i (s.code c) = true → leaving i (s'.code c) = true

variable {n : Nat} {s s' : State} {p q i j : Nat} {k : Code} {f : Proc → Proc}

namespace Frame

theorem of_eq (hnext : s'.nextpid = s.nextpid) (hhist : s'.hist = s.hist)
    (hproc : s'.proc = s.proc) (hcode : s'.code = s.code) : Frame s s' where
  next := hnext
  hist := hhist
  pid i := by rw [hproc]
  used i hi := by rwa [hproc] at hi
  occupied i := by rw [hproc]
  parent i _ := by rw [hproc]
  leaving c i hi := by rwa [hcode]

theorem goto (h : Frame s s') (hcode : s'.code = s.code)
    (hk : ∀ i, ProcTable.leaving i (s.code p) = true → ProcTable.leaving i k = true) :
    Frame s (s'.goto p k) where
  next := h.next
  hist := h.hist
  pid := h.pid
  used := h.used
  occupied := h.occupied
  parent := h.parent
  leaving c i hi := by
    rcases eq_or_ne c p with rfl | e
    · rw [State.code_goto_self]
      exact hk i hi
    · rw [State.code_goto_of_ne e, hcode]
      exact hi

theorem set (hpid : (f (s.proc i)).pid = (s.proc i).pid)
    (hused : (f (s.proc i)).state ≠ UNUSED → (s.proc i).state ≠ UNUSED)
    (hocc : Occupied (f (s.proc i)).state ↔ Occupied (s.proc i).state)
    (hpar : Occupied (s.proc i).state → (f (s.proc i)).parent = (s.proc i).parent) :
    Frame s (s.set i f) := by
  refine ⟨rfl, rfl, fun j => ?_, fun j => ?_, fun j => ?_, fun j => ?_, fun _ _ => id⟩ <;>
    rcases eq_or_ne j i with rfl | e
  all_goals first
    | rw [State.proc_set_self]; assumption
    | rw [State.proc_set_of_ne e]
  · exact id
  · exact fun _ => rfl

end Frame

/-! ### Process numbers -/

theorem incr_small {h : List Event} (hs : allocs h + 1 < 2 ^ 31 - 1) :
    incr ((allocs h : Int) + 1) = (allocs h : Int) + 1 + 1 := by
  rw [incr, Int.bmod_eq_of_le] <;> omega

namespace Pids

theorem frame (h : Pids s) (hf : Frame s s') : Pids s' := by
  refine ⟨?_, fun i => ?_, fun i hi => ?_, fun i j hne => ?_, ?_, ?_⟩
  · rw [hf.next, hf.hist]
    exact h.next
  · rw [hf.pid, hf.next]
    exact h.lt i
  · rw [hf.pid]
    exact h.pos i (hf.used i hi)
  · rw [hf.pid, hf.pid]
    exact h.inj i j hne
  · rw [hf.hist, hf.next]
    exact h.forked
  · rw [hf.hist, hf.next]
    exact fun pid hpid => ⟨(h.gone pid hpid).1, (h.gone pid hpid).2.1, fun i =>
      (hf.pid i) ▸ (h.gone pid hpid).2.2 i⟩

theorem log (h : Pids s) {e : Event} (halloc : allocs (e :: s.hist) = allocs s.hist)
    (hreap : reaped (e :: s.hist) = reaped s.hist)
    (hfork : ∀ p i pid, e = .fork p i pid → 0 < pid ∧ pid < s.nextpid) : Pids (s.log e) where
  next := by
    change s.nextpid = allocs (e :: s.hist) + 1
    rw [halloc]
    exact h.next
  lt := h.lt
  pos := h.pos
  inj := h.inj
  forked p i pid hmem := by
    rcases List.mem_cons.mp hmem with he | hold
    · exact hfork p i pid he.symm
    · exact h.forked p i pid hold
  gone := by
    change ∀ pid ∈ reaped (e :: s.hist), _
    rw [hreap]
    exact h.gone

theorem set (h : Pids s) (hpid : (f (s.proc i)).pid = (s.proc i).pid)
    (hused : (f (s.proc i)).state ≠ UNUSED → (s.proc i).state ≠ UNUSED) : Pids (s.set i f) := by
  have e : ∀ j, ((s.set i f).proc j).pid = (s.proc j).pid := by
    intro j
    rcases eq_or_ne j i with rfl | hj
    · rw [State.proc_set_self, hpid]
    · rw [State.proc_set_of_ne hj]
  refine ⟨h.next, fun j => (e j).symm ▸ h.lt j, fun j hj => ?_, fun j j' => ?_, h.forked,
    fun pid hmem => ⟨(h.gone pid hmem).1, (h.gone pid hmem).2.1, fun j => ?_⟩⟩
  · rw [e]
    rcases eq_or_ne j i with rfl | hne
    · rw [State.proc_set_self] at hj
      exact h.pos j (hused hj)
    · rw [State.proc_set_of_ne hne] at hj
      exact h.pos j hj
  · rw [e, e]
    exact h.inj j j'
  · rw [e]
    exact (h.gone pid hmem).2.2 j

theorem goto (h : Pids s) : Pids (s.goto p k) := ⟨h.next, h.lt, h.pos, h.inj, h.forked, h.gone⟩

theorem found (h : Pids s) (hs : allocs s.hist + 1 < 2 ^ 31 - 1)
    (hnext : s'.nextpid = incr s.nextpid) (hhist : s'.hist = .alloc i s.nextpid :: s.hist)
    (hself : (s'.proc i).pid = s.nextpid) (hother : ∀ j ≠ i, s'.proc j = s.proc j) :
    Pids s' := by
  have hnext : s'.nextpid = s.nextpid + 1 := by
    rw [hnext, h.next]
    exact incr_small hs
  have hpos : 0 < s.nextpid := by
    rw [h.next]
    omega
  refine ⟨?_, fun j => ?_, fun j hj => ?_, fun j j' hne => ?_, fun p j pid hmem => ?_,
    fun pid hmem => ?_⟩
  · rw [hnext, hhist, h.next, allocs]
    omega
  · rw [hnext]
    rcases eq_or_ne j i with rfl | e
    · rw [hself]
      omega
    · rw [hother j e]
      have := h.lt j
      omega
  · rcases eq_or_ne j i with rfl | e
    · rw [hself]
      exact hpos
    · rw [hother j e] at hj ⊢
      exact h.pos j hj
  · -- the new number is larger than all the others
    rcases eq_or_ne j i with e | e <;> rcases eq_or_ne j' i with e' | e'
    · exact absurd (e.trans e'.symm) hne
    · rw [e, hself, hother j' e']
      have := h.lt j'
      omega
    · rw [e', hself, hother j e]
      have := h.lt j
      omega
    · rw [hother j e, hother j' e']
      exact h.inj j j' hne
  · rw [hhist] at hmem
    have := h.forked p j pid ((List.mem_cons.mp hmem).resolve_left nofun)
    omega
  · rw [hhist] at hmem
    obtain ⟨h1, h2, h3⟩ := h.gone pid hmem
    refine ⟨h1, by omega, fun j => ?_⟩
    rcases eq_or_ne j i with rfl | e
    · rw [hself]
      omega
    · rw [hother j e]
      exact h3 j

theorem reap (h : Pids s) (hst : (s.proc i).state ≠ UNUSED) (hnext : s'.nextpid = s.nextpid)
    (hhist : s'.hist = .reap p i (s.proc i).pid :: s.hist)
    (hself : s'.proc i = (s.proc i).free) (hother : ∀ j ≠ i, s'.proc j = s.proc j) : Pids s' := by
  have hzero : (s'.proc i).pid = 0 := by
    rw [hself]
    rfl
  have hpos := h.pos i hst
  have hlt := (h.lt i).2
  refine ⟨?_, fun j => ?_, fun j hj => ?_, fun j j' hne => ?_, fun p j pid hmem => ?_,
    fun pid hmem => ?_⟩
  · rw [hnext, hhist]
    exact h.next
  · rw [hnext]
    rcases eq_or_ne j i with rfl | e
    · rw [hzero]
      omega
    · rw [hother j e]
      exact h.lt j
  · rcases eq_or_ne j i with rfl | e
    · rw [hself] at hj
      exact absurd rfl hj
    · rw [hother j e] at hj ⊢
      exact h.pos j hj
  · rcases eq_or_ne j i with e | e <;> rcases eq_or_ne j' i with e' | e'
    · exact absurd (e.trans e'.symm) hne
    · rw [e]
      exact fun _ => hzero
    · rw [e', hzero]
      exact id
    · rw [hother j e, hother j' e']
      exact h.inj j j' hne
  · rw [hhist] at hmem
    rw [hnext]
    exact h.forked p j pid ((List.mem_cons.mp hmem).resolve_left nofun)
  · rw [hhist] at hmem
    rw [hnext]
    rcases List.mem_cons.mp hmem with rfl | hold
    · refine ⟨hpos, hlt, fun j heq => ?_⟩
      rcases eq_or_ne j i with rfl | e
      · omega
      · rw [hother j e] at heq
        have := h.inj j i e heq
        omega
    · obtain ⟨h1, h2, h3⟩ := h.gone pid hold
      refine ⟨h1, h2, fun j => ?_⟩
      rcases eq_or_ne j i with rfl | e
      · omega
      · rw [hother j e]
        exact h3 j

end Pids

/-! ### Parents, by the history -/

namespace Life

theorem frame (h : Life s) (hf : Frame s s') : Life s' := by
  refine ⟨?_, ?_, fun p i pid hmem => ?_, fun i hi hne => ?_⟩
  · rw [hf.hist]
    exact h.once
  · rw [hf.hist]
    exact h.rightful
  · rw [hf.hist] at hmem ⊢
    rw [hf.pid, hf.occupied]
    exact h.stays p i pid hmem
  · have ho := (hf.occupied i).mp hi
    rw [hf.pid, hf.hist, hf.parent i ho]
    rcases h.parent i ho hne with heq | ⟨h1, c, h2, h3⟩
    · exact .inl heq
    · exact .inr ⟨h1, c, h2, hf.leaving c i h3⟩

theorem log (h : Life s) {e : Event} (he : neutral e = true) : Life (s.log e) := by
  have h1 : reaped (e :: s.hist) = reaped s.hist := by cases e <;> first | rfl | cases he
  have h2 : Rightful (e :: s.hist) = Rightful s.hist := by cases e <;> first | rfl | cases he
  have h3 : ∀ pid, heir pid (e :: s.hist) = heir pid s.hist := by
    intro pid
    cases e <;> first | rfl | cases he
  have h4 : ∀ p i pid, Event.fork p i pid ∈ e :: s.hist → Event.fork p i pid ∈ s.hist := by
    intro p i pid hmem
    refine (List.mem_cons.mp hmem).resolve_left ?_
    rintro rfl
    cases he
  refine ⟨?_, ?_, fun p i pid hmem => ?_, fun i hi hne => ?_⟩
  · exact (congrArg List.Nodup h1).mpr h.once
  · exact h2.mpr h.rightful
  · exact (h.stays p i pid (h4 p i pid hmem)).imp_left fun hr => h1.symm ▸ hr
  · change _ = heir _ (e :: s.hist) ∨ _ ∧ ∃ c, heir _ (e :: s.hist) = some c ∧ _
    rw [h3]
    exact h.parent i hi hne

theorem found (h : Life s) (hst : (s.proc i).state = UNUSED)
    (hhist : s'.hist = .alloc i s.nextpid :: s.hist) (hself : (s'.proc i).state = EMBRYO)
    (hother : ∀ j ≠ i, s'.proc j = s.proc j)
    (hleaving : ∀ c j, leaving j (s.code c) = true → leaving j (s'.code c) = true) : Life s' := by
  have hold : ¬ Occupied (s.proc i).state := by
    rw [hst]
    decide
  have hnew : ¬ Occupied (s'.proc i).state := by
    rw [hself]
    decide
  refine ⟨hhist ▸ h.once, hhist ▸ h.rightful, fun p j pid hmem => ?_, fun j ho hne => ?_⟩
  · rw [hhist] at hmem ⊢
    rcases h.stays p j pid ((List.mem_cons.mp hmem).resolve_left nofun) with hr | ⟨h1, h2⟩
    · exact .inl hr
    · have e : j ≠ i := by
        rintro rfl
        exact hold h2
      rw [hother j e]
      exact .inr ⟨h1, h2⟩
  · have e : j ≠ i := by
      rintro rfl
      exact hnew ho
    rw [hother j e] at ho ⊢
    rw [hhist]
    rcases h.parent j ho hne with heq | ⟨h1, c, h2, h3⟩
    · exact .inl heq
    · exact .inr ⟨h1, c, h2, hleaving c j h3⟩

/-- The child of slot `i` belongs to the process `p` that has forked it. -/
theorem born (h : Life s) (hpids : Pids s) (hst : (s.proc i).state = EMBRYO)
    (hpar : (s.proc i).parent = some p)
    (hhist : s'.hist = .fork p i (s.proc i).pid :: s.hist)
    (hself : s'.proc i = { s.proc i with state := RUNNABLE })
    (hother : ∀ j ≠ i, s'.proc j = s.proc j)
    (hleaving : ∀ c j, leaving j (s.code c) = true → leaving j (s'.code c) = true) : Life s' := by
  have hold : ¬ Occupied (s.proc i).state := by
    rw [hst]
    decide
  have hpos := hpids.pos i (by rw [hst]; nofun)
  refine ⟨hhist ▸ h.once, hhist ▸ h.rightful, fun q j pid hmem => ?_, fun j ho hne => ?_⟩
  · rw [hhist] at hmem ⊢
    rcases List.mem_cons.mp hmem with heq | hmem
    · cases heq
      rw [hself]
      exact .inr ⟨rfl, .inl (.inr (.inl rfl))⟩
    · rcases h.stays q j pid hmem with hr | ⟨h1, h2⟩
      · exact .inl hr
      · have e : j ≠ i := by
          rintro rfl
          exact hold h2
        rw [hother j e]
        exact .inr ⟨h1, h2⟩
  · rw [hhist]
    rcases eq_or_ne j i with rfl | e
    · rw [hself]
      left
      change (s.proc j).parent = _
      rw [hpar, heir, if_pos rfl]
    · rw [hother j e] at ho ⊢
      -- no other process has the number of the child
      have hpid : (s.proc i).pid ≠ (s.proc j).pid := by
        intro heq
        have := hpids.inj i j e.symm heq
        omega
      rw [heir, if_neg hpid]
      rcases h.parent j ho hne with heq | ⟨h1, c, h2, h3⟩
      · exact .inl heq
      · exact .inr ⟨h1, c, h2, hleaving c j h3⟩

/-- The children of `p` belong to `init` now, and the table says so. -/
theorem exit (h : Life s) (hleft : ∀ j, (s.proc j).parent ≠ some p)
    (halone : ∀ c j, leaving j (s.code c) = true → c = p)
    (hhist : s'.hist = .exit p :: s.hist)
    (hproc : ∀ j, (s'.proc j).pid = (s.proc j).pid ∧ (s'.proc j).parent = (s.proc j).parent ∧
      (Occupied (s'.proc j).state ↔ Occupied (s.proc j).state)) : Life s' := by
  refine ⟨hhist ▸ h.once, hhist ▸ h.rightful, fun q j pid hmem => ?_, fun j ho hne => ?_⟩
  · rw [hhist] at hmem ⊢
    rw [(hproc j).1, (hproc j).2.2]
    exact h.stays q j pid ((List.mem_cons.mp hmem).resolve_left nofun)
  · rw [hhist, (hproc j).1, (hproc j).2.1, heir]
    left
    rcases h.parent j ((hproc j).2.2.mp ho) hne with heq | ⟨h1, c, h2, h3⟩
    · rw [if_neg (heq ▸ hleft j)]
      exact heq
    · rw [if_pos (halone c j h3 ▸ h2)]
      exact h1

theorem reparent (h : Life s) (hpar : (s.proc i).parent = some p) (hne : p ≠ initproc)
    (hhist : s'.hist = s.hist) (hself : s'.proc i = { s.proc i with parent := some initproc })
    (hother : ∀ j ≠ i, s'.proc j = s.proc j)
    (hleaving : ∀ c j, leaving j (s.code c) = true → leaving j (s'.code c) = true)
    (hpassed : leaving i (s'.code p) = true) : Life s' := by
  refine ⟨hhist ▸ h.once, hhist ▸ h.rightful, fun q j pid hmem => ?_, fun j ho hj => ?_⟩
  · rw [hhist] at hmem ⊢
    refine (h.stays q j pid hmem).imp_right fun ⟨h1, h2⟩ => ?_
    rcases eq_or_ne j i with rfl | e
    · rw [hself]
      exact ⟨h1, h2⟩
    · rw [hother j e]
      exact ⟨h1, h2⟩
  · rw [hhist]
    rcases eq_or_ne j i with rfl | e
    · rw [hself] at ho ⊢
      rcases h.parent j ho hj with heq | ⟨h1, -⟩
      · exact .inr ⟨rfl, p, heq ▸ hpar, hpassed⟩
      · rw [hpar] at h1
        exact absurd (Option.some.inj h1) hne
    · rw [hother j e] at ho ⊢
      rcases h.parent j ho hj with heq | ⟨h1, c, h2, h3⟩
      · exact .inl heq
      · exact .inr ⟨h1, c, h2, hleaving c j h3⟩

theorem reap (h : Life s) (hpids : Pids s) (hst : (s.proc i).state = ZOMBIE) (hi : i ≠ initproc)
    (hpar : (s.proc i).parent = some p) (halone : ∀ c j, leaving j (s.code c) = false)
    (hhist : s'.hist = .reap p i (s.proc i).pid :: s.hist)
    (hself : s'.proc i = (s.proc i).free) (hother : ∀ j ≠ i, s'.proc j = s.proc j) : Life s' := by
  have parent : ∀ j, Occupied (s.proc j).state → j ≠ initproc →
      (s.proc j).parent = heir (s.proc j).pid s.hist := fun j ho hj =>
    (h.parent j ho hj).resolve_right fun ⟨_, c, _, h3⟩ =>
      Bool.noConfusion ((halone c j).symm.trans h3)
  refine ⟨?_, ?_, fun q j pid hmem => ?_, fun j ho hj => ?_⟩
  · rw [hhist]
    refine List.nodup_cons.mpr ⟨fun hmem => ?_, h.once⟩
    exact (hpids.gone _ hmem).2.2 i rfl
  · rw [hhist]
    exact ⟨(parent i (.inr hst) hi).symm.trans hpar, h.rightful⟩
  · rw [hhist] at hmem ⊢
    rcases h.stays q j pid ((List.mem_cons.mp hmem).resolve_left nofun) with hr | ⟨h1, h2⟩
    · exact .inl (List.mem_cons_of_mem _ hr)
    · rcases eq_or_ne j i with rfl | e
      · exact .inl (h1 ▸ List.mem_cons_self)
      · rw [hother j e]
        exact .inr ⟨h1, h2⟩
  · have e : j ≠ i := by
      rintro rfl
      rw [hself] at ho
      exact absurd ho (by decide : ¬ Occupied UNUSED)
    rw [hother j e] at ho ⊢
    rw [hhist]
    exact .inl (parent j ho hj)

end Life

/-! ### Steps and runs -/

/-- The invariant of numbers and parents, as long as the numbers do not run out. -/
def Track (s : State) : Prop := allocs s.hist < 2 ^ 31 - 1 → Pids s ∧ Life s

theorem Track.frame (h : Track s) (hf : Frame s s') : Track s' := fun hs => by
  obtain ⟨h1, h2⟩ := h (hf.hist ▸ hs)
  exact ⟨h1.frame hf, h2.frame hf⟩

theorem Track.log (h : Track s) {e : Event} (he : neutral e = true) : Track (s.log e) := by
  have ha : allocs (e :: s.hist) = allocs s.hist := by cases e <;> first | rfl | cases he
  intro hs
  obtain ⟨h1, h2⟩ := h (ha ▸ hs)
  refine ⟨h1.log ha (by cases e <;> first | rfl | cases he) fun p i pid heq => ?_, h2.log he⟩
  rw [heq] at he
  cases he

theorem track_init : Track init := by
  refine fun _ => ⟨⟨rfl, fun i => ?_, fun i hi => ?_, fun i j hne => ?_, fun p i pid hmem => ?_,
    nofun⟩, ⟨List.nodup_nil, trivial, fun p i pid hmem => ?_, fun i ho hne => ?_⟩⟩
  · simp only [init]
    split <;> decide
  · simp only [init] at hi ⊢
    split at hi
    · next e => simp [e]
    · exact absurd rfl hi
  · simp only [init]
    split <;> split <;> simp_all
  · simp [init] at hmem
  · simp [init] at hmem
  · simp only [init, if_neg hne] at ho
    exact absurd ho (by decide)

theorem leaving_goto (t : State) (hcode : t.code = s.code)
    (hk : ∀ j, leaving j (s.code p) = true → leaving j k = true) (c j : Nat)
    (h : leaving j (s.code c) = true) : leaving j ((t.goto p k).code c) = true := by
  rcases eq_or_ne c p with rfl | e
  · rw [State.code_goto_self]
    exact hk j h
  · rw [State.code_goto_of_ne e, hcode]
    exact h

theorem occupied_wake {c : Option Chan} (x : Proc) :
    Occupied (Proc.wake c x).state ↔ Occupied x.state := by
  rw [Proc.wake]
  split
  · next h =>
    rw [h.1]
    exact iff_of_true (.inl (.inr (.inl rfl))) (.inl (.inl rfl))
  · rfl

theorem pid_wake {c : Option Chan} (x : Proc) :
    (Proc.wake c x).pid = x.pid ∧ (Proc.wake c x).parent = x.parent ∧
      ((Proc.wake c x).state ≠ UNUSED → x.state ≠ UNUSED) := by
  rw [Proc.wake]
  split
  · next h => exact ⟨rfl, rfl, fun _ => by rw [h.1]; rintro ⟨⟩⟩
  · exact ⟨rfl, rfl, id⟩

theorem Track.exec (h : Inv n s) (ht : Track s) {ok : Bool} (hn : p < n) (hp : s.onCpu p = true)
    (he : Exec n s p ok s') : Track s' := by
  have running : ∀ {c}, s.code p = c → (∀ k, c ≠ Code.sched k) → (s.proc p).state = RUNNING :=
    fun hc hne => h.locked.running_of_ne hp (hc ▸ hne)
  have occupied : ∀ {c}, s.code p = c → (∀ k, c ≠ Code.sched k) → Occupied (s.proc p).state :=
    fun hc hne => .inl (.inr (.inr (running hc hne)))
  have used : ∀ {c}, s.code p = c → (∀ k, c ≠ Code.sched k) → (s.proc p).state ≠ UNUSED :=
    fun hc hne => by rw [running hc hne]; rintro ⟨⟩
  cases he with
  | acquire hc _ | release hc _ | sched hc _ =>
    refine ht.frame (Frame.goto (Frame.of_eq ?_ ?_ ?_ ?_) ?_ (by rw [hc]; rintro _ ⟨⟩)) <;> rfl
  | asleep hc =>
    exact ht.frame ((Frame.set rfl (fun _ => used hc (by rintro _ ⟨⟩))
      (iff_of_true (.inl (.inl rfl)) (occupied hc (by rintro _ ⟨⟩)))
      fun _ => rfl).goto rfl (by rw [hc]; rintro _ ⟨⟩))
  | runnable hc =>
    exact ht.frame ((Frame.set rfl (fun _ => used hc (by rintro _ ⟨⟩))
      (iff_of_true (.inl (.inr (.inl rfl))) (occupied hc (by rintro _ ⟨⟩)))
      fun _ => rfl).goto rfl (by rw [hc]; rintro _ ⟨⟩))
  | clearChan hc =>
    exact ht.frame ((Frame.set rfl id Iff.rfl fun _ => rfl).goto rfl (by rw [hc]; rintro _ ⟨⟩))
  | wake hc =>
    exact ht.frame ((Frame.set (pid_wake _).1 (pid_wake _).2.2 (occupied_wake _)
      fun _ => (pid_wake _).2.1).goto rfl fun j hj => by rw [hc] at hj; exact hj)
  | woken hc _ =>
    exact ht.frame ((Frame.of_eq rfl rfl rfl rfl).goto rfl fun j hj => by rw [hc] at hj; exact hj)
  | taken hc | copyuvm hc | exit hc | pass hc _ | waitSleep hc _ | miss hc =>
    exact ht.frame ((Frame.of_eq rfl rfl rfl rfl).goto rfl (by rw [hc]; rintro _ ⟨⟩))
  | give hc =>
    refine ht.frame ((Frame.of_eq rfl rfl rfl rfl).goto rfl ?_)
    rcases hc with ⟨i, hc⟩ | ⟨i, b, hc⟩ | ⟨pid, i, hc⟩ <;> rw [hc] <;> rintro _ ⟨⟩
  | @fail i _ hc =>
    have hst : (s.proc i).state = EMBRYO := by
      rcases hc with hc | hc <;> exact (h.forks.embryo p i false (by rw [hc]; rfl)).2
    refine ht.frame ((Frame.set rfl (fun hne => absurd rfl hne) ?_ fun _ => rfl).goto rfl ?_)
    · rw [hst]
      exact iff_of_false (by decide : ¬ Occupied UNUSED) (by decide)
    · rcases hc with hc | hc <;> rw [hc] <;> rintro _ ⟨⟩
  | @adopt i hc =>
    have hst : (s.proc i).state = EMBRYO := (h.forks.embryo p i false (by rw [hc]; rfl)).2
    refine ht.frame ((Frame.set rfl id Iff.rfl fun ho => ?_).goto rfl (by rw [hc]; rintro _ ⟨⟩))
    rw [hst] at ho
    exact absurd ho (by decide)
  | @skip i hc hpar =>
    refine ht.frame ((Frame.of_eq rfl rfl rfl rfl).goto rfl fun j hj => ?_)
    rw [hc] at hj
    have := of_decide_eq_true (p := j < i) hj
    exact decide_eq_true (by omega)
  | passed hc hi => exact ht.frame ((Frame.of_eq rfl rfl rfl rfl).goto rfl fun _ _ => rfl)
  | @mark i pid hc hi hpid =>
    have hocc : Occupied (s.proc i).kill.state ↔ Occupied (s.proc i).state := by
      rw [Proc.kill]
      dsimp only
      split
      · next hst =>
        rw [hst]
        exact iff_of_true (.inl (.inr (.inl rfl))) (.inl (.inl rfl))
      · rfl
    have hf : Frame s (s.set i Proc.kill) := by
      refine Frame.set rfl (fun hne hst => ?_) hocc fun _ => rfl
      rw [Proc.kill, hst, if_neg (by rintro ⟨⟩)] at hne
      exact hne rfl
    exact (ht.frame
      (hf.goto (p := p) (k := Code.release user) rfl (by rw [hc]; rintro _ ⟨⟩))).log rfl
  | @kstack i hc =>
    have hst : (s.proc i).state = EMBRYO := (h.forks.embryo p i false (by rw [hc]; rfl)).2
    refine ht.frame ⟨rfl, rfl, fun _ => rfl, fun _ => id, fun _ => Iff.rfl, fun _ _ => rfl,
      fun c j hj => ?_⟩
    -- neither the forking process nor the new one is in `exit`
    have hcp : c ≠ p := by
      rintro rfl
      rw [hc] at hj
      cases hj
    have hci : c ≠ i := by
      rintro rfl
      have := h.locked.occupied c (h.locked.of_leaves (leaves_of_leaving hj)).1
      rw [hst] at this
      exact absurd this (by decide)
    rw [State.code_goto_of_ne hcp, State.code_goto_of_ne hci]
    exact hj
  | @found i hc hi hst =>
    intro hs
    have hs' : allocs s.hist + 1 < 2 ^ 31 - 1 := hs
    obtain ⟨h1, h2⟩ := ht (by omega)
    have hother : ∀ j ≠ i, (({ s with nextpid := incr s.nextpid }.set i
        ({ · with state := EMBRYO, pid := s.nextpid })).log (.alloc i s.nextpid)
          |>.goto p (release (kstack i))).proc j = s.proc j := fun j hj =>
      State.proc_set_of_ne (s := { s with nextpid := incr s.nextpid })
        (f := ({ · with state := EMBRYO, pid := s.nextpid })) hj
    have hself : (({ s with nextpid := incr s.nextpid }.set i
        ({ · with state := EMBRYO, pid := s.nextpid })).log (.alloc i s.nextpid)
          |>.goto p (release (kstack i))).proc i
        = { s.proc i with state := EMBRYO, pid := s.nextpid } :=
      State.proc_set_self (s := { s with nextpid := incr s.nextpid })
        (f := ({ · with state := EMBRYO, pid := s.nextpid }))
    exact ⟨h1.found hs' rfl rfl (by rw [hself]) hother,
      h2.found hst rfl (by rw [hself]) hother (leaving_goto _ rfl (by rw [hc]; rintro _ ⟨⟩))⟩
  | @born i hc =>
    intro hs
    obtain ⟨h1, h2⟩ := ht hs
    have hprep : prep (s.code p) = some (i, true) := by rw [hc]; rfl
    have hst : (s.proc i).state = EMBRYO := (h.forks.embryo p i true hprep).2
    have hused : (s.proc i).state ≠ UNUSED := by rw [hst]; rintro ⟨⟩
    refine ⟨((h1.set (f := ({ · with state := RUNNABLE })) rfl fun _ => hused).log rfl rfl
        fun q j pid heq => ?_).goto,
      h2.born h1 hst (h.forks.adopted p i hprep) rfl
        (State.proc_set_self (s := s) (f := ({ · with state := RUNNABLE })))
        (fun j hj => State.proc_set_of_ne (s := s) (f := ({ · with state := RUNNABLE })) hj)
        (leaving_goto _ rfl (by rw [hc]; rintro _ ⟨⟩))⟩
    cases heq
    exact ⟨h1.pos i hused, (h1.lt i).2⟩
  | @reparent i hc hpar =>
    have hne : p ≠ initproc := by
      rintro rfl
      have := h.family.stays
      rw [hc] at this
      cases this
    generalize hk : (if (s.proc i).state = ZOMBIE then
      wakeup1 (some (.proc initproc)) 0 (Code.reparent (i + 1)) else Code.reparent (i + 1)) = k
    have hleaving : ∀ j, leaving j k = decide (j < i + 1) := by
      subst hk
      split <;> exact fun _ => rfl
    intro hs
    obtain ⟨h1, h2⟩ := ht hs
    refine ⟨(h1.set (f := ({ · with parent := some initproc })) rfl id).goto,
      h2.reparent hpar hne rfl
        (State.proc_set_self (s := s) (f := ({ · with parent := some initproc })))
        (fun j hj => State.proc_set_of_ne (s := s) (f := ({ · with parent := some initproc })) hj)
        (leaving_goto _ rfl fun j hj => ?_) ?_⟩
    · rw [hc] at hj
      have := of_decide_eq_true (p := j < i) hj
      rw [hleaving]
      exact decide_eq_true (by omega)
    · rw [State.code_goto_self, hleaving]
      exact decide_eq_true (by omega)
  | zombie hc =>
    intro hs
    obtain ⟨h1, h2⟩ := ht hs
    refine ⟨((h1.set (f := ({ · with state := ZOMBIE })) rfl
      fun _ => used hc (by rintro _ ⟨⟩)).log rfl rfl
        fun _ _ _ heq => by cases heq).goto,
      h2.exit (fun j => h.family.left p j (by rw [hc]; rfl)) (fun c j hj => ?_) rfl fun j => ?_⟩
    · have hl := h.locked.of_leaves (leaves_of_leaving hj)
      exact h.locked.unique hl.1 hp hl.2 (by rw [hc]; rfl)
    · change ((s.set p ({ · with state := ZOMBIE })).proc j).pid = _ ∧
        ((s.set p ({ · with state := ZOMBIE })).proc j).parent = _ ∧
        (Occupied ((s.set p ({ · with state := ZOMBIE })).proc j).state ↔ _)
      rcases eq_or_ne j p with rfl | e
      · rw [State.proc_set_self]
        exact ⟨rfl, rfl, iff_of_true (.inr rfl) (occupied hc (by rintro _ ⟨⟩))⟩
      · rw [State.proc_set_of_ne e]
        exact ⟨rfl, rfl, Iff.rfl⟩
  | @reap i b hc hpar hst =>
    intro hs
    obtain ⟨h1, h2⟩ := ht hs
    have hother : ∀ j ≠ i, (s.set i Proc.free).proc j = s.proc j := fun j hj =>
      State.proc_set_of_ne (s := s) hj
    refine ⟨h1.reap (by rw [hst]; rintro ⟨⟩) rfl rfl
      (State.proc_set_self (s := s) (f := Proc.free)) hother,
      h2.reap h1 hst (h.family.root i p hpar).2 hpar (fun c j => ?_) rfl
        (State.proc_set_self (s := s) (f := Proc.free)) hother⟩
    -- `p` holds the lock, and is in `wait`
    cases hl : leaving j (s.code c) with
    | false => rfl
    | true =>
      have hlock := h.locked.of_leaves (leaves_of_leaving hl)
      obtain rfl := h.locked.unique hlock.1 hp hlock.2 (by rw [hc]; rfl)
      rw [hc] at hl
      cases hl

theorem Track.call (ht : Track s) {c : Call} (hc : s.code p = user) (he : call s p c = some s') :
    Track s' := by
  have start : ∀ k, Track (s.goto p k) := fun k =>
    ht.frame ((Frame.of_eq rfl rfl rfl rfl).goto rfl (by rw [hc]; rintro _ ⟨⟩))
  cases c with
  | fork | wait | kill _ | sleep _ | wakeup _ | yield => cases he; exact start _
  | exit =>
    simp only [ProcTable.call] at he
    split at he
    · cases he
    · cases he; exact start _
  | trap =>
    simp only [ProcTable.call] at he
    split at he
    · split at he
      · cases he
      · cases he; exact (start (Code.acquire Code.exit)).log rfl
    · cases he; exact ht
  | fault => cases he; exact (ht.frame (Frame.set rfl id Iff.rfl fun _ => rfl)).log rfl

theorem Track.step (h : Inv n s) (ht : Track s) {a : Act} (he : step n s a = some s') :
    Track s' := by
  -- an interrupted process is not in the loop of `exit`
  have interrupt : ∀ p k, owns (s.code p) = false → Track (s.goto p k) := fun p k ho =>
    ht.frame ((Frame.of_eq rfl rfl rfl rfl).goto rfl fun j hj =>
      Bool.noConfusion (ho.symm.trans (h.locked.of_leaves (leaves_of_leaving hj)).2))
  cases a with
  | call p c =>
    simp only [ProcTable.step] at he
    split at he
    · next hp => exact ht.call hp.2.2 he
    · cases he
  | exec p ok =>
    simp only [ProcTable.step] at he
    split at he
    · next hp => exact ht.exec h hp.1 hp.2 (exec_cases he)
    · cases he
  | tick p =>
    simp only [ProcTable.step] at he
    split at he
    · next hp => cases he; exact interrupt p _ hp.2.2
    · cases he
  | device p c =>
    simp only [ProcTable.step] at he
    split at he
    · next hp => cases he; exact interrupt p _ hp.2.2
    · cases he
  | lockTable =>
    simp only [ProcTable.step] at he
    split at he
    · cases he; exact ht.frame (Frame.of_eq rfl rfl rfl rfl)
    · cases he
  | dispatch p =>
    simp only [ProcTable.step] at he
    split at he
    · next hp =>
      cases he
      have hf : Frame s (s.set p ({ · with state := RUNNING })) :=
        Frame.set rfl (fun _ => by rw [hp.2.2]; rintro ⟨⟩)
          (iff_of_true (.inl (.inr (.inr rfl))) (.inl (.inr (.inl hp.2.2)))) fun _ => rfl
      exact ht.frame ⟨rfl, rfl, hf.pid, hf.used, hf.occupied, hf.parent, hf.leaving⟩
    · cases he
  | unlockTable =>
    simp only [ProcTable.step] at he
    split at he
    · cases he; exact ht.frame (Frame.of_eq rfl rfl rfl rfl)
    · cases he

theorem track_run {acts : List Act} (hrun : runActs n acts init = some s) : Inv n s ∧ Track s :=
  runActs_induction (P := fun s => Inv n s ∧ Track s)
    (fun _ _ _ h he => ⟨h.1.step he, h.2.step h.1 he⟩) ⟨inv_init, track_init⟩ hrun

/-! ### The life cycle -/

/-- What holds of the process table while `ptable.lock` is free. -/
structure Sound (s : State) : Prop where
  pid_pos : ∀ i, (s.proc i).state ≠ UNUSED → 0 < (s.proc i).pid
  pid_inj : ∀ i j, (s.proc i).state ≠ UNUSED → (s.proc j).state ≠ UNUSED →
    (s.proc i).pid = (s.proc j).pid → i = j
  parent : ∀ i, Occupied (s.proc i).state → i ≠ initproc →
    ∃ q, (s.proc i).parent = some q ∧ Alive (s.proc q).state
  wait : ∀ p i, Asleep p s → (s.proc i).parent = some p → (s.proc i).state ≠ ZOMBIE

/-- **Life cycle of processes.** In every run in which `allocproc` hands out fewer than `2 ^ 31 - 1`
slots, whenever `ptable.lock` is free the processes have different positive numbers, every
process but the first has a parent that can run, and nobody sleeps in `wait` with a `ZOMBIE` child.
`wait` returns no process twice, and only to the parent that the history gives it; until
then a forked process keeps its slot. -/
theorem process_lifecycle (n : Nat) (acts : List Act) (s : State)
    (hrun : runActs n acts init = some s) (hfew : allocs s.hist < 2 ^ 31 - 1) :
    (s.lock = none → Sound s) ∧ (reaped s.hist).Nodup ∧ Rightful s.hist ∧
      ∀ p i pid, Event.fork p i pid ∈ s.hist → pid ∈ reaped s.hist ∨
        (s.proc i).pid = pid ∧ Occupied (s.proc i).state := by
  obtain ⟨h, ht⟩ := track_run hrun
  obtain ⟨h1, h2⟩ := ht hfew
  refine ⟨fun hl => ⟨h1.pos, fun i j hi _ heq => ?_, fun i ho hne => ?_, fun p i ha hi => ?_⟩,
    h2.once, h2.rightful, h2.stays⟩
  · by_contra hne
    have := h1.inj i j hne heq
    have := h1.pos i hi
    omega
  · obtain ⟨q, hq⟩ := Option.ne_none_iff_exists'.mp (h.family.child i ho hne)
    exact ⟨q, hq, (h.family.alive i q hq).2.2⟩
  · exact h.zombie_of_free hl ha hi

/-- `init` forks a process and waits for it, and the process exits. -/
def forkWait : List Act :=
  [.lockTable, .dispatch 0, .exec 0 true, .call 0 .fork] ++ List.replicate 8 (.exec 0 true) ++
    [.call 0 .wait] ++ List.replicate 6 (.exec 0 true) ++
    [.dispatch 1, .exec 1 true, .call 1 .exit] ++ List.replicate 10 (.exec 1 true) ++
    [.dispatch 0] ++ List.replicate 4 (.exec 0 true)

theorem process_lifecycle_forkWait : ∃ s, runActs 2 forkWait init = some s ∧ s.lock = none ∧
    reaped s.hist = [2] ∧ Sound s := by
  have h : (runActs 2 forkWait init).map (fun s => (s.lock, reaped s.hist, allocs s.hist)) =
      some (none, [2], 2) := by decide +kernel
  obtain ⟨s, hs, he⟩ := Option.map_eq_some_iff.mp h
  obtain ⟨hl, hr, ha⟩ := Prod.mk.inj he |>.imp_right Prod.mk.inj
  exact ⟨s, hs, hl, hr, (process_lifecycle 2 forkWait s hs (by omega)).1 hl⟩

end ProcTable

end Xv6
