import Xv6.Proc

/-!
# The life cycle of processes

The invariants of the process table, for all interleavings. They come in four groups, each with
one lemma for a process that goes on with other code and one for an assignment to a slot:

* `Locked` — a process holds `ptable.lock` where its code says so, and is `RUNNING` while it is
  on a CPU and not in `sched`.
* `Forks` — a slot that `fork` prepares, without the lock, belongs to one forking process until
  it is `RUNNABLE`.
* `Family` — a parent can run: `exit` gives its children away before it becomes a `ZOMBIE`.
* `Waits` — a process that sleeps in `wait` has no `ZOMBIE` child, unless somebody who holds the
  lock is about to wake it up.
-/

open Function

namespace Xv6

namespace ProcTable

open ProcState Spinlock Code State

/-! ### What the code promises -/

/-- The slot that the code is preparing for a new process, and whether its parent is set. -/
def prep : Code → Option (Nat × Bool)
  | acquire k => prep k
  | release k => prep k
  | asleep _ k => prep k
  | runnable k => prep k
  | sched k => prep k
  | clearChan k => prep k
  | wakeup1 _ _ k => prep k
  | kstack i => some (i, false)
  | copyuvm i => some (i, false)
  | setParent i => some (i, false)
  | setRunnable i => some (i, true)
  | _ => none

/-- The code is in `exit`. -/
def exiting : Code → Bool
  | acquire k => exiting k
  | release k => exiting k
  | asleep _ k => exiting k
  | runnable k => exiting k
  | sched k => exiting k
  | clearChan k => exiting k
  | wakeup1 _ _ k => exiting k
  | exit => true
  | reparent _ => true
  | zombie => true
  | dead => true
  | _ => false

/-- The code is in `exit`, past `wakeup1(proc->parent)` or in it, and not yet a `ZOMBIE`. -/
def leaves : Code → Bool
  | wakeup1 _ _ k => leaves k
  | reparent _ => true
  | zombie => true
  | _ => false

/-- The code is past slot `j` in the loop of `exit`. -/
def leaving (j : Nat) : Code → Bool
  | wakeup1 _ _ k => leaving j k
  | reparent i => decide (j < i)
  | zombie => true
  | _ => false

/-- The code of process `p` is past slot `j` in the loop of `wait`. -/
def seen (p j : Nat) : Code → Bool
  | wait i _ => decide (j < i)
  | asleep c _ => decide (c = .proc p)
  | _ => false

/-- The code will still look at slot `q`, in order to wake up a process that waits there. -/
def waking (q : Nat) : Code → Bool
  | wakeup1 c i _ => decide (c = some (.proc q) ∧ i ≤ q)
  | _ => false

/-- The code that a process goes on with when it is scheduled. -/
def resumes : Code → Bool
  | release _ => true
  | clearChan _ => true
  | dead => true
  | _ => false

/-- The code is not in the middle of a loop of `wait` or `exit`. -/
def quiet : Code → Bool
  | wait i _ => decide (i = 0)
  | asleep (.proc _) _ => false
  | wakeup1 _ _ k => quiet k
  | reparent _ => false
  | zombie => false
  | _ => true

/-- The lock is taken and dropped in turn, and everything is done under it that needs it. -/
def Wf : Code → Prop
  | acquire k => Wf k ∧ owns k = true ∧ quiet k = true
  | release k => Wf k ∧ owns k = false ∧ quiet k = true
  | asleep _ k => Wf k ∧ owns k = true ∧ ∃ k', k = sched k'
  | runnable k => Wf k ∧ owns k = true ∧ ∃ k', k = sched k'
  | sched k => Wf k ∧ owns k = true ∧ resumes k = true ∧ quiet k = true
  | clearChan k => Wf k ∧ owns k = true ∧ quiet k = true
  | wakeup1 _ _ k => Wf k ∧ owns k = true ∧ ((∃ k', k = release k') ∨ ∃ j, k = reparent j)
  | _ => True

section Code

variable {p q j : Nat} {c : Code}

theorem seen_of_quiet (h : quiet c = true) : seen p j c = false := by
  cases c with
  | wait i b =>
    have hi : i = 0 := of_decide_eq_true h
    exact decide_eq_false (by omega)
  | asleep c k =>
    cases c with
    | proc _ => cases h
    | other _ => rfl
  | _ => rfl

theorem leaves_of_quiet (h : quiet c = true) : leaves c = false := by
  induction c with
  | wakeup1 _ _ k ih => exact ih h
  | reparent _ => cases h
  | zombie => cases h
  | _ => rfl

theorem leaves_of_leaving (h : leaving j c = true) : leaves c = true := by
  induction c with
  | wakeup1 _ _ k ih => exact ih h
  | reparent _ => rfl
  | zombie => rfl
  | _ => cases h

theorem leaving_of_leaves (h : leaves c = false) : leaving j c = false := by
  cases hj : leaving j c with
  | false => rfl
  | true => exact Bool.noConfusion (h.symm.trans (leaves_of_leaving hj))

theorem owns_of_seen (hc : Wf c) (h : seen p j c = true) : owns c = true := by
  cases c with
  | wait i b => rfl
  | asleep c k => exact hc.2.1
  | _ => cases h

theorem owns_of_leaves (hc : Wf c) (h : leaves c = true) : owns c = true := by
  cases c with
  | wakeup1 _ _ k => exact hc.2.1
  | reparent _ => rfl
  | zombie => rfl
  | _ => cases h

theorem owns_of_waking (hc : Wf c) (h : waking q c = true) : owns c = true := by
  cases c with
  | wakeup1 _ _ k => exact hc.2.1
  | _ => cases h

theorem seen_of_resumes (h : resumes c = true) : seen p j c = false := by
  cases c <;> first | rfl | cases h

theorem leaves_of_resumes (h : resumes c = true) : leaves c = false := by
  cases c <;> first | rfl | cases h

theorem waking_of_resumes (h : resumes c = true) : waking q c = false := by
  cases c <;> first | rfl | cases h

theorem wf_yield (hc : Wf c) (ho : owns c = false) (hq : quiet c = true) : Wf (yield c) :=
  ⟨⟨⟨⟨hc, ho, hq⟩, rfl, rfl, rfl⟩, rfl, _, rfl⟩, rfl, rfl⟩

theorem wf_wakeup {w : Chan} (hc : Wf c) (ho : owns c = false) (hq : quiet c = true) :
    Wf (wakeup w c) :=
  ⟨⟨⟨hc, ho, hq⟩, rfl, .inl ⟨c, rfl⟩⟩, rfl, rfl⟩

theorem quiet_of_owns (hc : Wf c) (ho : owns c = false) : quiet c = true := by
  cases c with
  | asleep _ k => exact Bool.noConfusion (ho.symm.trans hc.2.1)
  | wakeup1 _ _ k => exact Bool.noConfusion (ho.symm.trans hc.2.1)
  | wait _ _ => cases ho
  | reparent _ => cases ho
  | zombie => cases ho
  | _ => rfl

end Code

/-! ### Reading the state -/

section Read

variable {s : State} {p q i j : Nat} {k : Code} {f : Proc → Proc}

@[simp] theorem State.proc_set_self : (s.set i f).proc i = f (s.proc i) :=
  update_self ..

theorem State.proc_set_of_ne (h : j ≠ i) : (s.set i f).proc j = s.proc j :=
  update_of_ne h ..

/-- What an assignment leaves alone in its slot it leaves alone everywhere. -/
theorem State.field_set {α : Type} {g : Proc → α} (h : g (f (s.proc i)) = g (s.proc i)) (j : Nat) :
    g ((s.set i f).proc j) = g (s.proc j) := by
  rcases eq_or_ne j i with rfl | e
  · rw [proc_set_self, h]
  · rw [proc_set_of_ne e]

@[simp] theorem State.code_goto_self : (s.goto p k).code p = k := update_self ..

theorem State.code_goto_of_ne (h : q ≠ p) : (s.goto p k).code q = s.code q :=
  update_of_ne h ..

@[simp] theorem State.proc_goto : (s.goto p k).proc = s.proc := rfl

@[simp] theorem State.onCpu_goto : (s.goto p k).onCpu = s.onCpu := rfl

@[simp] theorem State.code_set : (s.set i f).code = s.code := rfl

@[simp] theorem State.onCpu_set : (s.set i f).onCpu = s.onCpu := rfl

end Read

/-- The state of a process that can run. -/
def Alive (st : ProcState) : Prop := st = SLEEPING ∨ st = RUNNABLE ∨ st = RUNNING

/-- The state of a process that `fork` has made and `wait` has not yet freed. -/
def Occupied (st : ProcState) : Prop := Alive st ∨ st = ZOMBIE

instance (st : ProcState) : Decidable (Alive st) := inferInstanceAs (Decidable (_ ∨ _ ∨ _))

instance (st : ProcState) : Decidable (Occupied st) := inferInstanceAs (Decidable (_ ∨ _))

/-- Process `p` sleeps in `wait`. -/
def Asleep (p : Nat) (s : State) : Prop :=
  (s.proc p).state = SLEEPING ∧ (s.proc p).chan = some (.proc p)

variable {n : Nat} {s s' : State} {p q i j : Nat} {k : Code} {f : Proc → Proc}

/-! ### The lock -/

structure Locked (s : State) : Prop where
  held : Held (fun _ : Unit => owns) () (fun _ => s.lock) s.onCpu s.code
  wf : ∀ p, Wf (s.code p)
  resumes : ∀ p, s.onCpu p = false → resumes (s.code p) = true
  /-- A process on a CPU is `RUNNING` until it enters the scheduler. -/
  running : ∀ p, s.onCpu p = true → (s.proc p).state = RUNNING ∨ ∃ k, s.code p = sched k
  occupied : ∀ p, s.onCpu p = true → Occupied (s.proc p).state

namespace Locked

theorem holds (h : Locked s) (hp : s.onCpu p = true) (ho : owns (s.code p) = true) :
    s.lock = some (.proc p) :=
  (h.held.holds () p).mpr ⟨hp, ho⟩

theorem unique (h : Locked s) (hp : s.onCpu p = true) (hq : s.onCpu q = true)
    (h1 : owns (s.code p) = true) (h2 : owns (s.code q) = true) : p = q :=
  h.held.unique (l := ()) hp hq h1 h2

theorem running_of_ne (h : Locked s) (hp : s.onCpu p = true) (hc : ∀ k, s.code p ≠ sched k) :
    (s.proc p).state = RUNNING :=
  (h.running p hp).resolve_right fun ⟨k, e⟩ => hc k e

/-- What code says only while it holds the lock, and not while it waits for a CPU, is said by the one
process that has the lock. -/
theorem of_code {g : Code → Bool} (h : Locked s) (hown : ∀ {c}, Wf c → g c = true → owns c = true)
    (hres : ∀ {c}, ProcTable.resumes c = true → g c = false) (hs : g (s.code p) = true) :
    s.onCpu p = true ∧ owns (s.code p) = true := by
  refine ⟨?_, hown (h.wf p) hs⟩
  cases hp : s.onCpu p with
  | true => rfl
  | false => exact Bool.noConfusion (hs.symm.trans (hres (h.resumes p hp)))

theorem of_seen (h : Locked s) (hs : seen q j (s.code p) = true) :
    s.onCpu p = true ∧ owns (s.code p) = true :=
  h.of_code owns_of_seen seen_of_resumes hs

theorem of_leaves (h : Locked s) (hs : leaves (s.code p) = true) :
    s.onCpu p = true ∧ owns (s.code p) = true :=
  h.of_code owns_of_leaves leaves_of_resumes hs

theorem of_waking (h : Locked s) (hs : waking q (s.code p) = true) :
    s.onCpu p = true ∧ owns (s.code p) = true :=
  h.of_code owns_of_waking waking_of_resumes hs

/-- A step of process `p` that leaves the slots of the others alone, or does not take them off
their CPU. -/
theorem one (h : Locked s) (p : Nat)
    (hheld : Held (fun _ : Unit => owns) () (fun _ => s'.lock) s'.onCpu s'.code)
    (hcode : ∀ q ≠ p, s'.code q = s.code q) (hcpu : ∀ q ≠ p, s'.onCpu q = s.onCpu q)
    (hproc : ∀ q ≠ p, s.onCpu q = true → (s'.proc q).state = (s.proc q).state)
    (hwf : Wf (s'.code p)) (hres : s'.onCpu p = false → ProcTable.resumes (s'.code p) = true)
    (hrun : s'.onCpu p = true → (s'.proc p).state = RUNNING ∨
      Occupied (s'.proc p).state ∧ ∃ k, s'.code p = sched k) : Locked s' := by
  refine ⟨hheld, fun q => ?_, fun q hq => ?_, fun q hq => ?_, fun q hq => ?_⟩ <;>
    rcases eq_or_ne q p with rfl | e
  · exact hwf
  · rw [hcode q e]
    exact h.wf q
  · exact hres hq
  · rw [hcode q e]
    exact h.resumes q (hcpu q e ▸ hq)
  · exact (hrun hq).imp_right And.right
  · rw [hcode q e, hproc q e (hcpu q e ▸ hq)]
    exact h.running q (hcpu q e ▸ hq)
  · exact (hrun hq).elim (fun hr => .inl (.inr (.inr hr))) And.left
  · rw [hproc q e (hcpu q e ▸ hq)]
    exact h.occupied q (hcpu q e ▸ hq)

theorem goto (h : Locked s) (hp : s.onCpu p = true) (hk : Wf k)
    (ho : owns k = owns (s.code p)) (hr : (s.proc p).state = RUNNING) : Locked (s.goto p k) := by
  refine h.one p (h.held.goto hp fun _ => ho) (fun _ => code_goto_of_ne)
    (fun _ _ => rfl) (fun _ _ _ => rfl) ?_ (fun hf => Bool.noConfusion (hp.symm.trans hf))
    fun _ => .inl hr
  rw [code_goto_self]
  exact hk

/-- A process that is about to enter the scheduler changes its state. -/
theorem enter (h : Locked s) (hp : s.onCpu p = true) (hk : Wf (sched k))
    (ho : owns (sched k) = owns (s.code p)) (hf : Occupied (f (s.proc p)).state) :
    Locked ((s.set p f).goto p (sched k)) := by
  refine h.one p (h.held.goto hp fun _ => ho) (fun _ => code_goto_of_ne)
    (fun _ _ => rfl)
    (fun q hq _ => by rw [proc_goto, proc_set_of_ne hq]) ?_
    (fun hf => Bool.noConfusion (hp.symm.trans hf)) fun _ => .inr ⟨?_, k, ?_⟩
  · rw [code_goto_self]
    exact hk
  · rw [proc_goto, proc_set_self]
    exact hf
  · rw [code_goto_self]

theorem set (h : Locked s) (hf : s.onCpu i = true → Occupied (f (s.proc i)).state ∧
    ((s.proc i).state = RUNNING → (f (s.proc i)).state = RUNNING)) : Locked (s.set i f) := by
  refine ⟨h.held, h.wf, h.resumes, fun q hq => ?_, fun q hq => ?_⟩ <;>
    rcases eq_or_ne q i with rfl | e
  · rw [proc_set_self]
    exact (h.running q hq).imp_left (hf hq).2
  · rw [proc_set_of_ne e]
    exact h.running q hq
  · rw [proc_set_self]
    exact (hf hq).1
  · rw [proc_set_of_ne e]
    exact h.occupied q hq

theorem log (h : Locked s) (e : Event) : Locked (s.log e) :=
  ⟨h.held, h.wf, h.resumes, h.running, h.occupied⟩

theorem update_unit {α : Type} (o o' : α) :
    update (fun _ : Unit => o) () o' = fun _ => o' :=
  funext fun _ => update_self ..

theorem acquire (h : Locked s) (hp : s.onCpu p = true) (hc : s.code p = Code.acquire k)
    (hfree : s.lock = none) : Locked ({ s with lock := some (.proc p) }.goto p k) := by
  have hwf := h.wf p
  rw [hc] at hwf
  have hheld := h.held.acquire (l := ()) (k := k) hp hfree hwf.2.1 fun _ hl => absurd rfl hl
  rw [update_unit] at hheld
  refine h.one p hheld (fun _ => code_goto_of_ne) (fun _ _ => rfl)
    (fun _ _ _ => rfl) ?_ (fun hf => Bool.noConfusion (hp.symm.trans hf))
    fun _ => .inl (h.running_of_ne hp (by rw [hc]; nofun))
  rw [code_goto_self]
  exact hwf.1

theorem release (h : Locked s) (hp : s.onCpu p = true) (hc : s.code p = Code.release k)
    (hl : s.lock = some (.proc p)) : Locked ({ s with lock := none }.goto p k) := by
  have hwf := h.wf p
  rw [hc] at hwf
  have hheld := h.held.release (l := ()) (k := k) hp hl hwf.2.1 fun _ hl => absurd rfl hl
  rw [update_unit] at hheld
  refine h.one p hheld (fun _ => code_goto_of_ne) (fun _ _ => rfl)
    (fun _ _ _ => rfl) ?_ (fun hf => Bool.noConfusion (hp.symm.trans hf))
    fun _ => .inl (h.running_of_ne hp (by rw [hc]; nofun))
  rw [code_goto_self]
  exact hwf.1

theorem sched (h : Locked s) (hc : s.code p = Code.sched k) (hl : s.lock = some (.proc p)) :
    Locked ({ s with
      lock := some .scheduler, onCpu := update s.onCpu p false }.goto p k) := by
  have hwf := h.wf p
  rw [hc] at hwf
  have hheld := h.held.enter (k := k) hl (fun _ hl => absurd rfl hl) fun _ =>
    hwf.2.1.trans (decide_eq_true rfl).symm
  rw [update_unit] at hheld
  refine h.one p hheld (fun _ => code_goto_of_ne)
    (fun q hq => update_of_ne hq ..) (fun _ _ _ => rfl) ?_ (fun _ => ?_) fun hf => ?_
  · rw [code_goto_self]
    exact hwf.1
  · rw [code_goto_self]
    exact hwf.2.2.1
  · change update s.onCpu p false p = true at hf
    rw [update_self] at hf
    cases hf

theorem off_of_runnable (h : Locked s) (hl : s.lock = some .scheduler)
    (hst : (s.proc p).state = RUNNABLE) : s.onCpu p = false := by
  cases hp : s.onCpu p with
  | false => rfl
  | true =>
    -- a process on a CPU that is not `RUNNING` is in `sched`, and holds the lock
    rcases h.running p hp with hr | ⟨k, hk⟩
    · rw [hst] at hr
      cases hr
    · have hwf := h.wf p
      rw [hk] at hwf
      have := h.holds hp (by rw [hk]; exact hwf.2.1)
      rw [hl] at this
      cases this

theorem dispatch (h : Locked s) (hl : s.lock = some .scheduler)
    (hst : (s.proc p).state = RUNNABLE) :
    Locked { s.set p ({ · with state := RUNNING }) with
      lock := some (.proc p), onCpu := update s.onCpu p true } := by
  have hheld := h.held.dispatch hl (h.off_of_runnable hl hst)
  rw [update_unit] at hheld
  refine h.one p hheld (fun _ _ => rfl) (fun q hq => update_of_ne hq ..)
    (fun q hq _ => congrArg Proc.state (update_of_ne hq ..))
    (h.wf p) (fun hf => ?_) fun _ => .inl ?_
  · change update s.onCpu p true p = false at hf
    rw [update_self] at hf
    cases hf
  · show ((s.set p ({ · with state := RUNNING })).proc p).state = RUNNING
    rw [proc_set_self]

theorem table (h : Locked s) (hfree : ∀ q, s.lock ≠ some (.proc q)) {o : Option Holder}
    (ho : ∀ q, o ≠ some (.proc q)) : Locked { s with lock := o } := by
  have hheld := h.held.setTable hfree ho
  rw [update_unit] at hheld
  exact ⟨hheld, h.wf, h.resumes, h.running, h.occupied⟩

theorem fresh (h : Locked s) (hi : (s.proc i).state = EMBRYO) :
    Locked (s.goto i (Code.release user)) := by
  have hoff : s.onCpu i = false := by
    cases hp : s.onCpu i with
    | false => rfl
    | true =>
      have ho := h.occupied i hp
      rw [hi] at ho
      exact absurd ho (by decide)
  refine h.one i (h.held.setOff hoff fun _ => (decide_eq_true rfl).symm)
    (fun _ => code_goto_of_ne) (fun _ _ => rfl) (fun _ _ _ => rfl) ?_ ?_
    fun hf => Bool.noConfusion (hoff.symm.trans hf)
  · rw [code_goto_self]
    exact ⟨trivial, rfl, rfl⟩
  · rw [code_goto_self]
    exact fun _ => rfl

end Locked

/-! ### New processes -/

/-- A slot in preparation is an `EMBRYO` of one forking process. -/
structure Forks (n : Nat) (s : State) : Prop where
  embryo : ∀ p i b, prep (s.code p) = some (i, b) → i < n ∧ (s.proc i).state = EMBRYO
  forker : ∀ p, prep (s.code p) ≠ none → Alive (s.proc p).state
  one : ∀ p q i b b', prep (s.code p) = some (i, b) → prep (s.code q) = some (i, b') → p = q
  adopted : ∀ p i, prep (s.code p) = some (i, true) → (s.proc i).parent = some p
  /-- A slot has no parent unless it is occupied or about to be. -/
  unborn : ∀ i q, ¬ Occupied (s.proc i).state → (s.proc i).parent = some q →
    prep (s.code q) = some (i, true)

namespace Forks

theorem goto (h : Forks n s) (hk : prep k = prep (s.code p)) : Forks n (s.goto p k) := by
  have e : ∀ q, prep ((s.goto p k).code q) = prep (s.code q) := by
    intro q
    rcases eq_or_ne q p with rfl | hq
    · rw [code_goto_self, hk]
    · rw [code_goto_of_ne hq]
  refine ⟨fun q i b hq => ?_, fun q hq => ?_, fun q q' i b b' hq hq' => ?_, fun q i hq => ?_,
    fun i q ho hpar => ?_⟩
  · exact h.embryo q i b (e q ▸ hq)
  · exact h.forker q (e q ▸ hq)
  · exact h.one q q' i b b' (e q ▸ hq) (e q' ▸ hq')
  · exact h.adopted q i (e q ▸ hq)
  · rw [e]
    exact h.unborn i q ho hpar

theorem set (h : Forks n s) (hno : ∀ q b, prep (s.code q) ≠ some (i, b))
    (hend : Alive (s.proc i).state → Alive (f (s.proc i)).state ∨ prep (s.code i) = none)
    (hf : ¬ Occupied (f (s.proc i)).state → (f (s.proc i)).parent = none) :
    Forks n (s.set i f) := by
  refine ⟨fun q j b hq => ?_, fun j hq => ?_, h.one, fun q j hq => ?_, fun j q ho hpar => ?_⟩ <;>
    rcases eq_or_ne j i with rfl | e
  · exact absurd hq (hno q b)
  · rw [proc_set_of_ne e]
    exact h.embryo q j b hq
  · rw [proc_set_self]
    exact (hend (h.forker j hq)).resolve_right hq
  · rw [proc_set_of_ne e]
    exact h.forker j hq
  · exact absurd hq (hno q true)
  · rw [proc_set_of_ne e]
    exact h.adopted q j hq
  · rw [proc_set_self] at ho hpar
    rw [hf ho] at hpar
    cases hpar
  · rw [proc_set_of_ne e] at ho hpar
    exact h.unborn j q ho hpar

theorem same (h : Forks n s) (hst : (f (s.proc i)).state = (s.proc i).state)
    (hpar : (f (s.proc i)).parent = (s.proc i).parent) : Forks n (s.set i f) := by
  have hst := field_set (g := Proc.state) hst
  have hpar := field_set (g := Proc.parent) hpar
  refine ⟨fun q j b hq => ?_, fun j hq => ?_, h.one, fun q j hq => ?_, fun j q ho hp => ?_⟩
  · rw [hst]
    exact h.embryo q j b hq
  · rw [hst]
    exact h.forker j hq
  · rw [hpar]
    exact h.adopted q j hq
  · rw [hst] at ho
    rw [hpar] at hp
    exact h.unborn j q ho hp

theorem not_prep (h : Forks n s) (hi : (s.proc i).state ≠ EMBRYO) (q : Nat) (b : Bool) :
    prep (s.code q) ≠ some (i, b) :=
  fun hq => hi (h.embryo q i b hq).2

/-- The preparation of a slot is not touched by a process that prepares something else. -/
theorem prep_goto {x : Nat × Bool} (hq : prep (s.code q) = some x) (hp : prep (s.code p) ≠ some x) :
    prep ((s.goto p k).code q) = some x := by
  rw [code_goto_of_ne]
  · exact hq
  · rintro rfl
    exact hp hq

theorem begin (h : Forks n s) (hi : i < n) (hst : (s.proc i).state = EMBRYO)
    (hno : ∀ q b, prep (s.code q) ≠ some (i, b)) (hp : prep (s.code p) = none)
    (ha : Alive (s.proc p).state) (hk : prep k = some (i, false)) : Forks n (s.goto p k) := by
  refine ⟨fun q j b hq => ?_, fun q hq => ?_, fun q q' j b b' hq hq' => ?_, fun q j hq => ?_,
    fun j q ho hpar => ?_⟩
  · rcases eq_or_ne q p with rfl | e
    · rw [code_goto_self, hk] at hq
      cases hq
      exact ⟨hi, hst⟩
    · rw [code_goto_of_ne e] at hq
      exact h.embryo q j b hq
  · rcases eq_or_ne q p with rfl | e
    · exact ha
    · rw [code_goto_of_ne e] at hq
      exact h.forker q hq
  · rcases eq_or_ne q p with rfl | e <;> rcases eq_or_ne q' q with rfl | e'
    · rfl
    · rw [code_goto_self, hk] at hq
      rw [code_goto_of_ne e'] at hq'
      cases hq
      exact absurd hq' (hno q' b')
    · rfl
    · rw [code_goto_of_ne e] at hq
      rcases eq_or_ne q' p with rfl | e''
      · rw [code_goto_self, hk] at hq'
        cases hq'
        exact absurd hq (hno q b)
      · rw [code_goto_of_ne e''] at hq'
        exact h.one q q' j b b' hq hq'
  · rcases eq_or_ne q p with rfl | e
    · rw [code_goto_self, hk] at hq
      cases hq
    · rw [code_goto_of_ne e] at hq
      exact h.adopted q j hq
  · exact prep_goto (h.unborn j q ho hpar) (by rw [hp]; nofun)

theorem drop (h : Forks n s) (hp : prep (s.code p) = some (i, false)) (hk : prep k = none) :
    Forks n (s.goto p k) ∧ ∀ q b, prep ((s.goto p k).code q) ≠ some (i, b) := by
  have e : ∀ q j b, prep ((s.goto p k).code q) = some (j, b) → q ≠ p ∧
      prep (s.code q) = some (j, b) := by
    intro q j b hq
    rcases eq_or_ne q p with rfl | e
    · rw [code_goto_self, hk] at hq
      cases hq
    · rw [code_goto_of_ne e] at hq
      exact ⟨e, hq⟩
  refine ⟨⟨fun q j b hq => h.embryo q j b (e q j b hq).2, fun q hq => ?_, fun q q' j b b' hq hq' =>
    h.one q q' j b b' (e q j b hq).2 (e q' j b' hq').2, fun q j hq =>
    h.adopted q j (e q j true hq).2, fun j q ho hpar => ?_⟩, fun q b hq => ?_⟩
  · obtain ⟨⟨j, b⟩, hj⟩ := Option.ne_none_iff_exists'.mp hq
    exact h.forker q (by rw [(e q j b hj).2]; nofun)
  · exact prep_goto (h.unborn j q ho hpar) (by rw [hp]; nofun)
  · obtain ⟨e1, e2⟩ := e q i b hq
    exact e1 (h.one q p i b false e2 hp)

theorem adopt (h : Forks n s) (hp : prep (s.code p) = some (i, false))
    (hk : prep k = some (i, true)) :
    Forks n ((s.set i ({ · with parent := some p })).goto p k) := by
  have hst := (h.embryo p i false hp).2
  -- every other process prepares what it prepared, and not slot `i`
  have e : ∀ q j b, q ≠ p → prep (s.code q) = some (j, b) → j ≠ i := by
    rintro q j b hq hj rfl
    exact hq (h.one q p j b false hj hp)
  have hproc : ∀ j, (((s.set i ({ · with parent := some p })).goto p k).proc j).state
      = (s.proc j).state := fun j => by
    rw [proc_goto]
    exact field_set (g := Proc.state) rfl j
  refine ⟨fun q j b hq => ?_, fun q hq => ?_, fun q q' j b b' hq hq' => ?_, fun q j hq => ?_,
    fun j q ho hpar => ?_⟩
  · rw [hproc]
    rcases eq_or_ne q p with rfl | hne
    · rw [code_goto_self, hk] at hq
      cases hq
      exact h.embryo q i false hp
    · rw [code_goto_of_ne hne] at hq
      exact h.embryo q j b hq
  · rw [hproc]
    rcases eq_or_ne q p with rfl | hne
    · exact h.forker q (by rw [hp]; nofun)
    · rw [code_goto_of_ne hne] at hq
      exact h.forker q hq
  · have old : ∀ q b, prep (((s.set i ({ · with parent := some p })).goto p k).code q)
        = some (j, b) → ∃ b, prep (s.code q) = some (j, b) := by
      intro q b hq
      rcases eq_or_ne q p with rfl | hne
      · rw [code_goto_self, hk] at hq
        cases hq
        exact ⟨false, hp⟩
      · rw [code_goto_of_ne hne] at hq
        exact ⟨b, hq⟩
    obtain ⟨c, hc⟩ := old q b hq
    obtain ⟨c', hc'⟩ := old q' b' hq'
    exact h.one q q' j c c' hc hc'
  · rw [proc_goto]
    rcases eq_or_ne q p with rfl | hne
    · rw [code_goto_self, hk] at hq
      cases hq
      rw [proc_set_self]
    · rw [code_goto_of_ne hne] at hq
      rw [proc_set_of_ne (e q j true hne hq)]
      exact h.adopted q j hq
  · rw [hproc] at ho
    rw [proc_goto] at hpar
    rcases eq_or_ne j i with rfl | hj
    · rw [proc_set_self] at hpar
      cases hpar
      rw [code_goto_self, hk]
    · rw [proc_set_of_ne hj] at hpar
      exact prep_goto (h.unborn j q ho hpar) (by rw [code_set, hp]; nofun)

theorem born (h : Forks n s) (hp : prep (s.code p) = some (i, true)) (hk : prep k = none)
    (hf : Occupied (f (s.proc i)).state) : Forks n ((s.set i f).goto p k) := by
  have e : ∀ q j b, prep (((s.set i f).goto p k).code q) = some (j, b) →
      j ≠ i ∧ prep (s.code q) = some (j, b) := by
    intro q j b hq
    rcases eq_or_ne q p with rfl | hne
    · rw [code_goto_self, hk] at hq
      cases hq
    · rw [code_goto_of_ne hne, code_set] at hq
      refine ⟨?_, hq⟩
      rintro rfl
      exact hne (h.one q p j b true hq hp)
  refine ⟨fun q j b hq => ?_, fun q hq => ?_, fun q q' j b b' hq hq' =>
    h.one q q' j b b' (e q j b hq).2 (e q' j b' hq').2, fun q j hq => ?_, fun j q ho hpar => ?_⟩
  · rw [proc_goto, proc_set_of_ne (e q j b hq).1]
    exact h.embryo q j b (e q j b hq).2
  · obtain ⟨⟨j, b⟩, hj⟩ := Option.ne_none_iff_exists'.mp hq
    have ha := h.forker q (by rw [(e q j b hj).2]; nofun)
    rw [proc_goto]
    rcases eq_or_ne q i with rfl | hne
    · -- an `EMBRYO` does not fork
      rw [(h.embryo p q true hp).2] at ha
      exact absurd ha (by decide)
    · rw [proc_set_of_ne hne]
      exact ha
  · rw [proc_goto, proc_set_of_ne (e q j true hq).1]
    exact h.adopted q j (e q j true hq).2
  · rw [proc_goto] at ho hpar
    rcases eq_or_ne j i with rfl | hj
    · rw [proc_set_self] at ho
      exact absurd hf ho
    · rw [proc_set_of_ne hj] at ho hpar
      refine prep_goto (h.unborn j q ho hpar) fun hq => hj ?_
      rw [code_set, hp] at hq
      cases hq
      rfl

end Forks

/-! ### Parents -/

/-- Parents can run, and every process but the first has one. -/
structure Family (n : Nat) (s : State) : Prop where
  alive : ∀ i q, (s.proc i).parent = some q → i < n ∧ q < n ∧ Alive (s.proc q).state
  root : ∀ i q, (s.proc i).parent = some q → q ≠ i ∧ i ≠ initproc
  child : ∀ i, Occupied (s.proc i).state → i ≠ initproc → (s.proc i).parent ≠ none
  /-- A process in the loop of `exit` has given away the children it has passed. -/
  left : ∀ p i, leaving i (s.code p) = true → (s.proc i).parent ≠ some p
  init : Alive (s.proc initproc).state
  stays : exiting (s.code initproc) = false

namespace Family

theorem goto (h : Family n s) (hleft : ∀ i, leaving i k = true → (s.proc i).parent ≠ some p)
    (hinit : p = initproc → exiting k = false) : Family n (s.goto p k) := by
  refine ⟨h.alive, h.root, h.child, fun q i hq => ?_, h.init, ?_⟩
  · rcases eq_or_ne q p with rfl | e
    · rw [code_goto_self] at hq
      exact hleft i hq
    · rw [code_goto_of_ne e] at hq
      exact h.left q i hq
  · rcases eq_or_ne initproc p with e | e
    · rw [e, code_goto_self]
      exact hinit e.symm
    · rw [code_goto_of_ne e]
      exact h.stays

theorem set (h : Family n s)
    (halive : Alive (s.proc i).state → Alive (f (s.proc i)).state ∨
      i ≠ initproc ∧ ∀ j, (s.proc j).parent ≠ some i)
    (hpar : ∀ q, (f (s.proc i)).parent = some q → (s.proc i).parent = some q ∨
      i < n ∧ q < n ∧ Alive (s.proc q).state ∧ q ≠ i ∧ i ≠ initproc ∧
        leaving i (s.code q) = false)
    (hchild : Occupied (f (s.proc i)).state → i ≠ initproc → (f (s.proc i)).parent ≠ none) :
    Family n (s.set i f) := by
  have keep : ∀ j q, (s.proc j).parent = some q → Alive ((s.set i f).proc q).state := by
    intro j q hj
    rcases eq_or_ne q i with rfl | e
    · rw [proc_set_self]
      exact (halive (h.alive j q hj).2.2).resolve_right fun hno => hno.2 j hj
    · rw [proc_set_of_ne e]
      exact (h.alive j q hj).2.2
  refine ⟨fun j q hj => ?_, fun j q hj => ?_, fun j ho hne => ?_, fun q j hq => ?_, ?_, h.stays⟩
  · rcases eq_or_ne j i with rfl | e
    · rw [proc_set_self] at hj
      rcases hpar q hj with hold | ⟨h1, h2, h3, h4, -⟩
      · exact ⟨(h.alive j q hold).1, (h.alive j q hold).2.1, keep j q hold⟩
      · rw [proc_set_of_ne h4]
        exact ⟨h1, h2, h3⟩
    · rw [proc_set_of_ne e] at hj
      exact ⟨(h.alive j q hj).1, (h.alive j q hj).2.1, keep j q hj⟩
  · rcases eq_or_ne j i with rfl | e
    · rw [proc_set_self] at hj
      rcases hpar q hj with hold | ⟨-, -, -, h4, h5, -⟩
      · exact h.root j q hold
      · exact ⟨h4, h5⟩
    · rw [proc_set_of_ne e] at hj
      exact h.root j q hj
  · rcases eq_or_ne j i with rfl | e
    · rw [proc_set_self] at ho ⊢
      exact hchild ho hne
    · rw [proc_set_of_ne e] at ho ⊢
      exact h.child j ho hne
  · rcases eq_or_ne j i with rfl | e
    · rw [proc_set_self]
      intro hj
      rcases hpar q hj with hold | ⟨-, -, -, -, -, h6⟩
      · exact h.left q j hq hold
      · exact Bool.noConfusion (h6.symm.trans hq)
    · rw [proc_set_of_ne e]
      exact h.left q j hq
  · rcases eq_or_ne initproc i with rfl | e
    · rw [proc_set_self]
      exact (halive h.init).resolve_right fun hno => hno.1 rfl
    · rw [proc_set_of_ne e]
      exact h.init

theorem same (h : Family n s) (halive : Alive (s.proc i).state → Alive (f (s.proc i)).state)
    (hocc : Occupied (f (s.proc i)).state → Occupied (s.proc i).state)
    (hpar : (f (s.proc i)).parent = (s.proc i).parent) : Family n (s.set i f) :=
  h.set (fun ha => .inl (halive ha)) (fun _ hq => .inl (hpar ▸ hq)) fun ho hne =>
    hpar ▸ h.child i (hocc ho) hne

end Family

/-! ### Waiting parents -/

/-- Nobody sleeps in `wait` with a `ZOMBIE` child, unless the lock is held by somebody who is
about to wake up the parent. -/
structure Waits (s : State) : Prop where
  seen : ∀ p j, seen p j (s.code p) = true → (s.proc j).parent = some p →
    (s.proc j).state ≠ ZOMBIE
  told : ∀ c q, leaves (s.code c) = true → (s.proc c).parent = some q → Asleep q s →
    waking q (s.code c) = true
  zombie : ∀ i q, Asleep q s → (s.proc i).parent = some q → (s.proc i).state = ZOMBIE →
    ∃ c, s.onCpu c = true ∧ waking q (s.code c) = true

theorem asleep_of_set (hsleep : (f (s.proc i)).state = SLEEPING →
    (f (s.proc i)).chan = some (.proc i) → Asleep i s) (ha : Asleep q (s.set i f)) : Asleep q s := by
  obtain ⟨h1, h2⟩ := ha
  rcases eq_or_ne q i with rfl | e
  · rw [proc_set_self] at h1 h2
    exact hsleep h1 h2
  · rw [proc_set_of_ne e] at h1 h2
    exact ⟨h1, h2⟩

namespace Waits

theorem goto (h : Waits s)
    (hseen : ∀ j, ProcTable.seen p j k = true → (s.proc j).parent = some p →
      (s.proc j).state ≠ ZOMBIE)
    (htold : ∀ q, leaves k = true → (s.proc p).parent = some q → Asleep q s → waking q k = true)
    (hwake : ∀ q i, waking q (s.code p) = true → Asleep q s → (s.proc i).parent = some q →
      waking q k = true) :
    Waits (s.goto p k) := by
  refine ⟨fun q j hs => ?_, fun c q hl hpar ha => ?_, fun i q ha hpar hz => ?_⟩
  · rcases eq_or_ne q p with rfl | e
    · rw [code_goto_self] at hs
      exact hseen j hs
    · rw [code_goto_of_ne e] at hs
      exact h.seen q j hs
  · rcases eq_or_ne c p with rfl | e
    · rw [code_goto_self] at hl ⊢
      exact htold q hl hpar ha
    · rw [code_goto_of_ne e] at hl ⊢
      exact h.told c q hl hpar ha
  · obtain ⟨c, hc, hw⟩ := h.zombie i q ha hpar hz
    refine ⟨c, hc, ?_⟩
    rcases eq_or_ne c p with rfl | e
    · rw [code_goto_self]
      exact hwake q i hw ha hpar
    · rw [code_goto_of_ne e]
      exact hw

/-- A process goes on with code that is in the middle of nothing. -/
theorem goto_quiet (h : Waits s) (hk : quiet k = true)
    (hwake : ∀ q, waking q (s.code p) = true → ¬ Asleep q s) : Waits (s.goto p k) :=
  h.goto (fun _ hs => Bool.noConfusion ((seen_of_quiet hk).symm.trans hs))
    (fun _ hl => Bool.noConfusion ((leaves_of_quiet hk).symm.trans hl))
    fun q _ hq ha => absurd ha (hwake q hq)

/-- An assignment to a slot that puts nobody to sleep and makes no `ZOMBIE`. -/
theorem set (h : Waits s)
    (hsleep : (f (s.proc i)).state = SLEEPING → (f (s.proc i)).chan = some (.proc i) → Asleep i s)
    (hzombie : (f (s.proc i)).state = ZOMBIE → (s.proc i).state = ZOMBIE)
    (hpar : ∀ q, (f (s.proc i)).parent = some q → (s.proc i).parent = some q ∨
      (f (s.proc i)).state ≠ ZOMBIE ∧ leaves (s.code i) = false) : Waits (s.set i f) := by
  have asleep : ∀ q, Asleep q (s.set i f) → Asleep q s := fun q => asleep_of_set hsleep
  refine ⟨fun p j hs hj => ?_, fun c q hl hc ha => ?_, fun j q ha hj hz => ?_⟩
  · rcases eq_or_ne j i with rfl | e
    · rw [proc_set_self] at hj ⊢
      intro hz
      rcases hpar p hj with hold | ⟨hne, -⟩
      · exact h.seen p j hs hold (hzombie hz)
      · exact hne hz
    · rw [proc_set_of_ne e] at hj ⊢
      exact h.seen p j hs hj
  · rcases eq_or_ne c i with rfl | e
    · rw [proc_set_self] at hc
      rcases hpar q hc with hold | ⟨-, hne⟩
      · exact h.told c q hl hold (asleep q ha)
      · exact Bool.noConfusion (hne.symm.trans hl)
    · rw [proc_set_of_ne e] at hc
      exact h.told c q hl hc (asleep q ha)
  · rcases eq_or_ne j i with rfl | e
    · rw [proc_set_self] at hj hz
      rcases hpar q hj with hold | ⟨hne, -⟩
      · exact h.zombie j q (asleep q ha) hold (hzombie hz)
      · exact absurd hz hne
    · rw [proc_set_of_ne e] at hj hz
      exact h.zombie j q (asleep q ha) hj hz

/-- A process falls asleep; in `wait`, it has seen that it has no `ZOMBIE` child. -/
theorem sleep (h : Waits s) {c : Chan}
    (hseen : c = .proc p → ∀ j, (s.proc j).parent = some p → (s.proc j).state ≠ ZOMBIE)
    (hleave : ∀ c, leaves (s.code c) = false) :
    Waits (s.set p ({ · with chan := some c, state := SLEEPING })) := by
  have hstate : ∀ j, ((s.set p ({ · with chan := some c, state := SLEEPING })).proc j).state
      = ZOMBIE → (s.proc j).state = ZOMBIE := by
    intro j hz
    rcases eq_or_ne j p with rfl | e
    · rw [proc_set_self] at hz
      cases hz
    · rwa [proc_set_of_ne e] at hz
  have hparent : ∀ j, ((s.set p ({ · with chan := some c, state := SLEEPING })).proc j).parent
      = (s.proc j).parent := field_set (g := Proc.parent) rfl
  refine ⟨fun q j hs hj hz => ?_, fun c' q hl => ?_, fun i q ha hi hz => ?_⟩
  · rw [hparent] at hj
    exact h.seen q j hs hj (hstate j hz)
  · exact Bool.noConfusion ((hleave c').symm.trans hl)
  · rw [hparent] at hi
    rcases eq_or_ne q p with rfl | e
    · have hc := ha.2
      rw [proc_set_self] at hc
      cases hc
      exact absurd (hstate i hz) (hseen rfl i hi)
    · refine h.zombie i q ?_ hi (hstate i hz)
      rw [Asleep, proc_set_of_ne e] at ha
      exact ha

/-- A process becomes a `ZOMBIE`; its parent has been told. -/
theorem exit (h : Waits s) (htold : ∀ q, (s.proc p).parent = some q → ¬ Asleep q s)
    (hseen : ∀ q j, ProcTable.seen q j (s.code q) = false) :
    Waits (s.set p ({ · with state := ZOMBIE })) := by
  have asleep : ∀ q, Asleep q (s.set p ({ · with state := ZOMBIE })) → Asleep q s := fun q =>
    asleep_of_set nofun
  have hparent : ∀ j, ((s.set p ({ · with state := ZOMBIE })).proc j).parent
      = (s.proc j).parent := field_set (g := Proc.parent) rfl
  refine ⟨fun q j hs => ?_, fun c q hl hc ha => ?_, fun i q ha hi hz => ?_⟩
  · exact Bool.noConfusion ((hseen q j).symm.trans hs)
  · rw [hparent] at hc
    exact h.told c q hl hc (asleep q ha)
  · rw [hparent] at hi
    rcases eq_or_ne i p with rfl | e
    · exact absurd (asleep q ha) (htold q hi)
    · rw [proc_set_of_ne e] at hz
      exact h.zombie i q (asleep q ha) hi hz

/-- A child is given to process `q`, which is about to be woken up if the child is a `ZOMBIE`. -/
theorem give (h : Waits s) (hleave : leaves (s.code i) = false)
    (hseen : ProcTable.seen q i (s.code q) = false)
    (hwake : (s.proc i).state = ZOMBIE → ∃ c, s.onCpu c = true ∧ waking q (s.code c) = true) :
    Waits (s.set i ({ · with parent := some q })) := by
  have asleep : ∀ q', Asleep q' (s.set i ({ · with parent := some q })) → Asleep q' s := fun q' =>
    asleep_of_set And.intro
  refine ⟨fun p j hs hj => ?_, fun c q' hl hc ha => ?_, fun j q' ha hj hz => ?_⟩
  · rcases eq_or_ne j i with rfl | e
    · rw [proc_set_self] at hj
      cases hj
      exact Bool.noConfusion (hseen.symm.trans hs)
    · rw [proc_set_of_ne e] at hj ⊢
      exact h.seen p j hs hj
  · rcases eq_or_ne c i with rfl | e
    · exact Bool.noConfusion (hleave.symm.trans hl)
    · rw [proc_set_of_ne e] at hc
      exact h.told c q' hl hc (asleep q' ha)
  · rcases eq_or_ne j i with rfl | e
    · rw [proc_set_self] at hj hz
      cases hj
      exact hwake hz
    · rw [proc_set_of_ne e] at hj hz
      exact h.zombie j q' (asleep q' ha) hj hz

end Waits

/-! ### One step -/

structure Inv (n : Nat) (s : State) : Prop where
  locked : Locked s
  forks : Forks n s
  family : Family n s
  waits : Waits s

theorem inv_init : Inv n init where
  locked := by
    refine ⟨⟨fun l p => ?_, fun _ _ l => ?_⟩, fun p => ?_, fun _ _ => rfl, nofun, nofun⟩
    · simp [init]
    · simp [init, owns]
    · simp [init, Wf, owns, quiet]
  forks := by
    refine ⟨fun p i b h => ?_, fun p h => ?_, fun p q i b b' h => ?_, fun p i h => ?_,
      fun i q _ h => ?_⟩
    · simp [init, prep] at h
    · simp [init, prep] at h
    · simp [init, prep] at h
    · simp [init, prep] at h
    · simp only [init] at h
      split at h <;> cases h
  family := by
    have hpar : ∀ i q, (init.proc i).parent = some q → False := by
      intro i q h
      simp only [init] at h
      split at h <;> cases h
    refine ⟨fun i q h => (hpar i q h).elim, fun i q h => (hpar i q h).elim, fun i ho hne => ?_,
      fun p i h => ?_, by decide, rfl⟩
    · simp only [init, if_neg hne] at ho
      exact absurd ho (by decide)
    · simp [init, leaving] at h
  waits := by
    refine ⟨fun p j h => ?_, fun c q h => ?_, fun i q h => ?_⟩
    · simp [init, ProcTable.seen] at h
    · simp [init, leaves] at h
    · have h1 := h.1
      simp only [init] at h1
      split at h1 <;> cases h1

namespace Inv

/-- The invariant of the slots does not depend on the lock. -/
theorem slots (h : Inv n s) {t : State} (hproc : t.proc = s.proc) (hcode : t.code = s.code)
    (hcpu : ∀ c q, s.onCpu c = true → waking q (s.code c) = true → t.onCpu c = true) :
    Forks n t ∧ Family n t ∧ Waits t := by
  refine ⟨⟨?_, ?_, ?_, ?_, ?_⟩, ⟨?_, ?_, ?_, ?_, ?_, ?_⟩, ⟨?_, ?_, fun i q ha hi hz => ?_⟩⟩ <;>
    simp only [Asleep, hproc, hcode] at *
  · exact h.forks.embryo
  · exact h.forks.forker
  · exact h.forks.one
  · exact h.forks.adopted
  · exact h.forks.unborn
  · exact h.family.alive
  · exact h.family.root
  · exact h.family.child
  · exact h.family.left
  · exact h.family.init
  · exact h.family.stays
  · exact h.waits.seen
  · exact h.waits.told
  · obtain ⟨c, hc, hw⟩ := h.waits.zombie i q ha hi hz
    exact ⟨c, hcpu c q hc hw, hw⟩

theorem log (h : Inv n s) (e : Event) : Inv n (s.log e) := by
  obtain ⟨h2, h3, h4⟩ := h.slots (t := s.log e) rfl rfl fun _ _ hc _ => hc
  exact ⟨h.locked.log e, h2, h3, h4⟩

theorem pid (h : Inv n s) (x : Int) : Inv n { s with nextpid := x } := by
  obtain ⟨h2, h3, h4⟩ := h.slots (t := { s with nextpid := x }) rfl rfl fun _ _ hc _ => hc
  exact ⟨⟨h.locked.held, h.locked.wf, h.locked.resumes, h.locked.running, h.locked.occupied⟩,
    h2, h3, h4⟩

/-- A process that holds the lock is the only one in the loop of `wait` or `exit`. -/
theorem alone (h : Inv n s) (hp : s.onCpu p = true) (ho : owns (s.code p) = true) (hq : q ≠ p) :
    (∀ q' j, seen q' j (s.code q) = false) ∧ leaves (s.code q) = false := by
  refine ⟨fun q' j => ?_, ?_⟩
  · cases hs : seen q' j (s.code q) with
    | false => rfl
    | true => exact absurd (h.locked.unique (h.locked.of_seen hs).1 hp (h.locked.of_seen hs).2 ho) hq
  · cases hs : leaves (s.code q) with
    | false => rfl
    | true =>
      exact absurd (h.locked.unique (h.locked.of_leaves hs).1 hp (h.locked.of_leaves hs).2 ho) hq

/-- An assignment that neither makes nor ends a process, puts nobody to sleep and leaves the
parent alone. -/
theorem set (h : Inv n s) (hpar : (f (s.proc i)).parent = (s.proc i).parent)
    (hst : (f (s.proc i)).state = (s.proc i).state ∧ (f (s.proc i)).chan = (s.proc i).chan ∨
      (s.proc i).state = SLEEPING ∧ (f (s.proc i)).state = RUNNABLE) : Inv n (s.set i f) := by
  rcases hst with ⟨hst, hchan⟩ | ⟨hold, hnew⟩
  · refine ⟨h.locked.set fun hi => ?_, h.forks.same hst hpar,
      h.family.same (fun ha => hst ▸ ha) (fun ho => hst ▸ ho) hpar,
      h.waits.set (fun h1 h2 => ⟨hst ▸ h1, hchan ▸ h2⟩) (fun hz => hst ▸ hz)
        fun q hq => .inl (hpar ▸ hq)⟩
    rw [hst]
    exact ⟨h.locked.occupied i hi, id⟩
  · refine ⟨h.locked.set fun _ => ?_, h.forks.set ?_ ?_ fun ho => ?_, h.family.same ?_ ?_ hpar,
      h.waits.set ?_ ?_ fun q hq => .inl (hpar ▸ hq)⟩
    · rw [hnew, hold]
      exact ⟨by decide, nofun⟩
    · exact h.forks.not_prep (by rw [hold]; nofun)
    · rw [hnew]
      exact fun _ => .inl (by decide)
    · rw [hnew] at ho
      exact absurd (by decide) ho
    · rw [hnew]
      exact fun _ => by decide
    · rw [hold]
      exact fun _ => by decide
    · rw [hnew]
      nofun
    · rw [hnew]
      nofun

theorem fresh (h : Inv n s) (hst : (s.proc i).state = EMBRYO) :
    Inv n (s.goto i (Code.release user)) := by
  have hdead : ¬ Occupied (s.proc i).state := by
    rw [hst]
    decide
  have hprep : prep (s.code i) = none :=
    not_not.mp fun hne => hdead (.inl (h.forks.forker i hne))
  refine ⟨h.locked.fresh hst, h.forks.goto hprep.symm, h.family.goto nofun fun _ => rfl,
    h.waits.goto_quiet rfl fun q hq => ?_⟩
  -- the old code of the slot is not executed
  exact absurd (h.locked.occupied i (h.locked.of_waking hq).1) hdead

theorem dispatch (h : Inv n s) (hl : s.lock = some .scheduler)
    (hst : (s.proc p).state = RUNNABLE) :
    Inv n { s.set p ({ · with state := RUNNING }) with
      lock := some (.proc p), onCpu := update s.onCpu p true } := by
  have hset : Inv n (s.set p ({ · with state := RUNNING })) := by
    have hoff := h.locked.off_of_runnable hl hst
    refine ⟨h.locked.set fun hon => Bool.noConfusion (hoff.symm.trans hon),
      h.forks.set (h.forks.not_prep (by rw [hst]; nofun)) (fun _ => .inl (.inr (.inr rfl)))
        fun hno => absurd (.inl (.inr (.inr rfl))) hno,
      h.family.same (fun _ => .inr (.inr rfl)) (fun _ => .inl (.inr (.inl hst))) rfl,
      h.waits.set nofun nofun fun _ => .inl⟩
  obtain ⟨h2, h3, h4⟩ := hset.slots (t := { s.set p ({ · with state := RUNNING }) with
    lock := some (.proc p), onCpu := update s.onCpu p true }) rfl rfl fun c q hon _ => by
      change update s.onCpu p true c = true
      rcases eq_or_ne c p with rfl | e
      · exact update_self ..
      · exact (update_of_ne e ..).trans hon
  exact ⟨h.locked.dispatch hl hst, h2, h3, h4⟩

theorem table (h : Inv n s) (hfree : ∀ q, s.lock ≠ some (.proc q)) {o : Option Holder}
    (ho : ∀ q, o ≠ some (.proc q)) : Inv n { s with lock := o } := by
  obtain ⟨h2, h3, h4⟩ := h.slots (t := { s with lock := o }) rfl rfl fun _ _ hc _ => hc
  exact ⟨h.locked.table hfree ho, h2, h3, h4⟩

end Inv

/-- Process `p` is on a CPU and about to execute `c`. -/
structure At (n : Nat) (s : State) (p : Nat) (c : Code) : Prop where
  inv : Inv n s
  cpu : s.onCpu p = true
  code : s.code p = c

namespace At

variable {c : Code}

theorem wf (h : At n s p c) : Wf c := h.code ▸ h.inv.locked.wf p

theorem running (h : At n s p c) (hc : ∀ k, c ≠ Code.sched k) : (s.proc p).state = RUNNING :=
  h.inv.locked.running_of_ne h.cpu (h.code ▸ hc)

theorem set (h : At n s p c) (h' : Inv n (s.set i f)) : At n (s.set i f) p c := ⟨h', h.cpu, h.code⟩

theorem running_set (h : At n s p c) (hc : ∀ k, c ≠ Code.sched k) (hpi : p ≠ i) :
    ((s.set i f).proc p).state = RUNNING := by
  rw [proc_set_of_ne hpi]
  exact h.running hc

theorem ne_of_state (h : At n s p c) (hc : ∀ k, c ≠ Code.sched k) (hi : (s.proc i).state ≠ RUNNING) :
    p ≠ i := by
  rintro rfl
  exact hi (h.running hc)

theorem stays (h : At n s p c) (he : p = initproc) : exiting c = false := by
  rw [← h.code, he]
  exact h.inv.family.stays

/-- `init` never exits. -/
theorem ne_initproc (h : At n s p c) (hc : exiting c = true) : p ≠ initproc := fun he =>
  Bool.noConfusion (hc.symm.trans (h.stays he))

theorem left (h : At n s p c) (hj : leaving j c = true) : (s.proc j).parent ≠ some p :=
  h.inv.family.left p j (h.code ▸ hj)

theorem seen (h : At n s p c) (hj : ProcTable.seen p j c = true) (hpar : (s.proc j).parent = some p) :
    (s.proc j).state ≠ ZOMBIE :=
  h.inv.waits.seen p j (h.code ▸ hj) hpar

theorem told (h : At n s p c) (hl : leaves c = true) (hq : (s.proc p).parent = some q)
    (ha : Asleep q s) : waking q c = true := by
  have hw := h.inv.waits.told p q (h.code ▸ hl) hq ha
  rwa [h.code] at hw

theorem prep_eq (h : At n s p c) {x : Option (Nat × Bool)} (hc : prep c = x) :
    prep (s.code p) = x := by
  rw [h.code, hc]

theorem alone (h : At n s p c) (ho : owns c = true) (hq : q ≠ p) :
    (∀ q' j, ProcTable.seen q' j (s.code q) = false) ∧ leaves (s.code q) = false :=
  h.inv.alone h.cpu (h.code ▸ ho) hq

theorem goes (h : At n s p c) (hr : (s.proc p).state = RUNNING) (hk : Wf k) (ho : owns k = owns c)
    (hprep : prep k = prep c) (hleft : ∀ i, leaving i k = true → (s.proc i).parent ≠ some p)
    (hexit : p = initproc → exiting k = false) (hwaits : Waits (s.goto p k)) : Inv n (s.goto p k) :=
  ⟨h.inv.locked.goto h.cpu hk (h.code ▸ ho) hr, h.inv.forks.goto (h.code ▸ hprep),
    h.inv.family.goto hleft hexit, hwaits⟩

theorem goto (h : At n s p c) (hr : (s.proc p).state = RUNNING) (hk : Wf k) (ho : owns k = owns c)
    (hprep : prep k = prep c) (hexit : p = initproc → exiting k = false) (hq : quiet k = true)
    (hw : ∀ q, waking q c = false) : Inv n (s.goto p k) := by
  refine h.goes hr hk ho hprep (fun i hi => ?_) hexit (h.inv.waits.goto_quiet hq fun q hq => ?_)
  · exact Bool.noConfusion ((leaving_of_leaves (leaves_of_quiet hq)).symm.trans hi)
  · rw [h.code, hw q] at hq
    cases hq

theorem relock (h : At n s p c) {t : State} (hproc : t.proc = s.proc) (hcode : t.code = s.code)
    (hcpu : ∀ p' q, s.onCpu p' = true → waking q (s.code p') = true → t.onCpu p' = true)
    (hlocked : Locked (t.goto p k)) (hprep : prep k = prep c) (hexit : exiting k = exiting c)
    (hq : quiet k = true) (hw : ∀ q, waking q c = false) : Inv n (t.goto p k) := by
  obtain ⟨h2, h3, h4⟩ := h.inv.slots hproc hcode hcpu
  refine ⟨hlocked, h2.goto (by rw [hcode, h.code, hprep]), h3.goto (fun i hi => ?_) (fun he => ?_),
    h4.goto_quiet hq fun q hq => ?_⟩
  · exact Bool.noConfusion ((leaving_of_leaves (leaves_of_quiet hq)).symm.trans hi)
  · exact hexit.trans (h.stays he)
  · rw [hcode, h.code, hw q] at hq
    cases hq

theorem acquire (h : At n s p (Code.acquire k)) (hfree : s.lock = none) :
    Inv n ({ s with lock := some (.proc p) }.goto p k) :=
  h.relock rfl rfl (fun _ _ hc _ => hc) (h.inv.locked.acquire h.cpu h.code hfree) rfl rfl h.wf.2.2
    fun _ => rfl

theorem release (h : At n s p (Code.release k)) (hl : s.lock = some (.proc p)) :
    Inv n ({ s with lock := none }.goto p k) :=
  h.relock rfl rfl (fun _ _ hc _ => hc) (h.inv.locked.release h.cpu h.code hl) rfl rfl h.wf.2.2
    fun _ => rfl

theorem sched (h : At n s p (Code.sched k)) (hl : s.lock = some (.proc p)) :
    Inv n ({ s with
      lock := some .scheduler, onCpu := update s.onCpu p false }.goto p k) := by
  refine h.relock (t := { s with
    lock := some .scheduler, onCpu := update s.onCpu p false }) rfl rfl
    (fun p' q hon hw => ?_) (h.inv.locked.sched h.code hl) rfl rfl h.wf.2.2.2 fun _ => rfl
  have hne : p' ≠ p := by
    rintro rfl
    rw [h.code] at hw
    cases hw
  exact (update_of_ne hne ..).trans hon

theorem enter (h : At n s p c) (hr : (s.proc p).state = RUNNING) (hwf : Wf (Code.sched k))
    (ho : owns c = true) (hprep : prep k = prep c) (hexit : exiting k = exiting c)
    (hw : ∀ q, waking q c = false) (hf : Alive (f (s.proc p)).state)
    (hpar : (f (s.proc p)).parent = (s.proc p).parent) (hwaits : Waits (s.set p f)) :
    Inv n ((s.set p f).goto p (Code.sched k)) := by
  have hforks := h.inv.forks.set (f := f) (h.inv.forks.not_prep (i := p) (by rw [hr]; nofun))
    (fun _ => .inl hf) fun hno => absurd (.inl hf) hno
  have hfamily := h.inv.family.same (f := f) (fun _ => hf) (fun _ => .inl (.inr (.inr hr)))
    hpar
  refine ⟨h.inv.locked.enter h.cpu hwf ?_ (.inl hf), hforks.goto (h.prep_eq hprep.symm).symm,
    hfamily.goto nofun fun he => hexit.trans (h.stays he), hwaits.goto_quiet rfl fun q hq => ?_⟩
  · rw [h.code, ho]
    exact hwf.2.1
  · rw [code_set, h.code, hw q] at hq
    cases hq

theorem asleep {d : Chan} (h : At n s p (Code.asleep d k)) :
    Inv n ((s.set p ({ · with chan := some d, state := SLEEPING })).goto p k) := by
  obtain ⟨hk, ho, k', rfl⟩ := h.wf
  refine h.enter (h.running nofun) hk ho rfl rfl (fun _ => rfl) (.inl rfl) rfl
    (h.inv.waits.sleep (fun hd j => h.seen (decide_eq_true hd)) fun q => ?_)
  rcases eq_or_ne q p with rfl | e
  · rw [h.code]
    rfl
  · exact (h.alone ho e).2

theorem runnable (h : At n s p (Code.runnable k)) :
    Inv n ((s.set p ({ · with state := RUNNABLE })).goto p k) := by
  obtain ⟨hk, ho, k', rfl⟩ := h.wf
  exact h.enter (h.running nofun) hk ho rfl rfl (fun _ => rfl) (.inr (.inl rfl)) rfl
    (h.inv.waits.set nofun nofun fun _ => .inl)

theorem clearChan (h : At n s p (Code.clearChan k)) :
    Inv n ((s.set p ({ · with chan := none })).goto p k) := by
  have h' : Inv n (s.set p ({ · with chan := none })) :=
    ⟨h.inv.locked.set fun hi => ⟨h.inv.locked.occupied p hi, id⟩, h.inv.forks.same rfl rfl,
      h.inv.family.same id id rfl, h.inv.waits.set (fun _ h2 => nomatch h2) id fun _ => .inl⟩
  refine (h.set h').goto ?_ h.wf.1 rfl rfl h.stays h.wf.2.2 fun _ => rfl
  rw [proc_set_self]
  exact h.running nofun

theorem wake {d : Option Chan} (h : At n s p (wakeup1 d i k)) :
    Inv n ((s.set i (Proc.wake d)).goto p (wakeup1 d (i + 1) k)) := by
  have h' : Inv n (s.set i (Proc.wake d)) := by
    refine h.inv.set ?_ ?_ <;> rw [Proc.wake] <;> split
    · rfl
    · rfl
    · next hs => exact .inr ⟨hs.1, rfl⟩
    · exact .inl ⟨rfl, rfl⟩
  have hr : ((s.set i (Proc.wake d)).proc p).state = RUNNING := by
    have hr := h.running nofun
    rcases eq_or_ne p i with rfl | e
    · rw [proc_set_self, Proc.wake, if_neg (by rw [hr]; nofun)]
      exact hr
    · rw [proc_set_of_ne e]
      exact hr
  -- slot `i` has been looked at
  have awake : ∀ q, Asleep q (s.set i (Proc.wake d)) → d = some (.proc q) → q ≠ i := by
    rintro q ⟨h1, h2⟩ rfl rfl
    rw [proc_set_self, Proc.wake] at h1 h2
    split at h1
    · cases h1
    · next hs =>
      rw [if_neg hs] at h2
      exact hs ⟨h1, h2⟩
  have next : ∀ q, waking q (wakeup1 d i k) = true → Asleep q (s.set i (Proc.wake d)) →
      waking q (wakeup1 d (i + 1) k) = true := by
    intro q hq ha
    obtain ⟨hdq, hiq⟩ := of_decide_eq_true hq
    have := awake q ha hdq
    exact decide_eq_true ⟨hdq, by omega⟩
  have hset := h.set h'
  refine hset.goes hr h.wf rfl rfl (fun j hj => hset.left hj) h.stays
    (h'.waits.goto nofun (fun q hl hpar ha => next q (hset.told hl hpar ha) ha) fun q j hq ha _ => ?_)
  rw [hset.code] at hq
  exact next q hq ha

theorem woken {d : Option Chan} (h : At n s p (wakeup1 d i k)) (hi : ¬ i < n) :
    Inv n (s.goto p k) := by
  obtain ⟨hk, ho, hplain⟩ := h.wf
  have done : ∀ q j, waking q (wakeup1 d i k) = true → (s.proc j).parent = some q → False := by
    intro q j hq hj
    have h1 := (of_decide_eq_true hq).2
    have h2 := (h.inv.family.alive j q hj).2.1
    omega
  refine h.goes (h.running nofun) hk rfl rfl (fun j hj => h.left hj) h.stays
    (h.inv.waits.goto (fun j hs => ?_) (fun q hl hpar ha => ?_) fun q j hq _ hj => ?_)
  · obtain ⟨k', rfl⟩ | ⟨j', rfl⟩ := hplain <;> cases hs
  · exact (done q p (h.told hl hpar ha) hpar).elim
  · rw [h.code] at hq
    exact (done q j hq hj).elim

theorem alloc (h : At n s p (Code.alloc i)) (hi : i < n) (hst : (s.proc i).state = UNUSED) (x : Int) :
    Inv n ((s.set i ({ · with state := EMBRYO, pid := x })).goto p
      (Code.release (Code.kstack i))) := by
  have hr := h.running_set (f := ({ · with state := EMBRYO, pid := x })) nofun
    (h.ne_of_state nofun (by rw [hst]; nofun))
  have hdead : ¬ Occupied (s.proc i).state := by
    rw [hst]
    decide
  have hno := h.inv.forks.not_prep (i := i) (by rw [hst]; nofun)
  have hnone : (s.proc i).parent = none := by
    cases hpar : (s.proc i).parent with
    | none => rfl
    | some q => exact absurd (h.inv.forks.unborn i q hdead hpar) (hno q true)
  have hnew : ¬ Occupied EMBRYO := by decide
  have hforks := h.inv.forks.set (f := ({ · with state := EMBRYO, pid := x })) hno
    (fun ha => absurd (.inl ha) hdead) fun _ => hnone
  have h' : Inv n (s.set i ({ · with state := EMBRYO, pid := x })) :=
    ⟨h.inv.locked.set fun hon => absurd (h.inv.locked.occupied i hon) hdead, hforks,
      h.inv.family.set (fun ha => absurd (.inl ha) hdead) (fun _ => .inl) fun ho => absurd ho hnew,
      h.inv.waits.set nofun nofun fun _ => .inl⟩
  refine ⟨h'.locked.goto h.cpu ⟨trivial, rfl, rfl⟩ ?_ hr,
    hforks.begin hi ?_ hno (h.prep_eq rfl) (.inr (.inr hr)) rfl,
    h'.family.goto nofun fun _ => rfl, h'.waits.goto_quiet rfl ?_⟩
  · rw [code_set, h.code]
    rfl
  · rw [proc_set_self]
  · rw [code_set, h.code]
    nofun

theorem fail (h : At n s p c) (hprep : prep c = some (i, false)) (hr : (s.proc p).state = RUNNING)
    (ho : owns c = false) (hw : ∀ q, waking q c = false) :
    Inv n ((s.set i ({ · with state := UNUSED })).goto p user) := by
  obtain ⟨hi, hst⟩ := h.inv.forks.embryo p i false (h.prep_eq hprep)
  obtain ⟨hforks, hno⟩ := h.inv.forks.drop (k := user) (h.prep_eq hprep) rfl
  have hdead : ¬ Occupied (s.proc i).state := by
    rw [hst]
    decide
  have hnone : (s.proc i).parent = none := by
    cases hpar : (s.proc i).parent with
    | none => rfl
    | some q =>
      have hq := h.inv.forks.unborn i q hdead hpar
      obtain rfl := h.inv.forks.one q p i true false hq (h.prep_eq hprep)
      rw [h.prep_eq hprep] at hq
      cases hq
  have hnew : ¬ Occupied UNUSED := by decide
  have hlocked := h.inv.locked.goto (k := user) h.cpu trivial (h.code ▸ ho.symm) hr
  refine ⟨hlocked.set (i := i) (f := ({ · with state := UNUSED }))
      fun hon => absurd (h.inv.locked.occupied i hon) hdead,
    hforks.set (f := ({ · with state := UNUSED })) hno (fun ha => absurd (.inl ha) hdead)
      fun _ => hnone,
    (h.inv.family.set (i := i) (f := ({ · with state := UNUSED }))
      (fun ha => absurd (.inl ha) hdead) (fun _ => .inl) fun hocc => absurd hocc hnew).goto
        nofun fun _ => rfl,
    (h.inv.waits.set (i := i) (f := ({ · with state := UNUSED })) nofun nofun
      fun _ => .inl).goto_quiet rfl fun q hq => ?_⟩
  rw [code_set, h.code, hw q] at hq
  cases hq

theorem kstack (h : At n s p (Code.kstack i)) :
    Inv n ((s.goto i (Code.release user)).goto p (Code.copyuvm i)) := by
  obtain ⟨hi, hst⟩ := h.inv.forks.embryo p i false (h.prep_eq rfl)
  have hpi := h.ne_of_state nofun (i := i) (by rw [hst]; nofun)
  have h' : At n (s.goto i (Code.release user)) p (Code.kstack i) :=
    ⟨h.inv.fresh hst, h.cpu, (code_goto_of_ne hpi).trans h.code⟩
  exact h'.goto (h.running nofun) trivial rfl rfl (fun _ => rfl) rfl fun _ => rfl

theorem adopt (h : At n s p (Code.setParent i)) (hn : p < n) :
    Inv n ((s.set i ({ · with parent := some p })).goto p (Code.setRunnable i)) := by
  have hr := h.running nofun
  have hprep : prep (s.code p) = some (i, false) := h.prep_eq rfl
  obtain ⟨hi, hst⟩ := h.inv.forks.embryo p i false hprep
  have hdead : ¬ Occupied (s.proc i).state := by
    rw [hst]
    decide
  have hpi := h.ne_of_state nofun (i := i) (by rw [hst]; nofun)
  have hinit : i ≠ initproc := by
    rintro rfl
    exact hdead (.inl h.inv.family.init)
  have hleave : leaves (s.code i) = false := by
    cases hl : leaves (s.code i) with
    | false => rfl
    | true => exact absurd (h.inv.locked.occupied i (h.inv.locked.of_leaves hl).1) hdead
  have hlocked := h.inv.locked.set (i := i) (f := ({ · with parent := some p }))
    fun hon => absurd (h.inv.locked.occupied i hon) hdead
  have hfamily := h.inv.family.set (i := i) (f := ({ · with parent := some p }))
    (fun ha => absurd (.inl ha) hdead) (fun q hq => ?_) nofun
  have hwaits := h.inv.waits.set (i := i) (f := ({ · with parent := some p }))
    (fun h1 _ => by rw [hst] at h1; cases h1) id
    fun _ _ => .inr ⟨by rw [hst]; nofun, hleave⟩
  · refine ⟨hlocked.goto h.cpu trivial ?_ (h.running_set nofun hpi), h.inv.forks.adopt hprep rfl,
      hfamily.goto nofun fun _ => rfl, hwaits.goto_quiet rfl ?_⟩
    · rw [code_set, h.code]
      rfl
    · rw [code_set, h.code]
      nofun
  · cases hq
    refine .inr ⟨hi, hn, .inr (.inr hr), hpi, hinit, ?_⟩
    rw [h.code]
    rfl

theorem born (h : At n s p (Code.setRunnable i)) :
    Inv n ((s.set i ({ · with state := RUNNABLE })).goto p user) := by
  have hprep : prep (s.code p) = some (i, true) := h.prep_eq rfl
  obtain ⟨hi, hst⟩ := h.inv.forks.embryo p i true hprep
  have hdead : ¬ Occupied (s.proc i).state := by
    rw [hst]
    decide
  have hpi := h.ne_of_state nofun (i := i) (by rw [hst]; nofun)
  have hlocked := h.inv.locked.set (i := i) (f := ({ · with state := RUNNABLE }))
    fun hon => absurd (h.inv.locked.occupied i hon) hdead
  have hfamily := h.inv.family.set (i := i) (f := ({ · with state := RUNNABLE }))
    (fun _ => .inl (.inr (.inl rfl))) (fun _ => .inl) fun _ _ => by
      rw [h.inv.forks.adopted p i hprep]
      nofun
  have hwaits := h.inv.waits.set (i := i) (f := ({ · with state := RUNNABLE })) nofun nofun
    fun _ => .inl
  refine ⟨hlocked.goto h.cpu trivial ?_ (h.running_set nofun hpi),
    h.inv.forks.born hprep rfl (.inl (.inr (.inl rfl))), hfamily.goto nofun fun _ => rfl,
    hwaits.goto_quiet rfl ?_⟩
  · rw [code_set, h.code]
    rfl
  · rw [code_set, h.code]
    nofun

theorem exit (h : At n s p Code.exit) :
    Inv n (s.goto p (wakeup1 ((s.proc p).parent.map .proc) 0 (Code.reparent 0))) := by
  refine h.goes (h.running nofun) ⟨trivial, rfl, .inr ⟨0, rfl⟩⟩ rfl rfl (fun j hj => ?_) h.stays
    (h.inv.waits.goto nofun (fun q _ hpar _ => ?_) (by rw [h.code]; nofun))
  · exact absurd (of_decide_eq_true (p := j < 0) hj) (Nat.not_lt_zero j)
  · exact decide_eq_true ⟨by rw [hpar]; rfl, Nat.zero_le q⟩

theorem reparent (h : At n s p (Code.reparent i)) (hpar : (s.proc i).parent = some p) :
    Inv n ((s.set i ({ · with parent := some initproc })).goto p
      (if (s.proc i).state = ZOMBIE then
        wakeup1 (some (.proc initproc)) 0 (Code.reparent (i + 1))
      else Code.reparent (i + 1))) := by
  obtain ⟨hi, hn, -⟩ := h.inv.family.alive i p hpar
  obtain ⟨hne, hinit⟩ := h.inv.family.root i p hpar
  have hpinit := h.ne_initproc rfl
  generalize hk : (if (s.proc i).state = ZOMBIE then
    wakeup1 (some (.proc initproc)) 0 (Code.reparent (i + 1)) else Code.reparent (i + 1)) = k
  -- whether or not `init` has to be told, the code is in the loop past slot `i`
  have facts : Wf k ∧ owns k = true ∧ prep k = none ∧ leaves k = true ∧
      (∀ j, leaving j k = true → j < i + 1) ∧ (∀ j, ProcTable.seen p j k = false) ∧
      ((s.proc i).state = ZOMBIE → waking initproc k = true) := by
    by_cases hz : (s.proc i).state = ZOMBIE
    · rw [if_pos hz] at hk
      subst hk
      exact ⟨⟨trivial, rfl, .inr ⟨_, rfl⟩⟩, rfl, rfl, rfl, fun j hj => of_decide_eq_true hj,
        fun _ => rfl, fun _ => rfl⟩
    · rw [if_neg hz] at hk
      subst hk
      exact ⟨trivial, rfl, rfl, rfl, fun j hj => of_decide_eq_true hj, fun _ => rfl,
        fun hz' => absurd hz' hz⟩
  obtain ⟨hwf, hok, hprep, hleaves, hleaving, hseen, hwaking⟩ := facts
  have hlocked := (h.inv.locked.goto h.cpu hwf (by rw [h.code, hok]; rfl) (h.running nofun)).set
    (i := i) (f := ({ · with parent := some initproc })) fun hon => ⟨h.inv.locked.occupied i hon, id⟩
  -- a child that is not there yet would still be forked by `p`
  have hunborn : Occupied (s.proc i).state := by
    by_contra hno
    have := h.inv.forks.unborn i p hno hpar
    rw [h.code] at this
    cases this
  have hforks := h.inv.forks.set (i := i) (f := ({ · with parent := some initproc }))
    (h.inv.forks.not_prep fun hst => by rw [hst] at hunborn; exact absurd hunborn (by decide))
    (fun ha => .inl ha) fun hno => absurd hunborn hno
  have hfamily := h.inv.family.set (i := i) (f := ({ · with parent := some initproc }))
    (fun ha => .inl ha) (fun q hq => ?_) nofun
  have hwaits := h.inv.waits.goto (p := p) (k := k)
    (fun j hs => Bool.noConfusion ((hseen j).symm.trans hs))
    (fun q _ hq ha => nomatch h.told rfl hq ha) (by rw [h.code]; nofun)
  · refine ⟨hlocked, hforks.goto ?_, hfamily.goto (fun j hj => ?_) fun e => absurd e hpinit,
      hwaits.give ?_ ?_ fun hz => ⟨p, h.cpu, ?_⟩⟩
    · rw [code_set, h.code, hprep]
      rfl
    · rcases eq_or_ne j i with rfl | e
      · rw [proc_set_self]
        intro hj'
        cases hj'
        exact hpinit rfl
      · rw [proc_set_of_ne e]
        have := hleaving j hj
        exact h.left (decide_eq_true (by omega))
    · rw [code_goto_of_ne hne.symm]
      exact (h.alone rfl hne.symm).2
    · rw [code_goto_of_ne hpinit.symm]
      exact (h.alone rfl hpinit.symm).1 _ _
    · rw [code_goto_self]
      exact hwaking hz
  · cases hq
    refine .inr ⟨hi, Nat.lt_of_le_of_lt (Nat.zero_le p) hn, h.inv.family.init, hinit.symm, hinit, ?_⟩
    exact leaving_of_leaves (h.alone rfl hpinit.symm).2

theorem zombie (h : At n s p Code.zombie) :
    Inv n ((s.set p ({ · with state := ZOMBIE })).goto p (Code.sched dead)) := by
  have hr := h.running nofun
  have hpinit := h.ne_initproc rfl
  have hlocked := h.inv.locked.enter (k := dead) (f := ({ · with state := ZOMBIE })) h.cpu
    ⟨trivial, rfl, rfl, rfl⟩ (by rw [h.code]; rfl) (.inr rfl)
  have hforks := h.inv.forks.set (i := p) (f := ({ · with state := ZOMBIE }))
    (h.inv.forks.not_prep (by rw [hr]; nofun)) (fun _ => .inr (h.prep_eq rfl))
    fun hno => absurd (.inr rfl) hno
  have hfamily := h.inv.family.set (i := p) (f := ({ · with state := ZOMBIE }))
    (fun _ => .inr ⟨hpinit, fun j => h.left rfl⟩) (fun _ => .inl)
    fun _ => h.inv.family.child p (.inl (.inr (.inr hr)))
  have hwaits := h.inv.waits.exit (p := p) (fun q hq ha => nomatch h.told rfl hq ha) fun q j => ?_
  · refine ⟨hlocked, hforks.goto ?_, hfamily.goto nofun fun e => absurd e hpinit,
      hwaits.goto_quiet rfl ?_⟩
    · rw [code_set, h.code]
      rfl
    · rw [code_set, h.code]
      nofun
  · rcases eq_or_ne q p with rfl | e
    · rw [h.code]
      rfl
    · exact (h.alone rfl e).1 q j

theorem reap {b : Bool} (h : At n s p (Code.wait i b)) (hst : (s.proc i).state = ZOMBIE) :
    Inv n ((s.set i Proc.free).goto p (Code.release user)) := by
  have hpi := h.ne_of_state nofun (i := i) (by rw [hst]; nofun)
  have hdead : ¬ Alive (s.proc i).state := by
    rw [hst]
    decide
  have hnew : ¬ Occupied UNUSED := by decide
  have hoff : s.onCpu i = false := by
    cases hon : s.onCpu i with
    | false => rfl
    | true =>
      -- a `ZOMBIE` on a CPU is in `sched` and holds the lock, but `p` holds it
      rcases h.inv.locked.running i hon with hri | ⟨k, hk⟩
      · rw [hst] at hri
        cases hri
      · have hwf := h.inv.locked.wf i
        rw [hk] at hwf
        exact absurd (h.inv.locked.unique h.cpu hon (by rw [h.code]; rfl) (by rw [hk]; exact hwf.2.1))
          hpi
  have h' : Inv n (s.set i Proc.free) :=
    ⟨h.inv.locked.set fun hon => Bool.noConfusion (hoff.symm.trans hon),
      h.inv.forks.set (h.inv.forks.not_prep (by rw [hst]; nofun)) (fun ha => absurd ha hdead)
        fun _ => rfl,
      h.inv.family.set (fun ha => absurd ha hdead) nofun fun ho => absurd ho hnew,
      h.inv.waits.set nofun nofun nofun⟩
  exact (h.set h').goto (h.running_set nofun hpi) ⟨trivial, rfl, rfl⟩ rfl rfl (fun _ => rfl) rfl
    fun _ => rfl

theorem pass {b b' : Bool} (h : At n s p (Code.wait i b))
    (hst : (s.proc i).parent = some p → (s.proc i).state ≠ ZOMBIE) :
    Inv n (s.goto p (Code.wait (i + 1) b')) := by
  refine h.goes (h.running nofun) trivial rfl rfl nofun (fun _ => rfl)
    (h.inv.waits.goto (fun j hs => ?_) nofun (by rw [h.code]; nofun))
  rcases eq_or_ne j i with rfl | e
  · exact hst
  · have := of_decide_eq_true (p := j < i + 1) hs
    exact h.seen (decide_eq_true (by omega))

theorem waitSleep {b : Bool} (h : At n s p (Code.wait i b)) (hi : ¬ i < n) :
    Inv n (s.goto p (Code.asleep (.proc p) (Code.sched (Code.clearChan (Code.wait 0 false))))) := by
  refine h.goes (h.running nofun) ⟨⟨⟨trivial, rfl, rfl⟩, rfl, rfl, rfl⟩, rfl, _, rfl⟩ rfl rfl nofun
    (fun _ => rfl) (h.inv.waits.goto (fun j _ hj => ?_) nofun (by rw [h.code]; nofun))
  have := (h.inv.family.alive j p hj).1
  exact h.seen (decide_eq_true (by omega)) hj

theorem skip (h : At n s p (Code.reparent i)) (hpar : (s.proc i).parent ≠ some p) :
    Inv n (s.goto p (Code.reparent (i + 1))) := by
  refine h.goes (h.running nofun) trivial rfl rfl (fun j hj => ?_) h.stays
    (h.inv.waits.goto nofun (fun q _ hq ha => nomatch h.told rfl hq ha) (by rw [h.code]; nofun))
  rcases eq_or_ne j i with rfl | e
  · exact hpar
  · have := of_decide_eq_true (p := j < i + 1) hj
    exact h.left (decide_eq_true (by omega))

theorem passed (h : At n s p (Code.reparent i)) (hi : ¬ i < n) : Inv n (s.goto p Code.zombie) := by
  refine h.goes (h.running nofun) trivial rfl rfl (fun j _ hj => ?_) h.stays
    (h.inv.waits.goto nofun (fun q _ hq ha => nomatch h.told rfl hq ha) (by rw [h.code]; nofun))
  have := (h.inv.family.alive j p hj).1
  exact h.left (decide_eq_true (by omega)) hj

end At

/-- What one instruction of process `p` can do. -/
inductive Exec (n : Nat) (s : State) (p : Nat) (ok : Bool) : State → Prop where
  | acquire {k : Code} (hc : s.code p = acquire k) (hfree : s.lock = none) :
      Exec n s p ok ({ s with lock := some (.proc p) }.goto p k)
  | release {k : Code} (hc : s.code p = release k) (hl : s.lock = some (.proc p)) :
      Exec n s p ok ({ s with lock := none }.goto p k)
  | asleep {c : Chan} {k : Code} (hc : s.code p = asleep c k) :
      Exec n s p ok ((s.set p ({ · with chan := some c, state := SLEEPING })).goto p k)
  | runnable {k : Code} (hc : s.code p = runnable k) :
      Exec n s p ok ((s.set p ({ · with state := RUNNABLE })).goto p k)
  | sched {k : Code} (hc : s.code p = sched k) (hl : s.lock = some (.proc p)) :
      Exec n s p ok ({ s with
        lock := some .scheduler, onCpu := update s.onCpu p false }.goto p k)
  | clearChan {k : Code} (hc : s.code p = clearChan k) :
      Exec n s p ok ((s.set p ({ · with chan := none })).goto p k)
  | wake {c : Option Chan} {i : Nat} {k : Code} (hc : s.code p = wakeup1 c i k) :
      Exec n s p ok ((s.set i (Proc.wake c)).goto p (wakeup1 c (i + 1) k))
  | woken {c : Option Chan} {i : Nat} {k : Code} (hc : s.code p = wakeup1 c i k) (hi : ¬ i < n) :
      Exec n s p ok (s.goto p k)
  | found {i : Nat} (hc : s.code p = alloc i) (hi : i < n) (hst : (s.proc i).state = UNUSED) :
      Exec n s p ok (({ s with nextpid := incr s.nextpid }.set i
        ({ · with state := EMBRYO, pid := s.nextpid })).log (.alloc i s.nextpid)
          |>.goto p (release (kstack i)))
  | taken {i : Nat} (hc : s.code p = alloc i) : Exec n s p ok (s.goto p (alloc (i + 1)))
  | kstack {i : Nat} (hc : s.code p = kstack i) :
      Exec n s p ok ((s.goto i (release user)).goto p (copyuvm i))
  | copyuvm {i : Nat} (hc : s.code p = copyuvm i) : Exec n s p ok (s.goto p (setParent i))
  | fail {i : Nat} (hok : ok = false) (hc : s.code p = Code.kstack i ∨ s.code p = Code.copyuvm i) :
      Exec n s p ok ((s.set i ({ · with state := UNUSED })).goto p user)
  | adopt {i : Nat} (hc : s.code p = setParent i) :
      Exec n s p ok ((s.set i ({ · with parent := some p })).goto p (setRunnable i))
  | born {i : Nat} (hc : s.code p = setRunnable i) :
      Exec n s p ok ((s.set i ({ · with state := RUNNABLE })).log (.fork p i (s.proc i).pid)
        |>.goto p user)
  | exit (hc : s.code p = exit) :
      Exec n s p ok (s.goto p (wakeup1 ((s.proc p).parent.map .proc) 0 (reparent 0)))
  | reparent {i : Nat} (hc : s.code p = reparent i) (hpar : (s.proc i).parent = some p) :
      Exec n s p ok ((s.set i ({ · with parent := some initproc })).goto p
        (if (s.proc i).state = ZOMBIE then
          wakeup1 (some (.proc initproc)) 0 (Code.reparent (i + 1))
        else Code.reparent (i + 1)))
  | skip {i : Nat} (hc : s.code p = Code.reparent i) (hpar : (s.proc i).parent ≠ some p) :
      Exec n s p ok (s.goto p (Code.reparent (i + 1)))
  | passed {i : Nat} (hc : s.code p = Code.reparent i) (hi : ¬ i < n) :
      Exec n s p ok (s.goto p zombie)
  | zombie (hc : s.code p = zombie) :
      Exec n s p ok ((s.set p ({ · with state := ZOMBIE })).log (.exit p) |>.goto p (Code.sched dead))
  | reap {i : Nat} {b : Bool} (hc : s.code p = wait i b) (hpar : (s.proc i).parent = some p)
      (hst : (s.proc i).state = ZOMBIE) :
      Exec n s p ok ((s.set i Proc.free).log (.reap p i (s.proc i).pid)
        |>.goto p (Code.release user))
  | pass {i : Nat} {b b' : Bool} (hc : s.code p = wait i b)
      (hst : (s.proc i).parent = some p → (s.proc i).state ≠ ZOMBIE) :
      Exec n s p ok (s.goto p (wait (i + 1) b'))
  | waitSleep {i : Nat} {b : Bool} (hc : s.code p = wait i b) (hi : ¬ i < n) :
      Exec n s p ok (s.goto p (Code.asleep (.proc p) (Code.sched (Code.clearChan (wait 0 false)))))
  | mark {i : Nat} {pid : Int} (hc : s.code p = kill pid i) (hi : i < n)
      (hpid : (s.proc i).pid = pid) :
      Exec n s p ok ((s.set i Proc.kill).log (.kill i pid) |>.goto p (Code.release user))
  | miss {i : Nat} {pid : Int} (hc : s.code p = kill pid i) :
      Exec n s p ok (s.goto p (kill pid (i + 1)))
  /-- `allocproc`, `wait` or `kill` return without having found anything. -/
  | give (hc : (∃ i, s.code p = alloc i) ∨ (∃ i b, s.code p = wait i b) ∨
      ∃ pid i, s.code p = kill pid i) : Exec n s p ok (s.goto p (Code.release user))

theorem exec_cases {ok : Bool} (h : exec n s p ok (s.code p) = some s') : Exec n s p ok s' := by
  cases hc : s.code p with
  | user => rw [hc] at h; cases h
  | acquire k =>
    simp only [hc, exec] at h
    split at h
    · next hfree => cases h; exact .acquire hc hfree
    · cases h
  | release k =>
    simp only [hc, exec] at h
    split at h
    · next hl => cases h; exact .release hc hl
    · cases h
  | asleep c k => simp only [hc, exec] at h; cases h; exact .asleep hc
  | runnable k => simp only [hc, exec] at h; cases h; exact .runnable hc
  | sched k =>
    simp only [hc, exec] at h
    split at h
    · next hl => cases h; exact .sched hc hl
    · cases h
  | clearChan k => simp only [hc, exec] at h; cases h; exact .clearChan hc
  | wakeup1 c i k =>
    simp only [hc, exec] at h
    split at h
    · cases h; exact .wake hc
    · next hi => cases h; exact .woken hc hi
  | alloc i =>
    simp only [hc, exec] at h
    split at h
    · next hi =>
      split at h
      · next hst => cases h; exact .found hc hi hst
      · cases h; exact .taken hc
    · cases h; exact .give (.inl ⟨i, hc⟩)
  | kstack i =>
    simp only [hc, exec] at h
    split at h
    · cases h; exact .kstack hc
    · next hok => cases h; exact .fail (Bool.eq_false_iff.mpr hok) (.inl hc)
  | copyuvm i =>
    simp only [hc, exec] at h
    split at h
    · cases h; exact .copyuvm hc
    · next hok => cases h; exact .fail (Bool.eq_false_iff.mpr hok) (.inr hc)
  | setParent i => simp only [hc, exec] at h; cases h; exact .adopt hc
  | setRunnable i => simp only [hc, exec] at h; cases h; exact .born hc
  | exit => simp only [hc, exec] at h; cases h; exact .exit hc
  | reparent i =>
    simp only [hc, exec] at h
    split at h
    · split at h
      · next hpar => cases h; exact .reparent hc hpar
      · next hpar => cases h; exact .skip hc hpar
    · next hi => cases h; exact .passed hc hi
  | zombie => simp only [hc, exec] at h; cases h; exact .zombie hc
  | dead => rw [hc] at h; cases h
  | wait i b =>
    simp only [hc, exec] at h
    split at h
    · split at h
      · next hpar =>
        split at h
        · next hst => cases h; exact .reap hc hpar hst
        · next hst => cases h; exact .pass hc fun _ => hst
      · next hpar => cases h; exact .pass hc fun hp => absurd hp hpar
    · next hi =>
      split at h
      · cases h; exact .give (.inr (.inl ⟨i, b, hc⟩))
      · cases h; exact .waitSleep hc hi
  | kill pid i =>
    simp only [hc, exec] at h
    split at h
    · next hi =>
      split at h
      · next hpid => cases h; exact .mark hc hi hpid
      · cases h; exact .miss hc
    · cases h; exact .give (.inr (.inr ⟨pid, i, hc⟩))

theorem At.stay {c : Code} (h : At n s p c) (hr : (s.proc p).state = RUNNING) (ho : owns k = owns c)
    (hk : Wf k ∧ prep k = none ∧ exiting k = false ∧ quiet k = true) (hprep : prep c = none)
    (hw : ∀ q, waking q c = false) : Inv n (s.goto p k) :=
  h.goto hr hk.1 ho (hk.2.1.trans hprep.symm) (fun _ => hk.2.2.1) hk.2.2.2 hw

theorem Inv.exec (h : Inv n s) {ok : Bool} (hn : p < n) (hp : s.onCpu p = true)
    (he : Exec n s p ok s') :
    Inv n s' := by
  have here : ∀ {c}, s.code p = c → At n s p c := fun hc => ⟨h, hp, hc⟩
  cases he with
  | acquire hc hfree => exact (here hc).acquire hfree
  | release hc hl => exact (here hc).release hl
  | asleep hc => exact (here hc).asleep
  | runnable hc => exact (here hc).runnable
  | sched hc hl => exact (here hc).sched hl
  | clearChan hc => exact (here hc).clearChan
  | wake hc => exact (here hc).wake
  | woken hc hi => exact (here hc).woken hi
  | found hc hi hst => exact (At.alloc ⟨h.pid (incr s.nextpid), hp, hc⟩ hi hst s.nextpid).log _
  | taken hc =>
    exact (here hc).stay ((here hc).running nofun) rfl ⟨trivial, rfl, rfl, rfl⟩ rfl fun _ => rfl
  | kstack hc => exact (here hc).kstack
  | copyuvm hc =>
    exact (here hc).goto ((here hc).running nofun) trivial rfl rfl (fun _ => rfl) rfl fun _ => rfl
  | fail _ hc =>
    rcases hc with hc | hc <;>
    exact (here hc).fail rfl ((here hc).running nofun) rfl fun _ => rfl
  | adopt hc => exact (here hc).adopt hn
  | born hc => exact (here hc).born.log _
  | exit hc => exact (here hc).exit
  | reparent hc hpar => exact (here hc).reparent hpar
  | skip hc hpar => exact (here hc).skip hpar
  | passed hc hi => exact (here hc).passed hi
  | zombie hc => exact (here hc).zombie.log _
  | reap hc hpar hst => exact ((here hc).reap hst).log _
  | pass hc hst => exact (here hc).pass hst
  | waitSleep hc hi => exact (here hc).waitSleep hi
  | @mark i pid hc hi hpid =>
    have h' : Inv n (s.set i Proc.kill) := by
      refine h.set rfl ?_
      rw [Proc.kill]
      by_cases hst : (s.proc i).state = SLEEPING
      · exact .inr ⟨hst, if_pos hst⟩
      · exact .inl ⟨if_neg hst, rfl⟩
    refine (((here hc).set h').stay (k := Code.release user) ?_ rfl
      ⟨⟨trivial, rfl, rfl⟩, rfl, rfl, rfl⟩ rfl fun _ => rfl).log _
    have hr := (here hc).running nofun
    rcases eq_or_ne p i with rfl | e
    · rw [proc_set_self, Proc.kill, if_neg (by rw [hr]; nofun)]
      exact hr
    · rw [proc_set_of_ne e]
      exact hr
  | miss hc =>
    exact (here hc).stay ((here hc).running nofun) rfl ⟨trivial, rfl, rfl, rfl⟩ rfl fun _ => rfl
  | give hc =>
    rcases hc with ⟨i, hc⟩ | ⟨i, b, hc⟩ | ⟨pid, i, hc⟩ <;>
    exact (here hc).stay ((here hc).running nofun) rfl ⟨⟨trivial, rfl, rfl⟩, rfl, rfl, rfl⟩ rfl
      fun _ => rfl

theorem At.call {c : Call} (h : At n s p user) (he : call s p c = some s') : Inv n s' := by
  -- every call starts by taking the lock
  have start : ∀ {k}, owns k = false → Wf k → prep k = none → quiet k = true →
      (p = initproc → exiting k = false) → Inv n (s.goto p k) := fun ho hk hprep hq hexit =>
    h.goto (h.running nofun) hk ho hprep hexit hq fun _ => rfl
  cases c with
  | fork => cases he; exact start rfl ⟨trivial, rfl, rfl⟩ rfl rfl fun _ => rfl
  | exit =>
    simp only [ProcTable.call] at he
    split at he
    · cases he
    · next hne => cases he; exact start rfl ⟨trivial, rfl, rfl⟩ rfl rfl fun e => absurd e hne
  | wait => cases he; exact start rfl ⟨trivial, rfl, rfl⟩ rfl rfl fun _ => rfl
  | kill pid => cases he; exact start rfl ⟨trivial, rfl, rfl⟩ rfl rfl fun _ => rfl
  | sleep a =>
    cases he
    exact start rfl ⟨⟨⟨⟨⟨trivial, rfl, rfl⟩, rfl, rfl⟩, rfl, rfl, rfl⟩, rfl, _, rfl⟩, rfl, rfl⟩ rfl rfl
      fun _ => rfl
  | wakeup c => cases he; exact start rfl (wf_wakeup trivial rfl rfl) rfl rfl fun _ => rfl
  | yield => cases he; exact start rfl (wf_yield trivial rfl rfl) rfl rfl fun _ => rfl
  | trap =>
    simp only [ProcTable.call] at he
    split at he
    · split at he
      · cases he
      · next hne =>
        cases he
        exact (start (k := Code.acquire Code.exit) rfl ⟨trivial, rfl, rfl⟩ rfl rfl
          fun e => absurd e hne).log _
    · cases he; exact h.inv
  | fault => cases he; exact (h.inv.set rfl (.inl ⟨rfl, rfl⟩)).log _

/-- An interrupt handler runs before the code that it has interrupted. -/
theorem At.interrupt {c : Code} (h : At n s p c) (ho : owns c = false) (hk : Wf k)
    (hko : owns k = false) (hprep : prep k = prep c) (hexit : exiting k = exiting c)
    (hq : quiet k = true) : Inv n (s.goto p k) := by
  have hne : ∀ k, c ≠ Code.sched k := by
    rintro k rfl
    exact Bool.noConfusion (ho.symm.trans h.wf.2.1)
  refine h.goto (h.running hne) hk (hko.trans ho.symm) hprep (fun he => hexit.trans (h.stays he)) hq
    fun q => ?_
  cases hw : waking q c with
  | false => rfl
  | true => exact Bool.noConfusion (ho.symm.trans (owns_of_waking h.wf hw))

theorem Inv.step (h : Inv n s) {a : Act} (he : step n s a = some s') : Inv n s' := by
  cases a with
  | call p c =>
    simp only [ProcTable.step] at he
    split at he
    · next hp => exact At.call ⟨h, hp.2.1, hp.2.2⟩ he
    · cases he
  | exec p ok =>
    simp only [ProcTable.step] at he
    split at he
    · next hp => exact h.exec hp.1 hp.2 (exec_cases he)
    · cases he
  | tick p =>
    simp only [ProcTable.step] at he
    split at he
    · next hp =>
      cases he
      have hwf := h.locked.wf p
      exact At.interrupt ⟨h, hp.2.1, rfl⟩ hp.2.2 (wf_yield hwf hp.2.2 (quiet_of_owns hwf hp.2.2)) rfl rfl
        rfl rfl
    · cases he
  | device p c =>
    simp only [ProcTable.step] at he
    split at he
    · next hp =>
      cases he
      have hwf := h.locked.wf p
      exact At.interrupt ⟨h, hp.2.1, rfl⟩ hp.2.2 (wf_wakeup hwf hp.2.2 (quiet_of_owns hwf hp.2.2)) rfl rfl
        rfl rfl
    · cases he
  | lockTable =>
    simp only [ProcTable.step] at he
    split at he
    · next hl => cases he; exact h.table (by rw [hl]; nofun) nofun
    · cases he
  | dispatch p =>
    simp only [ProcTable.step] at he
    split at he
    · next hl => cases he; exact h.dispatch hl.2.1 hl.2.2
    · cases he
  | unlockTable =>
    simp only [ProcTable.step] at he
    split at he
    · next hl => cases he; exact h.table (by rw [hl]; nofun) nofun
    · cases he

/-- The rule for runs: what holds at first and is kept by every step holds after every run. -/
theorem runActs_induction {P : State → Prop} (hstep : ∀ s a s', P s → step n s a = some s' → P s') :
    ∀ {acts : List Act} {s s' : State}, P s → runActs n acts s = some s' → P s'
  | [], s, s', h, hrun => by cases hrun; exact h
  | a :: acts, s, s', h, hrun => by
    obtain ⟨s₁, h1, h2⟩ := Option.bind_eq_some_iff.mp hrun
    exact runActs_induction hstep (hstep s a s₁ h h1) h2

/-! ### While the lock is free -/

theorem Inv.zombie_of_free (h : Inv n s) (hl : s.lock = none) (hq : Asleep q s)
    (hi : (s.proc i).parent = some q) : (s.proc i).state ≠ ZOMBIE := by
  intro hz
  obtain ⟨c, hc, hw⟩ := h.waits.zombie i q hq hi hz
  have := h.locked.holds hc (h.locked.of_waking hw).2
  rw [hl] at this
  cases this

end ProcTable

end Xv6
