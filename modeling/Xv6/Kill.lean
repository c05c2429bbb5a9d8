import Xv6.Lifecycle

/-!
# `kill`

`kill(pid)` looks at all slots of the process table, those in use and those that are not. A slot
that is not in use has number 0 after boot and after `wait`, and keeps its last number if `fork`
failed; so `kill` can find and mark a slot that holds no process, and the next process in
that slot is born killed (`kill_hits_unused`). A `fork` that fails after `kill` has marked
its new slot leaves the same trap.

Where neither happens the mark means what it should: a process is marked only by a `kill` with its
own number or by its own fault, after it got its slot, and nothing else makes it exit
(`kill_sound`).
-/

namespace Xv6

namespace ProcTable

open ProcState Spinlock Code

/-! ### One call -/

/-- The slot at which the loop of `kill(pid)` stops. -/
def killScan (n : Nat) (t : Nat → Proc) (pid : Int) : Option Nat :=
  (List.range n).find? fun i => decide ((t i).pid = pid)

/-- `kill(pid)` on the process table: the result, and the table afterwards. -/
def killTable (n : Nat) (t : Nat → Proc) (pid : Int) : Int × (Nat → Proc) :=
  match killScan n t pid with
  | some i => (0, Function.update t i (t i).kill)
  | none => (-1, t)

/-- Slot `i` holds the process with number `pid`. -/
def Holds (n : Nat) (t : Nat → Proc) (pid : Int) (i : Nat) : Prop :=
  i < n ∧ (t i).pid = pid ∧ (t i).state ≠ UNUSED

/-- What `kill(pid)` should do: return 0 exactly if there is such a process, and then mark it and
no other; otherwise return -1 and change nothing. -/
structure KillOk (n : Nat) (t : Nat → Proc) (pid : Int) : Prop where
  found : (killTable n t pid).1 = 0 ↔ ∃ i, Holds n t pid i
  marks : ∀ i, killScan n t pid = some i → Holds n t pid i ∧ ((killTable n t pid).2 i).killed = true ∧
    ∀ j ≠ i, (killTable n t pid).2 j = t j
  missed : killScan n t pid = none → killTable n t pid = (-1, t)

variable {n : Nat} {t : Nat → Proc} {pid : Int} {s s' : State} {p q i j : Nat} {k : Code}
  {f : Proc → Proc}

theorem killScan_some (h : killScan n t pid = some i) : i < n ∧ (t i).pid = pid :=
  ⟨List.mem_range.mp (List.mem_of_find?_eq_some h),
    of_decide_eq_true (List.find?_some (p := fun i => decide ((t i).pid = pid)) h)⟩

theorem killScan_none (h : killScan n t pid = none) (hi : i < n) : (t i).pid ≠ pid := fun he =>
  List.find?_eq_none.mp h i (List.mem_range.mpr hi) (decide_eq_true he)

theorem killTable_some (h : killScan n t pid = some i) :
    killTable n t pid = (0, Function.update t i (t i).kill) := by
  rw [killTable, h]

theorem killTable_none (h : killScan n t pid = none) : killTable n t pid = (-1, t) := by
  rw [killTable, h]

/-- `kill` does what it should exactly if its loop does not stop at an unused slot. -/
theorem killOk_iff (n : Nat) (t : Nat → Proc) (pid : Int) :
    KillOk n t pid ↔ ∀ i, killScan n t pid = some i → (t i).state ≠ UNUSED := by
  refine ⟨fun h i hi => (h.marks i hi).1.2.2, fun h => ?_⟩
  have holds : ∀ i, killScan n t pid = some i → Holds n t pid i := fun i hi =>
    ⟨(killScan_some hi).1, (killScan_some hi).2, h i hi⟩
  refine ⟨⟨fun h0 => ?_, fun ⟨i, h1, h2, _⟩ => ?_⟩, fun i hi => ⟨holds i hi, ?_, fun j hj => ?_⟩,
    killTable_none⟩
  · cases hs : killScan n t pid with
    | some i => exact ⟨i, holds i hs⟩
    | none =>
      rw [killTable_none hs] at h0
      cases h0
  · cases hs : killScan n t pid with
    | some i => rw [killTable_some hs]
    | none => exact absurd h2 (killScan_none hs h1)
  · rw [killTable_some hi]
    exact congrArg Proc.killed (Function.update_self i (t i).kill t)
  · rw [killTable_some hi]
    exact Function.update_of_ne hj ..

/-! ### The instructions of `kill` -/

/-- From slot `i` on, the loop of `kill`, executed by itself, does what `killTable` does. -/
theorem exec_kill (hp : p < n) (m : Nat) (him : i + m = n) (hon : s.onCpu p = true)
    (hc : s.code p = kill pid i) (hbefore : ∀ j < i, (s.proc j).pid ≠ pid) :
    ∃ r s', runActs n (List.replicate r (.exec p true)) s = some s' ∧
      s'.proc = (killTable n s.proc pid).2 ∧ s'.code p = release user := by
  induction m generalizing s i with
  | zero =>
    have hnone : killScan n s.proc pid = none := by
      refine List.find?_eq_none.mpr fun j hj => ?_
      have := List.mem_range.mp hj
      simpa using hbefore j (by omega)
    have hi : ¬ i < n := by omega
    refine ⟨1, s.goto p (release user), ?_, ?_, State.code_goto_self ..⟩
    · simp [runActs, step, hp, hon, hc, exec, hi]
    · rw [killTable_none hnone, State.proc_goto]
  | succ m ih =>
    have hi : i < n := by omega
    by_cases he : (s.proc i).pid = pid
    · have hsome : killScan n s.proc pid = some i := by
        refine List.find?_range_eq_some.mpr ⟨decide_eq_true he, List.mem_range.mpr hi, fun j hj => ?_⟩
        simpa using hbefore j hj
      refine ⟨1, ((s.set i Proc.kill).log (.kill i pid)).goto p (release user), ?_, ?_,
        State.code_goto_self ..⟩
      · simp [runActs, step, hp, hon, hc, exec, hi, he]
      · rw [killTable_some hsome]
        rfl
    · have hstep : step n s (.exec p true) = some (s.goto p (kill pid (i + 1))) := by
        simp [step, hp, hon, hc, exec, hi, he]
      obtain ⟨r, s', h1, h2, h3⟩ := ih (s := s.goto p (kill pid (i + 1))) (i := i + 1) (by omega)
        hon (State.code_goto_self ..) fun j hj => by
          rcases Nat.lt_succ_iff_lt_or_eq.mp hj with h | rfl
          · exact hbefore j h
          · exact he
      refine ⟨r + 1, s', ?_, h2, h3⟩
      rw [List.replicate_succ, runActs, hstep]
      exact h1

theorem exec_kill_init : ∃ s r s', runActs 64 (List.replicate r (.exec 0 true)) s = some s' ∧
    (s.proc 0).killed = false ∧ (s'.proc 0).killed = true := by
  obtain ⟨r, s', hrun, hproc, -⟩ := exec_kill (p := 0)
    (s := State.goto { init with onCpu := fun _ => true } 0 (kill 1 0)) (by decide) 64 rfl rfl
    (State.code_goto_self ..) fun _ hj => absurd hj (Nat.not_lt_zero _)
  exact ⟨_, r, s', hrun, rfl, by rw [hproc]; decide +kernel⟩

/-! ### Who is to blame -/

/-- The number that slot `i` was given last. -/
def ownPid (i : Nat) : List Event → Option Int
  | [] => none
  | .alloc j pid :: h => if j = i then some pid else ownPid i h
  | _ :: h => ownPid i h

/-- Since slot `i` was taken last, `kill` was called with its number or its process has
misbehaved. -/
def blamed (i : Nat) : List Event → Bool
  | [] => false
  | .alloc j _ :: h => if j = i then false else blamed i h
  | .kill j pid :: h => decide (j = i ∧ ownPid i h = some pid) || blamed i h
  | .fault j :: h => decide (j = i) || blamed i h
  | _ :: h => blamed i h

/-- Nobody was made to exit without reason. -/
def Answerable : List Event → Prop
  | [] => True
  | .force i :: h => blamed i h = true ∧ Answerable h
  | _ :: h => Answerable h

/-- The instruction does not set the trap: `kill` does not mark an unused slot, and no `fork` fails
after `kill` has marked its new slot. -/
def GuardedCode (n : Nat) (s : State) (ok : Bool) : Code → Prop
  | kill pid i => i < n → (s.proc i).pid = pid → (s.proc i).state ≠ UNUSED
  | kstack i => ok = false → (s.proc i).killed = false
  | copyuvm i => ok = false → (s.proc i).killed = false
  | _ => True

instance (n : Nat) (s : State) (ok : Bool) (c : Code) : Decidable (GuardedCode n s ok c) :=
  match c with
  | kill pid i => inferInstanceAs (Decidable (i < n → (s.proc i).pid = pid → _ ≠ UNUSED))
  | kstack i | copyuvm i => inferInstanceAs (Decidable (ok = false → (s.proc i).killed = false))
  | user | acquire _ | release _ | asleep .. | runnable _ | sched _ | clearChan _ | wakeup1 ..
  | alloc _ | setParent _ | setRunnable _ | exit | reparent _ | zombie | dead | wait .. =>
    isTrue trivial

/-- The step does not set the trap. -/
def Guarded (n : Nat) (s : State) : Act → Prop
  | .exec p ok => GuardedCode n s ok (s.code p)
  | _ => True

instance (n : Nat) (s : State) (a : Act) : Decidable (Guarded n s a) :=
  match a with
  | .exec p ok => inferInstanceAs (Decidable (GuardedCode n s ok (s.code p)))
  | .call .. | .tick _ | .device .. | .lockTable | .dispatch _ | .unlockTable => isTrue trivial

def GuardedRun (n : Nat) : List Act → State → Prop
  | [], _ => True
  | a :: as, s => Guarded n s a ∧ ∀ s' ∈ step n s a, GuardedRun n as s'

instance decidableGuardedRun (n : Nat) : ∀ as s, Decidable (GuardedRun n as s)
  | [], _ => isTrue trivial
  | a :: as, s =>
    have : ∀ s', Decidable (GuardedRun n as s') := decidableGuardedRun n as
    inferInstanceAs (Decidable (_ ∧ ∀ s' ∈ step n s a, GuardedRun n as s'))

/-- The marks are deserved, and unused slots have none. -/
structure Marks (s : State) : Prop where
  clear : ∀ i, (s.proc i).state = UNUSED → (s.proc i).killed = false
  blamed : ∀ i, (s.proc i).killed = true → blamed i s.hist = true
  own : ∀ i, (s.proc i).state ≠ UNUSED → ownPid i s.hist = some (s.proc i).pid
  answerable : Answerable s.hist

namespace Marks

theorem of_eq (h : Marks s) (hproc : s'.proc = s.proc) (hhist : s'.hist = s.hist) : Marks s' := by
  refine ⟨?_, ?_, ?_, ?_⟩ <;> simp only [hproc, hhist]
  · exact h.clear
  · exact h.blamed
  · exact h.own
  · exact h.answerable

theorem goto (h : Marks s) : Marks (s.goto p k) := h.of_eq rfl rfl

theorem set (h : Marks s) (hkilled : (f (s.proc i)).killed = true → (s.proc i).killed = true)
    (hpid : (f (s.proc i)).state ≠ UNUSED →
      (s.proc i).state ≠ UNUSED ∧ (f (s.proc i)).pid = (s.proc i).pid)
    (hclear : (f (s.proc i)).state = UNUSED → (f (s.proc i)).killed = false) :
    Marks (s.set i f) := by
  refine ⟨fun j => ?_, fun j => ?_, fun j => ?_, h.answerable⟩ <;>
    rcases eq_or_ne j i with rfl | e
  · rw [State.proc_set_self]
    exact hclear
  · rw [State.proc_set_of_ne e]
    exact h.clear j
  · rw [State.proc_set_self]
    exact fun hk => h.blamed j (hkilled hk)
  · rw [State.proc_set_of_ne e]
    exact h.blamed j
  · rw [State.proc_set_self]
    intro hu
    rw [(hpid hu).2]
    exact h.own j (hpid hu).1
  · rw [State.proc_set_of_ne e]
    exact h.own j

theorem same (h : Marks s) (hkilled : (f (s.proc i)).killed = (s.proc i).killed)
    (hpid : (f (s.proc i)).pid = (s.proc i).pid)
    (hused : (f (s.proc i)).state = UNUSED ↔ (s.proc i).state = UNUSED) : Marks (s.set i f) :=
  h.set (fun hk => hkilled ▸ hk) (fun hu => ⟨fun hs => hu (hused.mpr hs), hpid⟩)
    fun hu => hkilled.trans (h.clear i (hused.mp hu))

theorem log (h : Marks s) {e : Event} (hown : ∀ i, ownPid i (e :: s.hist) = ownPid i s.hist)
    (hblame : ∀ i, ProcTable.blamed i s.hist = true → ProcTable.blamed i (e :: s.hist) = true)
    (hans : Answerable (e :: s.hist)) : Marks (s.log e) :=
  ⟨h.clear, fun i hk => hblame i (h.blamed i hk), fun i hu => (hown i).trans (h.own i hu), hans⟩

theorem found (h : Marks s) (hst : (s.proc i).state = UNUSED)
    (hhist : s'.hist = .alloc i pid :: s.hist)
    (hself : s'.proc i = { s.proc i with state := EMBRYO, pid := pid })
    (hother : ∀ j ≠ i, s'.proc j = s.proc j) : Marks s' := by
  refine ⟨fun j hj => ?_, fun j hj => ?_, fun j hj => ?_, hhist ▸ h.answerable⟩ <;>
    rcases eq_or_ne j i with rfl | e
  · rw [hself] at hj
    cases hj
  · rw [hother j e] at hj ⊢
    exact h.clear j hj
  · rw [hself] at hj
    exact Bool.noConfusion ((h.clear j hst).symm.trans hj)
  · rw [hother j e] at hj
    rw [hhist, ProcTable.blamed, if_neg e.symm]
    exact h.blamed j hj
  · rw [hself, hhist, ownPid, if_pos rfl]
  · rw [hother j e] at hj ⊢
    rw [hhist, ownPid, if_neg e.symm]
    exact h.own j hj

theorem mark (h : Marks s) {e : Event} (hst : (s.proc i).state ≠ UNUSED)
    (hown : ∀ j, ownPid j (e :: s.hist) = ownPid j s.hist)
    (hself : ProcTable.blamed i (e :: s.hist) = true)
    (hblame : ∀ j, ProcTable.blamed j s.hist = true → ProcTable.blamed j (e :: s.hist) = true)
    (hans : Answerable (e :: s.hist)) (hpid : (f (s.proc i)).pid = (s.proc i).pid)
    (hused : (f (s.proc i)).state ≠ UNUSED) : Marks ((s.set i f).log e) := by
  refine ⟨fun j hj => ?_, fun j hj => ?_, fun j hj => ?_, hans⟩
  · change ((s.set i f).proc j).state = UNUSED at hj
    change ((s.set i f).proc j).killed = false
    rcases eq_or_ne j i with rfl | e
    · rw [State.proc_set_self] at hj
      exact absurd hj hused
    · rw [State.proc_set_of_ne e] at hj ⊢
      exact h.clear j hj
  · change ((s.set i f).proc j).killed = true at hj
    rcases eq_or_ne j i with rfl | e
    · exact hself
    · rw [State.proc_set_of_ne e] at hj
      exact hblame j (h.blamed j hj)
  · change ((s.set i f).proc j).state ≠ UNUSED at hj
    change ownPid j (e :: s.hist) = some ((s.set i f).proc j).pid
    rw [hown]
    rcases eq_or_ne j i with rfl | e
    · rw [State.proc_set_self, hpid]
      exact h.own j hst
    · rw [State.proc_set_of_ne e] at hj ⊢
      exact h.own j hj

theorem wake (h : Marks s) (c : Option Chan) : Marks (s.set i (Proc.wake c)) := by
  refine h.same ?_ (pid_wake _).1 ?_ <;> rw [Proc.wake] <;> split
  · rfl
  · rfl
  · next hs =>
    rw [hs.1]
    exact iff_of_false (by rintro ⟨⟩) (by rintro ⟨⟩)
  · rfl

theorem exec (h : Inv n s) (hm : Marks s) {ok : Bool} (hp : s.onCpu p = true)
    (hg : Guarded n s (.exec p ok)) (he : exec n s p ok (s.code p) = some s') : Marks s' := by
  have used : ∀ {c}, s.code p = c → (∀ k, c ≠ Code.sched k) → (s.proc p).state ≠ UNUSED :=
    fun hc hne => by rw [h.locked.running_of_ne hp (hc ▸ hne)]; rintro ⟨⟩
  cases exec_cases he with
  | acquire hc _ | release hc _ | sched hc _ | woken hc _ | taken hc | kstack hc | copyuvm hc
  | exit hc | skip hc _ | passed hc _ | pass hc _ | waitSleep hc _ | miss hc | give hc =>
    exact hm.of_eq rfl rfl
  | asleep hc | runnable hc =>
    exact (hm.same rfl rfl (iff_of_false (by rintro ⟨⟩) (used hc (by rintro _ ⟨⟩)))).goto
  | clearChan hc => exact (hm.same rfl rfl Iff.rfl).goto
  | wake hc => exact (hm.wake _).goto
  | @found i hc hi hst =>
    exact hm.found hst rfl
      (State.proc_set_self (s := { s with nextpid := incr s.nextpid })
        (f := ({ · with state := EMBRYO, pid := s.nextpid })))
      fun j hj => State.proc_set_of_ne (s := { s with nextpid := incr s.nextpid })
        (f := ({ · with state := EMBRYO, pid := s.nextpid })) hj
  | @fail i hok hc =>
    have hclear : (s.proc i).killed = false := by
      rcases hc with hc | hc
      · rw [Guarded, hc] at hg
        exact hg hok
      · rw [Guarded, hc] at hg
        exact hg hok
    exact (hm.set (f := ({ · with state := UNUSED })) id (fun hu => absurd rfl hu)
      fun _ => hclear).goto
  | adopt hc | reparent hc _ => exact (hm.same rfl rfl Iff.rfl).goto
  | @born i hc =>
    have hst := (h.forks.embryo p i true (by rw [hc]; rfl)).2
    exact ((hm.same (f := ({ · with state := RUNNABLE })) rfl rfl
      (iff_of_false (by rintro ⟨⟩) (by rw [hst]; rintro ⟨⟩))).log (e := .fork p i (s.proc i).pid) (fun _ => rfl)
      (fun _ => id) hm.answerable).goto
  | zombie hc =>
    exact ((hm.same (f := ({ · with state := ZOMBIE })) rfl rfl
      (iff_of_false (by rintro ⟨⟩) (used hc (by rintro _ ⟨⟩)))).log (e := .exit p) (fun _ => rfl) (fun _ => id)
      hm.answerable).goto
  | @reap i b hc hpar hst =>
    exact ((hm.set (i := i) (f := Proc.free) (by rintro ⟨⟩) (fun hu => absurd rfl hu) fun _ => rfl).log
      (e := .reap p i (s.proc i).pid) (fun _ => rfl) (fun _ => id) hm.answerable).goto
  | @mark i pid hc hi hpid =>
    rw [Guarded, hc] at hg
    have hst := hg hi hpid
    refine (hm.mark (f := Proc.kill) (e := .kill i pid) hst (fun _ => rfl) ?_ (fun j hj => ?_)
      hm.answerable rfl ?_).goto
    · rw [ProcTable.blamed, hm.own i hst, hpid, decide_eq_true ⟨rfl, rfl⟩, Bool.true_or]
    · rw [ProcTable.blamed, hj, Bool.or_true]
    · rw [Proc.kill]
      dsimp only
      split
      · rintro ⟨⟩
      · exact hst

theorem call (h : Inv n s) (hm : Marks s) {c : Call} (hp : s.onCpu p = true)
    (hc : s.code p = user) (he : call s p c = some s') : Marks s' := by
  cases c with
  | fork | wait | kill _ | sleep _ | wakeup _ | yield => cases he; exact hm.goto
  | exit =>
    simp only [ProcTable.call] at he
    split at he
    · cases he
    · cases he; exact hm.goto
  | trap =>
    simp only [ProcTable.call] at he
    split at he
    · next hk =>
      split at he
      · cases he
      · cases he
        exact (hm.log (e := .force p) (fun _ => rfl) (fun _ => id)
          ⟨hm.blamed p hk, hm.answerable⟩).goto
    · cases he; exact hm
  | fault =>
    cases he
    have hr := h.locked.running_of_ne hp (by rw [hc]; rintro _ ⟨⟩)
    refine hm.mark (by rw [hr]; rintro ⟨⟩) (fun _ => rfl) ?_ (fun j hj => ?_) hm.answerable rfl ?_
    · rw [ProcTable.blamed, decide_eq_true rfl, Bool.true_or]
    · rw [ProcTable.blamed, hj, Bool.or_true]
    · change (s.proc p).state ≠ UNUSED
      rw [hr]
      rintro ⟨⟩

theorem step (h : Inv n s) (hm : Marks s) {a : Act} (hg : Guarded n s a)
    (he : step n s a = some s') : Marks s' := by
  cases a with
  | call p c =>
    simp only [ProcTable.step] at he
    split at he
    · next hp => exact hm.call h hp.2.1 hp.2.2 he
    · cases he
  | exec p ok =>
    simp only [ProcTable.step] at he
    split at he
    · next hp => exact hm.exec h hp.2 hg he
    · cases he
  | tick p | device p c =>
    simp only [ProcTable.step] at he
    split at he
    · cases he; exact hm.goto
    · cases he
  | lockTable | unlockTable =>
    simp only [ProcTable.step] at he
    split at he
    · cases he; exact hm.of_eq rfl rfl
    · cases he
  | dispatch p =>
    simp only [ProcTable.step] at he
    split at he
    · next hp =>
      cases he
      exact (hm.same (i := p) (f := ({ · with state := RUNNING })) rfl rfl
        (iff_of_false (by rintro ⟨⟩) (by rw [hp.2.2]; rintro ⟨⟩))).of_eq rfl rfl
    · cases he

end Marks

theorem marks_init : Marks init := by
  refine ⟨fun i _ => ?_, fun i hi => ?_, fun i hi => ?_, trivial⟩
  · simp only [init]
    split <;> rfl
  · simp only [init] at hi
    split at hi <;> cases hi
  · simp only [init] at hi ⊢
    split at hi
    · next e =>
      subst e
      rfl
    · exact absurd rfl hi

theorem marks_run {acts : List Act} (h : Inv n s) (hm : Marks s) (hg : GuardedRun n acts s)
    (hrun : runActs n acts s = some s') : Marks s' := by
  induction acts generalizing s with
  | nil =>
    cases hrun
    exact hm
  | cons a acts ih =>
    obtain ⟨s₁, h1, h2⟩ := Option.bind_eq_some_iff.mp hrun
    exact ih (h.step h1) (hm.step h hg.1 h1) (hg.2 s₁ h1) h2

/-- **`kill` marks processes only, where its loop meets no unused slot.** On every process table
`kill(pid)` does what it should exactly if its loop does not stop at an unused slot. And in every
run in which no `kill` marks an unused slot and no `fork` gives back a marked one: unused slots
are never marked; a process that has just got its slot is not marked; it is marked only if,
since then, `kill` was called with its own number or it misbehaved; and only marked
processes are made to exit. -/
theorem kill_sound (n : Nat) :
    (∀ t pid, KillOk n t pid ↔ ∀ i, killScan n t pid = some i → (t i).state ≠ UNUSED) ∧
    ∀ acts s, runActs n acts init = some s → GuardedRun n acts init →
      (∀ i, (s.proc i).state = UNUSED → (s.proc i).killed = false) ∧
      (∀ i pid h, s.hist = .alloc i pid :: h → (s.proc i).killed = false) ∧
      (∀ i, (s.proc i).killed = true → blamed i s.hist = true) ∧ Answerable s.hist := by
  refine ⟨killOk_iff n, fun acts s hrun hg => ?_⟩
  have hm := marks_run inv_init marks_init hg hrun
  refine ⟨hm.clear, fun i pid h hh => ?_, hm.blamed, hm.answerable⟩
  by_contra hk
  have := hm.blamed i ((Bool.not_eq_false _).mp hk)
  rw [hh, blamed, if_pos rfl] at this
  cases this

/-- `init` forks, and calls `kill(2)`; the child runs, and traps. -/
def killChild : List Act :=
  [.lockTable, .dispatch 0, .exec 0 true, .call 0 .fork] ++ List.replicate 8 (.exec 0 true) ++
    [.call 0 (.kill 2)] ++ List.replicate 4 (.exec 0 true) ++
    [.lockTable, .dispatch 1, .exec 1 true, .call 1 .trap]

theorem kill_sound_killChild : ∃ s, runActs 64 killChild init = some s ∧ .force 1 ∈ s.hist ∧
    Answerable s.hist := by
  have h : (runActs 64 killChild init).map (·.hist) =
      some [.force 1, .kill 1 2, .fork 0 1 2, .alloc 1 2, .alloc 0 1] := by decide +kernel
  have hg : GuardedRun 64 killChild init := by decide +kernel
  obtain ⟨s, hs, he⟩ := Option.map_eq_some_iff.mp h
  exact ⟨s, hs, he ▸ List.mem_cons_self, ((kill_sound 64).2 killChild s hs hg).2.2.2⟩

/-- `init` calls `kill(0)` and forks; the child runs, and traps. -/
def killZero : List Act :=
  [.lockTable, .dispatch 0, .exec 0 true, .call 0 (.kill 0)] ++ List.replicate 4 (.exec 0 true) ++
    [.call 0 .fork] ++ List.replicate 8 (.exec 0 true) ++
    [.lockTable, .dispatch 1, .exec 1 true, .call 1 .trap]

/-- **`kill(0)` kills a process that does not exist yet.** In the table as it is after boot no
process has number 0, but `kill(0)` returns 0 and marks the first unused slot. The next
child, number 2, is born marked, and made to exit although nobody has called `kill(2)`. -/
theorem kill_hits_unused :
    (killTable 64 init.proc 0).1 = 0 ∧ (∀ i, ¬ Holds 64 init.proc 0 i) ∧
    (runActs 64 killZero init).map (·.hist) =
      some [.force 1, .fork 0 1 2, .alloc 1 2, .kill 1 0, .alloc 0 1] ∧
    blamed 1 [.fork 0 1 2, .alloc 1 2, .kill 1 0, .alloc 0 1] = false := by
  refine ⟨by decide +kernel, fun i ⟨_, h2, h3⟩ => ?_, by decide +kernel, by decide⟩
  simp only [init] at h2 h3
  split at h2
  · cases h2
  · next hne => exact h3 (by rw [if_neg hne])

end ProcTable

end Xv6
