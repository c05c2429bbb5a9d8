import Xv6.Uthread

/-!
# Which user-level thread runs next

The two policies of `next_thread`. Taken in turn, the threads are activated fairly: seen from the
place of one thread, the running place goes once round the table until that thread runs again
(`round_robin`). By priority, `next_thread` looks for a thread whose priority is exactly `highest_p`.
`uthread_create` and `uthread_exit` keep that field right, but `uthread_setpr` does not touch it: as long
as it leaves the best priority as it is all is well (`priority_schedule`), and otherwise the next
`uthread_yield` may never return (`setpr_then_yield_hangs`).
-/

open Function Finset

namespace Xv6

namespace Uthread

open Cyclic (First)

/-- The priority of the thread in place `i`. -/
def priority (s : State) (i : Nat) : Int := (s.thread (s.threads i)).priority

/-- Thread number `k` is in place `i`. -/
def At (s : State) (i k : Nat) : Prop := i ∈ used s ∧ s.serial (s.threads i) = k

/-- `malloc` does not fail in the call. -/
def Granted : Op → Prop
  | .create _ _ m sp => m ≠ 0 ∧ sp ≠ 0
  | _ => True

variable {p : Sched} {s s' s1 : State} {op : Op} {ops : List Op} {i j k a b r m sp start : Nat}

/-! ### What a call does -/

section Switch

variable (s : State) (next : Nat)

@[simp] theorem switch_threads : (s.switch next).threads = s.threads := by
  unfold State.switch
  split <;> rfl

@[simp] theorem switch_serial : (s.switch next).serial = s.serial := by
  unfold State.switch
  split <;> rfl

@[simp] theorem switch_created : (s.switch next).created = s.created := by
  unfold State.switch
  split <;> rfl

@[simp] theorem switch_exited : (s.switch next).exited = s.exited := by
  unfold State.switch
  split <;> rfl

@[simp] theorem switch_highest_p : (s.switch next).highest_p = s.highest_p := by
  unfold State.switch
  split <;> rfl

@[simp] theorem switch_running_tid : (s.switch next).running_tid = (s.thread next).tid := by
  unfold State.switch
  split <;> rfl

theorem enter_priority : ((s.enter next).thread a).priority = (s.thread a).priority := by
  by_cases ha : a = next
  · subst ha
    simp [State.enter, State.set]
  · simp [State.enter, State.set, update_of_ne ha]

@[simp] theorem switch_priority : ((s.switch next).thread a).priority = (s.thread a).priority := by
  unfold State.switch
  split
  · rw [enter_priority]
    rfl
  · rfl

end Switch

theorem used_congr (h : s'.threads = s.threads) : used s' = used s := by
  rw [used, used, h]

/-- The state in which `uthread_yield`, called by the thread in place `i`, calls `next_thread`. -/
def saved (s : State) (i esp ebp : Nat) : State :=
  s.set (s.threads i) ({ · with ss_esp := esp, ss_ebp := ebp })

theorem saved_thread {esp ebp : Nat} : ((saved s i esp ebp).thread a).priority =
    (s.thread a).priority ∧ ((saved s i esp ebp).thread a).tid = (s.thread a).tid := by
  by_cases ha : a = s.threads i
  · subst ha
    simp [saved, State.set]
  · simp [saved, State.set, update_of_ne ha]

/-- The state in which `uthread_exit`, called by the thread in place `i`, calls `next_thread`. -/
def left (s : State) (i : Nat) : State :=
  { removed s i with highest_p := getHighestP (removed s i) }

theorem used_left : used (left s i) = (used s).erase i := used_erase rfl

theorem uthreadYieldBy_eq (h : Rows s) (hi : i ∈ used s) (hrun : s.running_tid = i)
    {esp ebp : Nat} :
    uthreadYieldBy p s esp ebp =
      (nextThreadBy p (saved s i esp ebp) MAX_UTHREADS ((i + 1) % MAX_UTHREADS)).map
        (saved s i esp ebp).switch := by
  have hself := self_eq h hi hrun
  have htid : ((saved s i esp ebp).thread (s.threads i)).tid.toNat = i := by
    rw [saved_thread.2, (h.block i hi).2, Int.toNat_natCast]
  rw [uthreadYieldBy, hself]
  change (nextThreadBy p (saved s i esp ebp) MAX_UTHREADS
    ((((saved s i esp ebp).thread (s.threads i)).tid.toNat + 1) % MAX_UTHREADS)).map _ = _
  rw [htid]
  rfl

/-- The place where the call's search for the next thread begins, if it searches. -/
def searchFrom (s : State) : Op → Option Nat
  | .startAll =>
    if s.first_uthread ∨ s.cur_threads = 0 ∨ s.running_tid ≠ -1 then none else some 0
  | .yield _ _ => if s.started then some ((s.running_tid.toNat + 1) % MAX_UTHREADS) else none
  | .exit =>
    if s.started ∧ s.cur_threads ≠ 1 then some ((s.running_tid.toNat + 1) % MAX_UTHREADS) else none
  | _ => none

/-- The state in which the call searches. -/
def before (s : State) : Op → State
  | .yield esp ebp => saved s s.running_tid.toNat esp ebp
  | .exit => left s s.running_tid.toNat
  | _ => s

/-- The rest of the call: the thread at `next` runs. -/
def goOn : Op → State → Nat → State
  | .startAll, s, next => { (s.load next).enter next with started := true }
  | _, s, next => s.switch next

theorem searchFrom_lt (h : searchFrom s op = some start) : start < MAX_UTHREADS := by
  cases op with
  | create f q m sp => cases h
  | startAll =>
    simp only [searchFrom, Option.ite_none_left_eq_some, Option.some.injEq] at h
    rw [← h.2]
    decide
  | yield esp ebp =>
    simp only [searchFrom, Option.ite_none_right_eq_some, Option.some.injEq] at h
    rw [← h.2]
    exact mod_lt_max _
  | setpr q => cases h
  | exit =>
    simp only [searchFrom, Option.ite_none_right_eq_some, Option.some.injEq] at h
    rw [← h.2]
    exact mod_lt_max _

/-- **A call that searches** goes on with the thread that `next_thread` returns. -/
theorem stepBy_search (h : Inv s) (hex : s.exited = false) (hs : searchFrom s op = some start) :
    stepBy p s op =
      (nextThreadBy p (before s op) MAX_UTHREADS start).map (goOn op (before s op)) := by
  unfold stepBy
  rw [if_neg (by rw [hex]; exact Bool.false_ne_true)]
  cases op with
  | create f q m sp => cases hs
  | startAll =>
    simp only [searchFrom, Option.ite_none_left_eq_some, Option.some.injEq] at hs
    obtain ⟨hcond, rfl⟩ := hs
    simp only [uthreadStartAllBy, if_neg hcond, Option.map_map]
    rfl
  | yield esp ebp =>
    simp only [searchFrom, Option.ite_none_right_eq_some, Option.some.injEq] at hs
    obtain ⟨hst, rfl⟩ := hs
    obtain ⟨i, hi, hrun⟩ := h.running hst hex
    simp only [if_pos hst, uthreadYieldBy_eq h.toRows hi hrun, before, hrun, Int.toNat_natCast]
    rfl
  | setpr q => cases hs
  | exit =>
    simp only [searchFrom, Option.ite_none_right_eq_some, Option.some.injEq] at hs
    obtain ⟨⟨hst, hmore⟩, rfl⟩ := hs
    obtain ⟨i, hi, hrun⟩ := h.running hst hex
    have hne : (left s i).cur_threads ≠ 0 := fun h0 => hmore (by
      change s.cur_threads - 1 = 0 at h0
      omega)
    simp only [if_pos hst, uthreadExitBy_eq h.toRows hi hrun, before, hrun, Int.toNat_natCast]
    exact if_neg hne

section GoOn

variable (op : Op) (s : State) (next : Nat)

@[simp] theorem goOn_threads : (goOn op s next).threads = s.threads := by
  cases op <;> first | exact switch_threads s next | rfl

@[simp] theorem goOn_serial : (goOn op s next).serial = s.serial := by
  cases op <;> first | exact switch_serial s next | rfl

@[simp] theorem goOn_created : (goOn op s next).created = s.created := by
  cases op <;> first | exact switch_created s next | rfl

@[simp] theorem goOn_exited : (goOn op s next).exited = s.exited := by
  cases op <;> first | exact switch_exited s next | rfl

@[simp] theorem goOn_highest_p : (goOn op s next).highest_p = s.highest_p := by
  cases op <;> first | exact switch_highest_p s next | rfl

@[simp] theorem goOn_running_tid : (goOn op s next).running_tid = (s.thread next).tid := by
  cases op <;> first | exact switch_running_tid s next | rfl

@[simp] theorem goOn_priority : ((goOn op s next).thread a).priority = (s.thread a).priority := by
  cases op <;> first | exact switch_priority s next | exact enter_priority (s.load next) next

end GoOn

theorem before_serial : (before s op).serial = s.serial := by cases op <;> rfl

theorem before_created : (before s op).created = s.created := by cases op <;> rfl

theorem before_exited : (before s op).exited = s.exited := by cases op <;> rfl

theorem before_priority : ((before s op).thread a).priority = (s.thread a).priority := by
  cases op <;> first | exact saved_thread.1 | rfl

theorem before_tid (h : Rows s) (hi : i ∈ used s) :
    ((before s op).thread (s.threads i)).tid = i := by
  rw [← (h.block i hi).2]
  cases op <;> first | exact saved_thread.2 | rfl

theorem before_threads (hop : op ≠ .exit) : (before s op).threads = s.threads := by
  cases op <;> first | rfl | exact absurd rfl hop

theorem used_before_exit (hrun : s.running_tid = r) :
    used (before s .exit) = (used s).erase r := by
  change used (left s s.running_tid.toNat) = _
  rw [used_left, hrun, Int.toNat_natCast]

theorem used_before_subset : used (before s op) ⊆ used s := by
  by_cases hop : op = .exit
  · subst hop
    exact used_left ▸ erase_subset _ _
  · exact (used_congr (before_threads hop)).le

theorem before_threads_of_mem (hi : i ∈ used (before s op)) :
    (before s op).threads i = s.threads i := by
  by_cases hop : op = .exit
  · subst hop
    have hne : i ≠ s.running_tid.toNat := (mem_erase.mp (used_left ▸ hi)).1
    exact update_of_ne hne _ _
  · rw [before_threads hop]

/-- The result of a search: the first place with a thread of the kind that the policy wants. -/
theorem search_spec (h : Inv s) (hex : s.exited = false) (hs : searchFrom s op = some start)
    (he : stepBy p s op = some s') :
    used s' = used (before s op) ∧ s'.exited = false ∧ s'.highest_p = (before s op).highest_p ∧
      (∀ i ∈ used s', priority s' i = priority s i) ∧
      ∃ j ∈ used s', s'.running_tid = j ∧ First MAX_UTHREADS (Eligible p s') start j := by
  rw [stepBy_search h hex hs] at he
  obtain ⟨next, hnext, rfl⟩ := Option.map_eq_some_iff.mp he
  obtain ⟨j, hj, rfl, hfirst⟩ := nextThreadBy_some (searchFrom_lt hs) hnext
  have hused : used (goOn op (before s op) ((before s op).threads j)) = used (before s op) :=
    used_congr (goOn_threads ..)
  refine ⟨hused, by rw [goOn_exited, before_exited, hex], goOn_highest_p .., fun i hi => ?_,
    j, hused ▸ hj, ?_, ?_⟩
  · rw [hused] at hi
    rw [priority, priority, goOn_threads, goOn_priority, before_priority, before_threads_of_mem hi]
  · rw [goOn_running_tid, before_threads_of_mem hj, before_tid h.toRows (used_before_subset hj)]
  · refine hfirst.congr fun i _ => ?_
    simp only [Eligible, goOn_threads, goOn_priority, goOn_highest_p]

/-- `uthread_create` puts a thread of priority `q`, at the address `m`, into the place `i`. -/
structure Put (s : State) (i m : Nat) (q : Int) (s' : State) : Prop where
  lt : i < MAX_UTHREADS
  free : s.threads i = 0
  threads : s'.threads = update s.threads i m
  serial : s'.serial = update s.serial m s.created
  created : s'.created = s.created + 1
  running_tid : s'.running_tid = s.running_tid
  started : s'.started = s.started
  new : (s'.thread m).priority = q
  old : ∀ a ≠ m, s'.thread a = s.thread a
  highest_p : s'.highest_p = if s.highest_p > q then q else s.highest_p

theorem create_cases (h : Inv s) (hm : m ≠ 0) (hsp : sp ≠ 0) (f : Nat) (q : Int) :
    (uthreadCreate s f q m sp).2 = s ∨ ∃ i, Put s i m q (uthreadCreate s f q m sp).2 := by
  rw [uthreadCreate, firstInit_of_not h.first]
  by_cases hfull : s.cur_threads = MAX_UTHREADS
  · exact .inl (by rw [if_pos hfull])
  obtain ⟨hlt, hfree⟩ := freeSlot_spec h.toRows hfull
  refine .inr ⟨freeSlot s, ?_⟩
  rw [if_neg hfull, if_neg hm, if_neg hsp]
  simp only [State.setSlot, if_pos hlt, State.malloc, State.set, update_idem]
  exact {
    lt := hlt
    free := hfree
    threads := rfl
    serial := rfl
    created := rfl
    running_tid := rfl
    started := rfl
    new := congrArg UThread.priority (update_self m _ s.thread)
    old := fun a ha => update_of_ne ha _ _
    highest_p := rfl }

theorem fresh_ne (h : Rows s) (hfresh : Fresh s m sp) (hm : m ≠ 0) (hj : j ∈ used s) :
    s.threads j ≠ m := by
  intro he
  have hb := (h.block j hj).1
  rw [he, hfresh.1 hm] at hb
  cases hb

theorem step_create_inv {f : Nat} {q : Int} (he : stepBy p s (.create f q m sp) = some s') :
    Fresh s m sp ∧ s' = (uthreadCreate s f q m sp).2 := by
  unfold stepBy at he
  split at he
  · cases he
  · dsimp only at he
    split at he
    · next hf =>
      cases he
      exact ⟨hf, rfl⟩
    · cases he

/-- A call that does not search and is not `uthread_create` leaves the running thread, and the table
unless it is the last `uthread_exit`. -/
theorem step_rest (h : Inv s) (hs : searchFrom s op = none)
    (hop : ∀ f q m sp, op ≠ .create f q m sp) (he : stepBy p s op = some s') :
    (op = .startAll ∧ s' = s) ∨ (∃ q, op = .setpr q ∧ s.started = true ∧ s' = (uthreadSetpr s q).2) ∨
      (op = .exit ∧ s.started = true ∧ s.cur_threads = 1 ∧
        s' = { left s s.running_tid.toNat with exited := true }) := by
  unfold stepBy at he
  split at he
  · cases he
  next hex =>
  rw [Bool.not_eq_true] at hex
  cases op with
  | create f q m sp => exact absurd rfl (hop f q m sp)
  | startAll =>
    simp only [searchFrom, ite_eq_left_iff, reduceCtorEq, imp_false, not_not] at hs
    simp only [uthreadStartAllBy, if_pos hs, Option.map_some, Option.some.injEq] at he
    exact .inl ⟨rfl, he.symm⟩
  | yield esp ebp =>
    simp only [searchFrom, ite_eq_right_iff, reduceCtorEq, imp_false] at hs
    simp only [if_neg hs, reduceCtorEq] at he
  | setpr q =>
    dsimp only at he
    split at he
    · next hst =>
      cases he
      exact .inr (.inl ⟨q, rfl, hst, rfl⟩)
    · cases he
  | exit =>
    dsimp only at he
    split at he
    · next hst =>
      simp only [searchFrom, hst, true_and, ite_eq_right_iff, reduceCtorEq, imp_false,
        not_not] at hs
      obtain ⟨i, hi, hrun⟩ := h.running hst hex
      have h0 : (left s i).cur_threads = 0 := by
        change s.cur_threads - 1 = 0
        omega
      rw [uthreadExitBy_eq h.toRows hi hrun] at he
      change (if (left s i).cur_threads = 0 then some { left s i with exited := true } else _) = _
        at he
      rw [if_pos h0] at he
      cases he
      rw [hrun, Int.toNat_natCast]
      exact .inr (.inr ⟨rfl, hst, hs, rfl⟩)
    · cases he

theorem At.congr (h1 : s'.threads = s.threads) (h2 : s'.serial = s.serial) :
    At s' i k ↔ At s i k := by
  rw [At, At, used_congr h1, h1, h2]

/-- `uthread_exit` takes away the thread that calls it. -/
theorem at_left : At (left s r) i k ↔ At s i k ∧ i ≠ r := by
  rw [At, At, used_left, mem_erase]
  refine ⟨fun ⟨⟨hne, hi⟩, hk⟩ => ⟨⟨hi, ?_⟩, hne⟩, fun ⟨⟨hi, hk⟩, hne⟩ => ⟨⟨hne, hi⟩, ?_⟩⟩
  · rw [← hk]
    exact congrArg s.serial (update_of_ne hne _ _).symm
  · rw [← hk]
    exact congrArg s.serial (update_of_ne hne _ _)

theorem at_put (h : Inv s) (hm : m ≠ 0) (hfresh : Fresh s m sp) {q : Int} (hput : Put s i m q s') :
    At s' j k ↔ At s j k ∨ j = i ∧ k = s.created := by
  have hnot : i ∉ used s := fun hmem => (mem_used.mp hmem).2 hput.free
  rw [At, At, used_insert hput.lt hm hput.threads, mem_insert, hput.threads, hput.serial]
  by_cases hji : j = i
  · subst hji
    simp [hnot, eq_comm]
  · rw [update_of_ne hji]
    simp only [hji, false_or, false_and, or_false]
    refine and_congr_right fun hj => ?_
    rw [update_of_ne (fresh_ne h.toRows hfresh hm hj)]

theorem exited_of_step (he : stepBy p s op = some s') : s.exited = false := by
  by_contra hex
  unfold stepBy at he
  rw [if_pos (Bool.not_eq_false _ ▸ hex)] at he
  cases he

/-- What a call does to the threads of the table: only `uthread_create` makes threads, and only
`uthread_exit` takes one away. -/
structure Moved (op : Op) (s s' : State) : Prop where
  stays : ∀ i k, At s i k → (op = .exit → s.running_tid.toNat ≠ i) → At s' i k
  was : ∀ i k, At s' i k → (At s i k ∧ (op = .exit → s.running_tid.toNat ≠ i)) ∨ k = s.created
  created : s.created ≤ s'.created

/-- A call that does to the table no more than it has done when it searches. -/
theorem Moved.of_before (h1 : s'.threads = (before s op).threads) (h2 : s'.serial = s.serial)
    (h3 : s'.created = s.created) : Moved op s s' := by
  have hat : ∀ i k, At s' i k ↔ At s i k ∧ (op = .exit → s.running_tid.toNat ≠ i) := by
    intro i k
    rw [At.congr h1 (h2.trans before_serial.symm)]
    by_cases hop : op = .exit
    · subst hop
      rw [before, at_left]
      simp [eq_comm]
    · rw [At.congr (before_threads hop) before_serial]
      simp [hop]
  exact ⟨fun i k h hne => (hat i k).mpr ⟨h, hne⟩, fun i k h => .inl ((hat i k).mp h), h3.ge⟩

theorem moved_of_step (h : Inv s) (hg : Granted op) (he : stepBy p s op = some s') :
    Moved op s s' := by
  cases hs : searchFrom s op with
  | some start =>
    rw [stepBy_search h (exited_of_step he) hs] at he
    obtain ⟨next, -, rfl⟩ := Option.map_eq_some_iff.mp he
    exact .of_before (goOn_threads ..) ((goOn_serial ..).trans before_serial)
      ((goOn_created ..).trans before_created)
  | none =>
    by_cases hop : ∃ f q m sp, op = .create f q m sp
    · obtain ⟨f, q, m, sp, rfl⟩ := hop
      obtain ⟨hfresh, rfl⟩ := step_create_inv he
      rcases create_cases h hg.1 hg.2 f q with heq | ⟨i, hput⟩
      · rw [heq]
        exact .of_before rfl rfl rfl
      · refine ⟨fun j k hat _ => (at_put h hg.1 hfresh hput).mpr (.inl hat), fun j k hat => ?_,
          hput.created ▸ Nat.le_succ _⟩
        exact ((at_put h hg.1 hfresh hput).mp hat).imp (⟨·, nofun⟩) (·.2)
    · push Not at hop
      rcases step_rest h hs hop he with ⟨rfl, rfl⟩ | ⟨q, rfl, -, rfl⟩ | ⟨rfl, -, -, rfl⟩
      · exact .of_before rfl rfl rfl
      · exact .of_before rfl rfl rfl
      · exact .of_before rfl rfl rfl

theorem running_of_step (h : Inv s) (hg : Granted op) (hs : searchFrom s op = none)
    (he : stepBy p s op = some s') : s'.running_tid = s.running_tid ∧ s'.started = s.started := by
  by_cases hop : ∃ f q m sp, op = .create f q m sp
  · obtain ⟨f, q, m, sp, rfl⟩ := hop
    obtain ⟨-, rfl⟩ := step_create_inv he
    rcases create_cases h hg.1 hg.2 f q with heq | ⟨i, hput⟩
    · rw [heq]
      exact ⟨rfl, rfl⟩
    · exact ⟨hput.running_tid, hput.started⟩
  · push Not at hop
    rcases step_rest h hs hop he with ⟨rfl, rfl⟩ | ⟨q, rfl, -, rfl⟩ | ⟨rfl, -, -, rfl⟩
    · exact ⟨rfl, rfl⟩
    · exact ⟨rfl, rfl⟩
    · exact ⟨rfl, rfl⟩

/-! ### Runs -/

theorem OpOk.of_granted (hg : Granted op) (hf : s.first_uthread = false) : OpOk s op := by
  cases op with
  | create f q m sp => exact fun _ _ => hg.2
  | startAll => exact hf
  | yield esp ebp => trivial
  | setpr q => trivial
  | exit => trivial

/-- A call keeps the invariant. Before the first `uthread_create`, `uthread_start_all` may be called
in vain. -/
theorem inv_step (h : s = init ∨ Inv s) (hg : Granted op) (he : stepBy p s op = some s') :
    s' = init ∨ Inv s' := by
  rcases h with rfl | h
  · cases op with
    | create f q m sp =>
      obtain ⟨hfresh, rfl⟩ := step_create_inv he
      exact .inr (inv_firstInit.create hfresh fun _ _ => hg.2)
    | startAll =>
      cases he
      exact .inl rfl
    | yield esp ebp => cases he
    | setpr q => cases he
    | exit => cases he
  · exact .inr (h.stepBy (.of_granted hg h.first) he)

theorem inv_of_run (h : s = init ∨ Inv s) (hg : ∀ op ∈ ops, Granted op)
    (hrun : runBy p ops s = some s') : s' = init ∨ Inv s' := by
  induction ops generalizing s with
  | nil =>
    cases hrun
    exact h
  | cons op ops ih =>
    obtain ⟨s1, h1, h2⟩ := Option.bind_eq_some_iff.mp hrun
    exact ih (inv_step h (hg op List.mem_cons_self) h1)
      (fun o ho => hg o (List.mem_cons_of_mem op ho)) h2

/-! ### Threads in turn -/

/-- The number of the running thread. -/
def current (s : State) : Nat := s.serial (s.threads s.running_tid.toNat)

/-- The threads that the calls activate, in order. -/
def activations : List Op → State → List Nat
  | [], _ => []
  | op :: ops, s =>
    match step s op with
    | none => []
    | some s' =>
      if (searchFrom s op).isSome then current s' :: activations ops s' else activations ops s'

def Live (k : Nat) (s : State) : Prop := ∃ i, At s i k

/-- The thread is in the table before and after each of the calls. -/
def LiveThrough (k : Nat) : List Op → State → Prop
  | [], s => Live k s
  | op :: ops, s => Live k s ∧ ∀ s', step s op = some s' → LiveThrough k ops s'

theorem LiveThrough.live (h : LiveThrough k ops s) : Live k s := by
  cases ops with
  | nil => exact h
  | cons op ops => exact h.1

theorem At.lt (h : At s i k) : i < MAX_UTHREADS := (mem_used.mp h.1).1

theorem At.unique (hi : Inv s) (h1 : At s i k) (h2 : At s j k) : i = j :=
  hi.serial i h1.1 j h2.1 (h1.2.trans h2.2.symm)

theorem At.created (hi : Inv s) (h : At s i k) : k < s.created := h.2 ▸ hi.born.1 i h.1

theorem current_eq (hrun : s.running_tid = r) (h : At s r k) : current s = k := by
  rw [current, hrun, Int.toNat_natCast, h.2]

theorem at_current (hi : r ∈ used s) (hrun : s.running_tid = r) : At s r (current s) :=
  ⟨hi, by rw [current, hrun, Int.toNat_natCast]⟩

theorem first_of_search (h : Inv s) (hrun : s.running_tid = r) (hs : searchFrom s op = some start)
    (he : step s op = some s') :
    ∃ j ∈ used s', s'.running_tid = j ∧
      First MAX_UTHREADS (· ∈ used s') ((r + 1) % MAX_UTHREADS) j := by
  have he := stepBy_sched ▸ he
  obtain ⟨-, -, -, -, j, hj, hrun', hfirst⟩ := search_spec h (exited_of_step he) hs he
  have hstart : start = (r + 1) % MAX_UTHREADS := by
    cases op with
    | create f q m sp => cases hs
    | startAll =>
      simp only [searchFrom, Option.ite_none_left_eq_some] at hs
      exact absurd hs.1 (by simp [hrun])
    | yield esp ebp =>
      simp only [searchFrom, Option.ite_none_right_eq_some, Option.some.injEq, hrun,
        Int.toNat_natCast] at hs
      exact hs.2.symm
    | setpr q => cases hs
    | exit =>
      simp only [searchFrom, Option.ite_none_right_eq_some, Option.some.injEq, hrun,
        Int.toNat_natCast] at hs
      exact hs.2.symm
  refine ⟨j, hj, hrun', hstart ▸ hfirst.congr fun i hi => ?_⟩
  rw [mem_used]
  exact ⟨fun h => ⟨hi, h.1⟩, fun h => ⟨h.2, .inl rfl⟩⟩

theorem not_mem_activations (h : Inv s) (hg : ∀ op ∈ ops, Granted op) (hk : k < s.created)
    (hdead : ¬ Live k s) : k ∉ activations ops s := by
  induction ops generalizing s with
  | nil => exact List.not_mem_nil
  | cons op ops ih =>
    rw [activations]
    cases he : step s op with
    | none => exact List.not_mem_nil
    | some s' =>
      have he' := stepBy_sched ▸ he
      have hop := hg op List.mem_cons_self
      have hinv : Inv s' := h.stepBy (.of_granted hop h.first) he'
      have hmoved := moved_of_step h hop he'
      have hdead' : ¬ Live k s' := fun ⟨i, hat⟩ => by
        rcases hmoved.was i k hat with ⟨hat, -⟩ | rfl
        · exact hdead ⟨i, hat⟩
        · exact lt_irrefl _ hk
      have hrest := ih hinv (fun o ho => hg o (List.mem_cons_of_mem op ho))
        (hk.trans_le hmoved.created) hdead'
      dsimp only
      split
      · next hs =>
        obtain ⟨start, hs⟩ := Option.isSome_iff_exists.mp hs
        obtain ⟨-, -, -, -, j, hj, hrun, -⟩ := search_spec h (exited_of_step he') hs he'
        rw [List.mem_cons]
        rintro (rfl | hmem)
        · exact hdead' ⟨j, at_current hj hrun⟩
        · exact hrest hmem
      · exact hrest

theorem started_of_running (h : Inv s) (hrun : s.running_tid = r) : s.started = true := by
  by_contra hst
  have := h.idle (Bool.not_eq_true _ ▸ hst)
  omega

theorem ne_exit_of_none (h : Inv s) (hrun : s.running_tid = r) (ha : a ∈ used s) (hb : b ∈ used s)
    (hab : a ≠ b) (hs : searchFrom s op = none) : op ≠ .exit := by
  rintro rfl
  simp only [searchFrom, started_of_running h hrun, true_and, ite_eq_right_iff, reduceCtorEq,
    imp_false, not_not] at hs
  have hone : (used s).card ≤ 1 := by
    have := h.count
    omega
  exact hab (card_le_one.mp hone a ha b hb)

/-- **Once round the table.** Until the thread in place `a` is activated, the thread in place `b` is
activated once if its place is ahead of the running place `r`, seen from `a`, and else not at all. -/
theorem count_activations (h : Inv s) (hg : ∀ op ∈ ops, Granted op) {l : Nat} (ha : At s a k)
    (hb : At s b l) (hab : a ≠ b) (hr : r ∈ used s) (hrun : s.running_tid = r)
    (hlive : LiveThrough l ops s) {xs : List Nat} (hacts : activations ops s = xs ++ [k])
    (hk : k ∉ xs) :
    xs.count l =
      if Cyclic.gone MAX_UTHREADS a r < Cyclic.gone MAX_UTHREADS a b then 1 else 0 := by
  -- by induction over the calls, where the running place and the state change
  induction ops generalizing s r xs with
  | nil => simp [activations] at hacts
  | cons op ops ih =>
    rw [activations] at hacts
    cases he : step s op with
    | none => simp [he] at hacts
    | some s' =>
    have he' := stepBy_sched ▸ he
    have hop := hg op List.mem_cons_self
    have hops : ∀ o ∈ ops, Granted o := fun o ho => hg o (List.mem_cons_of_mem op ho)
    have hinv : Inv s' := h.stepBy (.of_granted hop h.first) he'
    have hmoved := moved_of_step h hop he'
    have hlive' := hlive.2 s' he
    -- the thread in place `b` is live, so it is still there
    have hb' : At s' b l := by
      obtain ⟨i, hat⟩ := hlive'.live
      rcases hmoved.was i l hat with ⟨hold, -⟩ | rfl
      · exact hb.unique h hold ▸ hat
      · exact absurd (hb.created h) (lt_irrefl _)
    rw [he] at hacts
    dsimp only at hacts
    cases hs : searchFrom s op with
    | none =>
      simp only [hs, Option.isSome_none, Bool.false_eq_true, if_false] at hacts
      have hne := ne_exit_of_none h hrun ha.1 hb.1 hab hs
      have hrun' := (running_of_step h hop hs he').1.trans hrun
      have hr' := (hmoved.stays r _ (at_current hr hrun) (absurd · hne)).1
      exact ih hinv hops (hmoved.stays a k ha (absurd · hne)) hb' hr' hrun' hlive' hacts hk
    | some start =>
    simp only [hs, Option.isSome_some, if_true] at hacts
    obtain ⟨j, hj, hrun', hfirst⟩ := first_of_search h hrun hs he
    have hcur := at_current hj hrun'
    -- the thread in place `a` is activated again, so it has not exited
    have ha' : At s' a k := by
      refine hmoved.stays a k ha fun hexit he => ?_
      have hdead : ¬ Live k s' := fun ⟨i, hat⟩ => by
        rcases hmoved.was i k hat with ⟨hold, hne⟩ | rfl
        · exact hne hexit (he.trans (ha.unique h hold))
        · exact absurd (ha.created h) (lt_irrefl _)
      have hmem : k ∈ current s' :: activations ops s' := by
        rw [hacts]
        exact List.mem_append_right xs (List.mem_singleton_self k)
      rcases List.mem_cons.mp hmem with rfl | hmem
      · exact hdead ⟨j, hcur⟩
      · exact not_mem_activations hinv hops ((ha.created h).trans_le hmoved.created) hdead hmem
    obtain ⟨hforward, hnone⟩ := hfirst.step ha.lt (mem_used.mp hr).1 ha'.1
    have hnone := hnone b hb.lt hb'.1
    rw [Cyclic.goal_of_ne hab.symm] at hnone
    cases xs with
    | nil =>
      -- `a` is reached, so `b` was not ahead
      have hja : j = a := by
        have hcura : current s' = k := (List.cons.inj hacts).1
        exact (hcura ▸ hcur).unique hinv ha'
      rw [hja, Cyclic.goal_self] at hnone
      have hlt := Cyclic.gone_lt (n := MAX_UTHREADS) (a := a) (r := b) (by decide)
      rw [if_neg fun hr => absurd (hnone hr) (not_le.mpr hlt)]
      rfl
    | cons x xs =>
      obtain ⟨hx, hacts⟩ := List.cons.inj hacts
      rw [List.mem_cons, not_or] at hk
      have hja : j ≠ a := fun hja => hk.1 ((hja ▸ hcur).2.symm.trans ha'.2 |>.symm.trans hx)
      have hrest := ih hinv hops ha' hb' hj hrun' hlive' hacts hk.2
      rw [Cyclic.goal_of_ne hja] at hforward hnone
      rw [List.count_cons, hrest, ← hx]
      by_cases hjb : j = b
      · -- `b` itself is activated, and is not ahead any more
        have hcurb : current s' = l := current_eq hrun' (hjb ▸ hb')
        rw [hjb] at hforward ⊢
        simp [hcurb, hforward]
      · have hcurb : current s' ≠ l := fun he => hjb ((he ▸ hcur).unique hinv hb')
        have hiff : Cyclic.gone MAX_UTHREADS a j < Cyclic.gone MAX_UTHREADS a b ↔
            Cyclic.gone MAX_UTHREADS a r < Cyclic.gone MAX_UTHREADS a b := by
          refine ⟨hforward.trans, fun hlt => lt_of_le_of_ne (hnone hlt) fun he => hjb ?_⟩
          exact Cyclic.gone_inj ha.lt (mem_used.mp hj).1 hb.lt he
        simp [hcurb, hiff]

/-- Any call of `uthread_yield` or `uthread_exit` passes control on as it should. -/
theorem passes_on (h : Inv s) (hst : s.started = true) (hex : s.exited = false)
    (hop : op = .exit ∨ ∃ esp ebp, op = .yield esp ebp) :
    ∃ r s', r ∈ used s ∧ s.running_tid = r ∧ step s op = some s' ∧
      used s' = (if op = .exit then (used s).erase r else used s) ∧
      (used s' = ∅ ∧ s'.exited = true ∨
        ∃ j : Nat, s'.running_tid = j ∧
          First MAX_UTHREADS (· ∈ used s') ((r + 1) % MAX_UTHREADS) j ∧
          (op ≠ .exit → j = r → used s = {r})) := by
  obtain ⟨r, hr, hrun⟩ := h.running hst hex
  have hused : used (before s op) = if op = .exit then (used s).erase r else used s := by
    split
    · next hop =>
      subst hop
      exact used_before_exit hrun
    · next hop => exact used_congr (before_threads hop)
  cases hs : searchFrom s op with
  | none =>
    -- the last thread exits
    obtain rfl : op = .exit := by
      rcases hop with rfl | ⟨esp, ebp, rfl⟩
      · rfl
      · simp [searchFrom, hst] at hs
    simp only [searchFrom, hst, true_and, ite_eq_right_iff, reduceCtorEq, imp_false,
      not_not] at hs
    have hone : used s = {r} := by
      have hcard : (used s).card = 1 := by
        have := h.count
        omega
      obtain ⟨i, hi⟩ := card_eq_one.mp hcard
      rw [hi, mem_singleton] at hr
      rw [hi, hr]
    have h0 : (left s r).cur_threads = 0 := by
      change s.cur_threads - 1 = 0
      omega
    refine ⟨r, { left s r with exited := true }, hr, hrun, ?_, hused ▸ ?_, .inl ⟨?_, rfl⟩⟩
    · rw [← stepBy_sched]
      unfold stepBy
      rw [if_neg (by rw [hex]; exact Bool.false_ne_true)]
      simp only [if_pos hst, uthreadExitBy_eq h.toRows hr hrun]
      exact if_pos h0
    · exact used_left.trans (used_before_exit hrun).symm
    · exact used_left.trans (by rw [hone, erase_singleton])
  | some start =>
    obtain ⟨i, hi⟩ : (used (before s op)).Nonempty := by
      rw [hused]
      split
      · next hexit =>
        subst hexit
        simp only [searchFrom, Option.ite_none_right_eq_some] at hs
        rw [← card_pos, card_erase_of_mem hr]
        have := h.count
        have := card_pos.mpr ⟨r, hr⟩
        omega
      · exact ⟨r, hr⟩
    obtain ⟨hilt, hine⟩ := mem_used.mp hi
    obtain ⟨next, hnext⟩ := nextThreadBy_finds (p := sched) hilt ⟨hine, .inl rfl⟩ (searchFrom_lt hs)
    have he := stepBy_search (p := sched) h hex hs
    rw [hnext, Option.map_some, stepBy_sched] at he
    obtain ⟨j, hj, hrun', hfirst⟩ := first_of_search h hrun hs he
    have hused' : used (goOn op (before s op) next) = used (before s op) :=
      used_congr (goOn_threads ..)
    refine ⟨r, _, hr, hrun, he, hused'.trans hused, .inr ⟨j, hrun', hfirst, fun hne hjr => ?_⟩⟩
    subst hjr
    refine eq_singleton_iff_unique_mem.mpr ⟨hr, fun b hb => ?_⟩
    exact hfirst.eq_of_self (mem_used.mp hb).1 (by rwa [hused', hused, if_neg hne])

/-- **Threads in turn.** In every run in which `malloc` does not fail, once the threads are started:
`uthread_yield` and `uthread_exit` return in the first thread of the table behind the one that calls,
which is the caller of `uthread_yield` only if there is no other. And when a thread `k` that runs is
activated again, every other thread that was in the table all the time was activated exactly once
in between. -/
theorem round_robin (ops : List Op) (s : State) (hg : ∀ op ∈ ops, Granted op)
    (hrun : run ops init = some s) (hst : s.started = true) :
    (s.exited = false → ∀ op, (op = .exit ∨ ∃ esp ebp, op = .yield esp ebp) →
      ∃ r s', r ∈ used s ∧ s.running_tid = r ∧ step s op = some s' ∧
        used s' = (if op = .exit then (used s).erase r else used s) ∧
        (used s' = ∅ ∧ s'.exited = true ∨
          ∃ j : Nat, s'.running_tid = j ∧
            First MAX_UTHREADS (· ∈ used s') ((r + 1) % MAX_UTHREADS) j ∧
            (op ≠ .exit → j = r → used s = {r}))) ∧
    ∀ ops' k l xs, (∀ op ∈ ops', Granted op) → current s = k →
      activations ops' s = xs ++ [k] → k ∉ xs → l ≠ k → LiveThrough l ops' s → xs.count l = 1 := by
  have h : Inv s := by
    rcases inv_of_run (.inl rfl) hg (runBy_sched ▸ hrun) with rfl | h
    · cases hst
    · exact h
  refine ⟨fun hex op hop => passes_on h hst hex hop, ?_⟩
  intro ops' k l xs hg' hcur hacts hk hlk hlive
  have hex : s.exited = false := by
    by_contra hex
    rw [Bool.not_eq_false] at hex
    cases ops' with
    | nil => simp [activations] at hacts
    | cons op ops' => simp [activations, step, hex] at hacts
  obtain ⟨a, ha, hrun⟩ := h.running hst hex
  have hata : At s a k := hcur ▸ at_current ha hrun
  obtain ⟨b, hb⟩ := hlive.live
  have hab : a ≠ b := fun e => hlk (hb.2.symm.trans (e ▸ hata.2))
  rw [count_activations h hg' hata hb hab ha hrun hlive hacts hk, if_pos]
  rw [Cyclic.gone_self, Nat.pos_iff_ne_zero]
  exact fun h0 => hab (Cyclic.gone_inj hata.lt hata.lt hb.lt (by rw [Cyclic.gone_self, h0]))

/-- Two threads are started; the first yields, the second creates a third and yields, and so does the
third. -/
theorem round_robin_threeThreads :
    ∃ s, run [.create 100 0 1 2, .create 200 1 3 4, .startAll] init = some s ∧ current s = 0 ∧
      activations [.yield 10 11, .create 300 0 5 6, .yield 20 21, .yield 30 31] s = [1, 2, 0] ∧
      [1, 2].count 1 = 1 := by
  refine ⟨_, rfl, rfl, by decide +kernel, ?_⟩
  refine (round_robin [.create 100 0 1 2, .create 200 1 3 4, .startAll] _ ?_ rfl rfl).2
    [.yield 10 11, .create 300 0 5 6, .yield 20 21, .yield 30 31] 0 1 [1, 2] ?_ rfl
    (by decide +kernel) (by decide) (by decide) ?_
  · simp [Granted]
  · simp [Granted]
  · refine ⟨⟨1, by decide +kernel, rfl⟩, fun s1 h1 => ?_⟩
    cases h1
    refine ⟨⟨1, by decide +kernel, rfl⟩, fun s2 h2 => ?_⟩
    cases h2
    refine ⟨⟨1, by decide +kernel, rfl⟩, fun s3 h3 => ?_⟩
    cases h3
    refine ⟨⟨1, by decide +kernel, rfl⟩, fun s4 h4 => ?_⟩
    cases h4
    exact ⟨1, by decide +kernel, rfl⟩

/-! ### Threads by priority -/

/-- `v` is the best priority of the table, and 9 if it is empty. -/
structure IsBest (s : State) (v : Int) : Prop where
  le_nine : v ≤ 9
  lower : ∀ i ∈ used s, v ≤ priority s i
  attained : v = 9 ∨ ∃ i ∈ used s, priority s i = v

theorem IsBest.unique {v w : Int} (hv : IsBest s v) (hw : IsBest s w) : v = w := by
  -- each of the two is a lower bound that the other one attains
  have hle : ∀ {v w : Int}, IsBest s v → IsBest s w → v ≤ w := by
    intro v w hv hw
    rcases hw.attained with rfl | ⟨i, hi, rfl⟩
    · exact hv.le_nine
    · exact hv.lower i hi
  exact le_antisymm (hle hv hw) (hle hw hv)

theorem IsBest.congr {v : Int} (h : IsBest s v) (hused : used s' = used s)
    (hpr : ∀ i ∈ used s, priority s' i = priority s i) : IsBest s' v where
  le_nine := h.le_nine
  lower i hi := by
    rw [hused] at hi
    exact hpr i hi ▸ h.lower i hi
  attained := h.attained.imp_right fun ⟨i, hi, he⟩ => ⟨i, hused ▸ hi, (hpr i hi).trans he⟩

theorem getHighestP_loop (s : State) (l : List Nat) (cur : Int) :
    let v := l.foldl (fun cur i =>
      if s.threads i ≠ 0 ∧ (s.thread (s.threads i)).priority < cur then
        (s.thread (s.threads i)).priority
      else cur) cur
    v ≤ cur ∧ (∀ i ∈ l, s.threads i ≠ 0 → v ≤ priority s i) ∧
      (v = cur ∨ ∃ i ∈ l, s.threads i ≠ 0 ∧ priority s i = v) := by
  induction l generalizing cur with
  | nil => exact ⟨le_rfl, nofun, .inl rfl⟩
  | cons i l ih =>
    obtain ⟨hle, hlower, hatt⟩ := ih (if s.threads i ≠ 0 ∧ (s.thread (s.threads i)).priority < cur
      then (s.thread (s.threads i)).priority else cur)
    rw [List.foldl_cons]
    dsimp only at *
    -- the value with which the rest of the loop starts is at most `cur` and the priority in `i`
    split at hle <;> rename_i hcond
    · rw [if_pos hcond] at hlower hatt ⊢
      refine ⟨hle.trans hcond.2.le, fun j hj hne => ?_, .inr ?_⟩
      · rcases List.mem_cons.mp hj with rfl | hj
        · exact hle
        · exact hlower j hj hne
      · rcases hatt with he | ⟨j, hj, hne, he⟩
        · exact ⟨i, List.mem_cons_self, hcond.1, he.symm⟩
        · exact ⟨j, List.mem_cons_of_mem i hj, hne, he⟩
    · rw [if_neg hcond] at hlower hatt ⊢
      refine ⟨hle, fun j hj hne => ?_, hatt.imp_right fun ⟨j, hj, h⟩ =>
        ⟨j, List.mem_cons_of_mem i hj, h⟩⟩
      rcases List.mem_cons.mp hj with rfl | hj
      · exact hle.trans (not_lt.mp fun hlt => hcond ⟨hne, hlt⟩)
      · exact hlower j hj hne

theorem isBest_getHighestP (s : State) : IsBest s (getHighestP s) := by
  obtain ⟨hle, hlower, hatt⟩ := getHighestP_loop s (List.range MAX_UTHREADS) 9
  refine ⟨hle, fun i hi => ?_, hatt.imp_right fun ⟨i, hi, hne, he⟩ => ?_⟩
  · exact hlower i (List.mem_range.mpr (mem_used.mp hi).1) (mem_used.mp hi).2
  · exact ⟨i, mem_used.mpr ⟨List.mem_range.mp hi, hne⟩, he⟩

/-- The priorities are at most 9, and `highest_p` is the best of them. -/
structure Best (s : State) : Prop where
  le_nine : ∀ i ∈ used s, priority s i ≤ 9
  best : IsBest s s.highest_p

theorem Best.congr (h : Best s) (hused : used s' = used s)
    (hpr : ∀ i ∈ used s, priority s' i = priority s i) (hp : s'.highest_p = s.highest_p) :
    Best s' where
  le_nine i hi := by
    rw [hused] at hi
    exact hpr i hi ▸ h.le_nine i hi
  best := hp ▸ h.best.congr hused hpr

theorem Best.attained (h : Best s) (hi : i ∈ used s) : ∃ j ∈ used s, priority s j = s.highest_p := by
  rcases h.best.attained with h9 | hex
  · exact ⟨i, hi, le_antisymm (h9 ▸ h.le_nine i hi) (h.best.lower i hi)⟩
  · exact hex

/-- The arguments of the call are as they should be: priorities are from 0 to 9, and `malloc` does
not fail. -/
def InRange : Op → Prop
  | .create _ q m sp => (0 ≤ q ∧ q ≤ 9) ∧ m ≠ 0 ∧ sp ≠ 0
  | .setpr q => 0 ≤ q ∧ q ≤ 9
  | _ => True

/-- With the priority `q` for the running thread, the best priority of the table is what it was: `q`
is not better, and `q` or the priority of another thread is as good. -/
def KeepsBest (s : State) (q : Int) : Prop :=
  getHighestP s ≤ q ∧
    (q = getHighestP s ∨ ∃ i ∈ used s, s.running_tid ≠ i ∧ priority s i = getHighestP s)

/-- The condition on a call: `uthread_setpr` keeps the best priority. -/
def SetprOk (s : State) : Op → Prop
  | .setpr q => KeepsBest s q
  | _ => True

/-- All calls of the sequence meet the condition. -/
def SetprRun : List Op → State → Prop
  | [], _ => True
  | op :: ops, s => SetprOk s op ∧ ∀ s', stepBy .PRIORITY_BASED s op = some s' → SetprRun ops s'

/-- In `s'` the thread runs that should run, by a search that began at the place `start`. -/
structure Chosen (s' : State) (start : Nat) : Prop where
  least : IsLeast {q | ∃ i ∈ used s', priority s' i = q} s'.highest_p
  first : ∃ j : Nat, s'.running_tid = j ∧ j ∈ used s' ∧
    First MAX_UTHREADS (fun i => i ∈ used s' ∧ priority s' i = s'.highest_p) start j

theorem InRange.granted (h : InRange op) : Granted op := by
  cases op with
  | create f q m sp => exact h.2
  | startAll => trivial
  | yield esp ebp => trivial
  | setpr q => trivial
  | exit => trivial

theorem best_left (h : Best s) : Best (left s r) where
  le_nine i hi := by
    obtain ⟨hne, hi⟩ := mem_erase.mp (used_left ▸ hi)
    rw [priority, show (left s r).threads i = s.threads i from update_of_ne hne _ _]
    exact h.le_nine i hi
  best := (isBest_getHighestP (removed s r)).congr rfl fun _ _ => rfl

/-- The state in which a call searches. -/
theorem best_before (h : Best s) (op : Op) : Best (before s op) := by
  cases op with
  | create f q m sp => exact h
  | startAll => exact h
  | yield esp ebp => exact h.congr rfl (fun _ _ => saved_thread.1) rfl
  | setpr q => exact h
  | exit => exact best_left h

theorem nonempty_before (h : Inv s) (hex : s.exited = false) (hs : searchFrom s op = some start) :
    (used (before s op)).Nonempty := by
  cases op with
  | create f q m sp => cases hs
  | startAll =>
    simp only [searchFrom, Option.ite_none_left_eq_some] at hs
    change (used s).Nonempty
    rw [← card_pos]
    have := h.count
    omega
  | yield esp ebp =>
    simp only [searchFrom, Option.ite_none_right_eq_some] at hs
    obtain ⟨r, hr, -⟩ := h.running hs.1 hex
    exact ⟨r, hr⟩
  | setpr q => cases hs
  | exit =>
    simp only [searchFrom, Option.ite_none_right_eq_some] at hs
    obtain ⟨r, hr, hrun⟩ := h.running hs.1.1 hex
    rw [used_before_exit hrun, ← card_pos, card_erase_of_mem hr]
    have := h.count
    have := card_pos.mpr ⟨r, hr⟩
    omega

/-- While `highest_p` is the best priority, a search ends and chooses the right thread. -/
theorem chosen_of_search (h : Inv s) (hex : s.exited = false) (hbest : Best s)
    (hs : searchFrom s op = some start) :
    ∃ s', stepBy .PRIORITY_BASED s op = some s' ∧ Chosen s' start := by
  have hb := best_before hbest op
  obtain ⟨i, hi⟩ := nonempty_before h hex hs
  obtain ⟨j, hj, hpj⟩ := hb.attained hi
  obtain ⟨hjlt, hjne⟩ := mem_used.mp hj
  obtain ⟨next, hnext⟩ := nextThreadBy_finds (p := .PRIORITY_BASED) hjlt ⟨hjne, .inr hpj⟩
    (searchFrom_lt hs)
  have he := stepBy_search (p := .PRIORITY_BASED) h hex hs
  rw [hnext, Option.map_some] at he
  refine ⟨_, he, ?_⟩
  have hb' : Best (goOn op (before s op) next) :=
    hb.congr (used_congr (goOn_threads ..)) (fun i _ => by simp [priority]) (goOn_highest_p ..)
  obtain ⟨-, -, -, -, k, hk, hrun, hfirst⟩ := search_spec h hex hs he
  refine ⟨⟨hb'.attained hk, ?_⟩, k, hrun, hk, hfirst.congr fun i hi => ?_⟩
  · rintro q ⟨i, hi, rfl⟩
    exact hb'.best.lower i hi
  · simp only [Eligible, reduceCtorEq, false_or, mem_used, hi, true_and, priority]

theorem setpr_priority (h : Inv s) (hr : r ∈ used s) (hrun : s.running_tid = r) (q : Int)
    (hi : i ∈ used s) :
    priority (uthreadSetpr s q).2 i = if i = r then q else priority s i := by
  have hself : s.threads s.running_tid.toNat = s.threads r := by rw [hrun, Int.toNat_natCast]
  rw [priority, priority, uthreadSetpr, hself]
  split
  · next hir =>
    subst hir
    exact congrArg UThread.priority (update_self (s.threads i) _ s.thread)
  · next hir =>
    have hne : s.threads i ≠ s.threads r := fun e => hir (h.distinct i hi r hr e)
    exact congrArg UThread.priority (update_of_ne hne _ s.thread)

/-- `highest_p` is right after `uthread_setpr` exactly if the call keeps the best priority. -/
theorem best_setpr_iff (h : Inv s) (hbest : Best s) (hr : r ∈ used s) (hrun : s.running_tid = r)
    {q : Int} (hq : q ≤ 9) : Best (uthreadSetpr s q).2 ↔ KeepsBest s q := by
  have hv : s.highest_p = getHighestP s := hbest.best.unique (isBest_getHighestP s)
  have hpr := fun i (hi : i ∈ used s) => setpr_priority h hr hrun q hi
  have hother : ∀ i : Nat, s.running_tid ≠ i ↔ i ≠ r := fun i => by
    rw [hrun]
    omega
  rw [KeepsBest, ← hv]
  constructor
  · intro hb
    have hlow : s.highest_p ≤ q := by
      have := hb.best.lower r hr
      rwa [hpr r hr, if_pos rfl] at this
    obtain ⟨i, hi, he⟩ := hb.attained hr
    rw [hpr i hi] at he
    refine ⟨hlow, ?_⟩
    split at he
    · exact .inl he
    · next hir => exact .inr ⟨i, hi, (hother i).mpr hir, he⟩
  · rintro ⟨hlow, hatt⟩
    refine ⟨fun i hi => ?_, hbest.best.le_nine, fun i hi => ?_, ?_⟩
    · rw [hpr i hi]
      split
      · exact hq
      · exact hbest.le_nine i hi
    · rw [hpr i hi]
      split
      · exact hlow
      · exact hbest.best.lower i hi
    · rcases hatt with he | ⟨i, hi, hne, he⟩
      · exact .inr ⟨r, hr, by rw [hpr r hr, if_pos rfl]; exact he⟩
      · exact .inr ⟨i, hi, by rw [hpr i hi, if_neg ((hother i).mp hne)]; exact he⟩

theorem best_put (h : Inv s) (hbest : Best s) (hm : m ≠ 0) (hfresh : Fresh s m sp) {q : Int}
    (hq : q ≤ 9) (hput : Put s i m q s') : Best s' := by
  have hused := used_insert hput.lt hm hput.threads
  have hnew : priority s' i = q := by
    rw [priority, hput.threads, update_self, hput.new]
  have hold : ∀ j ∈ used s, priority s' j = priority s j := fun j hj => by
    have hji : j ≠ i := fun e => (mem_used.mp hj).2 (e ▸ hput.free)
    rw [priority, priority, hput.threads, update_of_ne hji,
      hput.old _ (fresh_ne h.toRows hfresh hm hj)]
  have hcases : ∀ {P : Nat → Prop}, P i → (∀ j ∈ used s, P j) → ∀ j ∈ used s', P j :=
    fun h1 h2 j hj => by
      rw [hused] at hj
      rcases mem_insert.mp hj with rfl | hj
      · exact h1
      · exact h2 j hj
  have hb := hbest.best
  refine ⟨hcases (hnew ▸ hq) fun j hj => hold j hj ▸ hbest.le_nine j hj, ?_⟩
  rw [hput.highest_p]
  split
  · -- the new thread is the best one
    next hlt =>
    refine ⟨hq, hcases hnew.ge fun j hj => ?_, .inr ⟨i, hused ▸ mem_insert_self i _, hnew⟩⟩
    exact hold j hj ▸ (le_of_lt hlt).trans (hb.lower j hj)
  · next hle =>
    refine ⟨hb.le_nine, hcases (hnew ▸ not_lt.mp hle) fun j hj => hold j hj ▸ hb.lower j hj, ?_⟩
    refine hb.attained.imp_right fun ⟨j, hj, he⟩ => ⟨j, ?_, (hold j hj).trans he⟩
    exact hused ▸ mem_insert_of_mem hj

theorem best_step (h : Inv s) (hbest : Best s) (hin : InRange op) (hok : SetprOk s op)
    (he : stepBy .PRIORITY_BASED s op = some s') : Best s' := by
  have hex := exited_of_step he
  cases hs : searchFrom s op with
  | some start =>
    obtain ⟨hused, -, hp, hpr, -⟩ := search_spec h hex hs he
    refine (best_before hbest op).congr hused (fun i hi => ?_) hp
    rw [hpr i (hused ▸ hi), priority, priority, before_threads_of_mem hi, before_priority]
  | none =>
    by_cases hop : ∃ f q m sp, op = .create f q m sp
    · obtain ⟨f, q, m, sp, rfl⟩ := hop
      obtain ⟨hfresh, rfl⟩ := step_create_inv he
      rcases create_cases h hin.2.1 hin.2.2 f q with heq | ⟨i, hput⟩
      · rwa [heq]
      · exact best_put h hbest hin.2.1 hfresh hin.1.2 hput
    · push Not at hop
      rcases step_rest h hs hop he with ⟨rfl, rfl⟩ | ⟨q, rfl, hst, rfl⟩ | ⟨rfl, -, -, rfl⟩
      · exact hbest
      · obtain ⟨r, hr, hrun⟩ := h.running hst hex
        exact (best_setpr_iff h hbest hr hrun hin.2).mpr hok
      · exact (best_left hbest).congr rfl (fun _ _ => rfl) rfl

/-- The first call of `uthread_create` sets `highest_p` to 9. -/
theorem best_firstInit : Best init.firstInit := by
  have hused : used init.firstInit = ∅ := used_empty fun _ => rfl
  have hnone : ∀ {P : Nat → Prop}, ∀ i ∈ used init.firstInit, P i := fun i hi => by
    rw [hused] at hi
    exact absurd hi (notMem_empty i)
  exact ⟨hnone, le_rfl, hnone, .inl rfl⟩

theorem best_of_run (h : s = init ∨ Inv s ∧ Best s) (hin : ∀ op ∈ ops, InRange op)
    (hok : SetprRun ops s) (hrun : runBy .PRIORITY_BASED ops s = some s') :
    s' = init ∨ Inv s' ∧ Best s' := by
  induction ops generalizing s with
  | nil =>
    cases hrun
    exact h
  | cons op ops ih =>
    obtain ⟨s1, h1, h2⟩ := Option.bind_eq_some_iff.mp hrun
    have hop := hin op List.mem_cons_self
    refine ih ?_ (fun o ho => hin o (List.mem_cons_of_mem op ho)) (hok.2 s1 h1) h2
    rcases h with rfl | ⟨h, hbest⟩
    · cases op with
      | create f q m sp =>
        have hinv : Inv s1 := (inv_step (.inl rfl) hop.granted h1).resolve_left fun he => by
          obtain ⟨-, rfl⟩ := step_create_inv h1
          have := congrArg State.first_uthread he
          rw [uthreadCreate] at this
          split at this
          · cases this
          · rw [if_neg hop.2.1, if_neg hop.2.2] at this
            simp [State.firstInit, init, State.setSlot, State.malloc, State.set] at this
            split at this <;> cases this
        refine .inr ⟨hinv, ?_⟩
        have he : stepBy .PRIORITY_BASED init.firstInit (.create f q m sp) = some s1 := h1
        exact best_step inv_firstInit best_firstInit hop trivial he
      | startAll =>
        cases h1
        exact .inl rfl
      | yield esp ebp => cases h1
      | setpr q => cases h1
      | exit => cases h1
    · exact .inr ⟨h.stepBy (.of_granted hop.granted h.first) h1, best_step h hbest hop hok.1 h1⟩

/-- **Scheduling by priority.** In every run in which every `uthread_setpr` keeps the best priority
of the table, every call that chooses a thread ends, with `highest_p` equal to the best priority, and
chooses the first thread of that priority behind the one that gives up control. A `uthread_setpr`
after such a run is followed by a right choice of `uthread_yield` exactly if it keeps the best
priority, too. -/
theorem priority_schedule (ops : List Op) (s : State) (hin : ∀ op ∈ ops, InRange op)
    (hok : SetprRun ops init) (hrun : runBy .PRIORITY_BASED ops init = some s)
    (hex : s.exited = false) :
    (∀ op start, searchFrom s op = some start →
      ∃ s', stepBy .PRIORITY_BASED s op = some s' ∧ Chosen s' start) ∧
    ∀ q esp ebp s1 start, 0 ≤ q → q ≤ 9 → stepBy .PRIORITY_BASED s (.setpr q) = some s1 →
      searchFrom s1 (.yield esp ebp) = some start →
      ((∃ s2, stepBy .PRIORITY_BASED s1 (.yield esp ebp) = some s2 ∧ Chosen s2 start) ↔
        KeepsBest s q) := by
  rcases best_of_run (.inl rfl) hin hok hrun with rfl | ⟨h, hbest⟩
  · -- no thread was created, so nothing is chosen
    refine ⟨fun op start hs => ?_, fun q esp ebp s1 start _ _ he => by cases he⟩
    cases op <;> cases hs
  refine ⟨fun op start hs => chosen_of_search h hex hbest hs, ?_⟩
  intro q esp ebp s1 start _ hq9 he hs
  have hinv : Inv s1 := h.stepBy (show OpOk _ (.setpr q) from trivial) he
  have hcreate : ∀ f p m sp, Op.setpr q ≠ .create f p m sp := fun _ _ _ _ he => by cases he
  rcases step_rest h rfl hcreate he with ⟨hop, -⟩ | ⟨q', hop, hst, rfl⟩ | ⟨hop, -⟩
  · cases hop
  · cases hop
    obtain ⟨r, hr, hrunning⟩ := h.running hst hex
    rw [← best_setpr_iff h hbest hr hrunning hq9]
    refine ⟨fun ⟨s2, he2, hchosen⟩ => ?_, fun hb => chosen_of_search hinv hex hb hs⟩
    -- what `uthread_yield` sees is the table that `uthread_setpr` leaves
    obtain ⟨hused, -, hp, hpr, -⟩ := search_spec hinv hex hs he2
    have hused : used s2 = used (uthreadSetpr s q).2 := hused
    have hp : s2.highest_p = (uthreadSetpr s q).2.highest_p := hp
    rw [hused] at hpr
    refine ⟨fun i hi => ?_, hbest.best.le_nine, fun i hi => ?_, .inr ?_⟩
    · rw [setpr_priority h hr hrunning q hi]
      split
      · exact hq9
      · exact hbest.le_nine i hi
    · rw [← hp, ← hpr i hi]
      exact hchosen.least.2 ⟨i, hused ▸ hi, rfl⟩
    · obtain ⟨i, hi, he⟩ := hchosen.least.1
      rw [hused] at hi
      exact ⟨i, hi, by rw [← hp, ← hpr i hi, he]⟩
  · cases hop

/-- A thread of priority 3 takes the priority 7 while another one of priority 3 waits. -/
theorem priority_schedule_twoThreads :
    ∃ s, runBy .PRIORITY_BASED [.create 100 3 1 2, .create 200 3 3 4, .startAll, .setpr 7] init =
      some s ∧ s.running_tid = 0 ∧ searchFrom s (.yield 10 11) = some 1 ∧
      ∃ s', stepBy .PRIORITY_BASED s (.yield 10 11) = some s' ∧ Chosen s' 1 := by
  refine ⟨_, rfl, rfl, rfl, ?_⟩
  refine (priority_schedule [.create 100 3 1 2, .create 200 3 3 4, .startAll, .setpr 7] _ ?_ ?_ rfl
    rfl).1 (.yield 10 11) 1 rfl
  · simp [InRange]
  · refine ⟨trivial, fun s1 h1 => ?_⟩
    cases h1
    refine ⟨trivial, fun s2 h2 => ?_⟩
    cases h2
    refine ⟨trivial, fun s3 h3 => ?_⟩
    cases h3
    refine ⟨?_, fun s4 _ => trivial⟩
    unfold SetprOk KeepsBest
    exact ⟨by decide +kernel, .inr ⟨1, by decide +kernel, by decide +kernel, by decide +kernel⟩⟩

/-- The only thread, of priority 0, takes the priority 5 and yields: `next_thread` looks for a
thread of priority 0 for ever. -/
theorem setpr_then_yield_hangs :
    ∃ s, runBy .PRIORITY_BASED [.create 100 0 1 2, .startAll, .setpr 5] init = some s ∧
      s.highest_p = 0 ∧ used s = {0} ∧ priority s 0 = 5 ∧
      searchFrom s (.yield 10 11) = some 1 ∧
      ∀ k, nextThreadBy .PRIORITY_BASED (before s (.yield 10 11)) k 1 = none := by
  refine ⟨_, rfl, rfl, by decide +kernel, rfl, rfl, fun k => ?_⟩
  rw [nextThreadBy_eq, Cyclic.scan_none (by decide) (by decide) (by decide +kernel) k,
    Option.map_none]

end Uthread

end Xv6
