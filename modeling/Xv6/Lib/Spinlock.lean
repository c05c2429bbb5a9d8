import Mathlib

/-!
# Spin locks that a scheduler hands over

Processes execute code on any number of CPUs; a CPU that executes no process executes the
scheduler. One of the spin locks, the table lock, protects the switch between the two: a
process enters the scheduler with the lock held, and the scheduler hands the lock to the
process it switches to.

Code is of an arbitrary type `γ`, and `owns l c` says that code `c` runs with the lock `l` held.
`Held` says that the state of the locks agrees with the code of the processes that are on a CPU.
There is one lemma for each way in which a step can change them, so that mutual exclusion
(`Held.unique`) is an invariant of every machine that is built from such steps.
-/

open Function

namespace Spinlock

/-- Who holds a lock: a process, or the scheduler of a CPU. -/
inductive Holder where
  | proc (p : Nat)
  | scheduler
  deriving DecidableEq, Repr

variable {Λ γ : Type} [DecidableEq Λ]

/-- The processes on a CPU hold the locks that their code owns; a process that is not on a CPU
goes on with the table lock, and with no other. -/
structure Held (owns : Λ → γ → Bool) (table : Λ) (holder : Λ → Option Holder) (onCpu : Nat → Bool)
    (code : Nat → γ) : Prop where
  holds : ∀ l p, holder l = some (.proc p) ↔ onCpu p = true ∧ owns l (code p) = true
  off : ∀ p, onCpu p = false → ∀ l, owns l (code p) = decide (l = table)

variable {owns : Λ → γ → Bool} {table l : Λ} {holder holder' : Λ → Option Holder}
  {onCpu onCpu' : Nat → Bool} {code code' : Nat → γ} {p q : Nat} {k : γ}

theorem proc_ne (h : q ≠ p) : some (Holder.proc p) ≠ some (.proc q) := fun e => by
  cases e
  exact h rfl

/-- A lock that passes between `p` and nobody or the scheduler does not concern others. -/
theorem update_holder {o : Option Holder} (h1 : ∀ q ≠ p, holder l ≠ some (.proc q))
    (h2 : ∀ q ≠ p, o ≠ some (.proc q)) (l' : Λ) (hq : q ≠ p) :
    update holder l o l' = some (.proc q) ↔ holder l' = some (.proc q) := by
  by_cases e : l' = l
  · rw [e, update_self]
    exact iff_of_false (h2 q hq) (h1 q hq)
  · rw [update_of_ne e]

namespace Held

/-- **Mutual exclusion.** -/
theorem unique (h : Held owns table holder onCpu code) (hp : onCpu p = true)
    (hq : onCpu q = true) (h1 : owns l (code p) = true) (h2 : owns l (code q) = true) : p = q := by
  have e1 := (h.holds l p).mpr ⟨hp, h1⟩
  have e2 := (h.holds l q).mpr ⟨hq, h2⟩
  rw [e1] at e2
  cases e2
  rfl

theorem on_of_owns (h : Held owns table holder onCpu code) (hl : l ≠ table)
    (h1 : owns l (code p) = true) : onCpu p = true := by
  cases hp : onCpu p with
  | true => rfl
  | false =>
    rw [h.off p hp l, decide_eq_false hl] at h1
    cases h1

theorem one (h : Held owns table holder onCpu code) (p : Nat)
    (hcode : ∀ q ≠ p, code' q = code q) (hcpu : ∀ q ≠ p, onCpu' q = onCpu q)
    (hother : ∀ l, ∀ q ≠ p, (holder' l = some (.proc q) ↔ holder l = some (.proc q)))
    (hself : ∀ l, holder' l = some (.proc p) ↔ onCpu' p = true ∧ owns l (code' p) = true)
    (hoff : onCpu' p = false → ∀ l, owns l (code' p) = decide (l = table)) :
    Held owns table holder' onCpu' code' := by
  refine ⟨fun l q => ?_, fun q hq => ?_⟩ <;> rcases eq_or_ne q p with rfl | e
  · exact hself l
  · rw [hother l q e, hcpu q e, hcode q e]
    exact h.holds l q
  · exact hoff hq
  · rw [hcode q e]
    exact h.off q (hcpu q e ▸ hq)

theorem setOff (h : Held owns table holder onCpu code) (hp : onCpu p = false)
    (hk : ∀ l, owns l k = decide (l = table)) :
    Held owns table holder onCpu (update code p k) := by
  refine h.one p (fun q hq => update_of_ne hq ..) (fun _ _ => rfl) (fun _ _ _ => Iff.rfl)
    (fun l => ?_) fun _ l => by rw [update_self, hk l]
  rw [hp, h.holds l p, hp]
  exact iff_of_false nofun nofun

theorem goto (h : Held owns table holder onCpu code) (hp : onCpu p = true)
    (hk : ∀ l, owns l k = owns l (code p)) :
    Held owns table holder onCpu (update code p k) := by
  refine h.one p (fun q hq => update_of_ne hq ..) (fun _ _ => rfl) (fun _ _ _ => Iff.rfl)
    (fun l => ?_) fun hf => Bool.noConfusion (hp.symm.trans hf)
  rw [update_self, hk l]
  exact h.holds l p

theorem acquire (h : Held owns table holder onCpu code) (hp : onCpu p = true)
    (hfree : holder l = none) (hl : owns l k = true)
    (hk : ∀ l' ≠ l, owns l' k = owns l' (code p)) :
    Held owns table (update holder l (some (.proc p))) onCpu
      (update code p k) := by
  refine h.one p (fun q hq => update_of_ne hq ..) (fun _ _ => rfl)
    (fun l' q hq => update_holder (fun q _ => by rw [hfree]; nofun) (fun q hq => proc_ne hq) l' hq)
    (fun l' => ?_) fun hf => Bool.noConfusion (hp.symm.trans hf)
  rw [update_self]
  by_cases e : l' = l
  · rw [e, update_self]
    exact iff_of_true rfl ⟨hp, hl⟩
  · rw [update_of_ne e, h.holds l' p, hk l' e]

theorem release (h : Held owns table holder onCpu code) (hp : onCpu p = true)
    (hheld : holder l = some (.proc p)) (hl : owns l k = false)
    (hk : ∀ l' ≠ l, owns l' k = owns l' (code p)) :
    Held owns table (update holder l none) onCpu (update code p k) := by
  refine h.one p (fun q hq => update_of_ne hq ..) (fun _ _ => rfl)
    (fun l' q hq => update_holder (fun q hq => by rw [hheld]; exact proc_ne hq)
      (fun _ _ => by nofun) l' hq)
    (fun l' => ?_) fun hf => Bool.noConfusion (hp.symm.trans hf)
  rw [update_self]
  by_cases e : l' = l
  · rw [e, update_self, hl]
    exact iff_of_false nofun fun h' => nomatch h'.2
  · rw [update_of_ne e, h.holds l' p, hk l' e]

theorem enter (h : Held owns table holder onCpu code)
    (hheld : holder table = some (.proc p)) (hc : ∀ l ≠ table, owns l (code p) = false)
    (hk : ∀ l, owns l k = decide (l = table)) :
    Held owns table (update holder table (some .scheduler))
      (update onCpu p false) (update code p k) := by
  refine h.one p (fun q hq => update_of_ne hq ..) (fun q hq => update_of_ne hq ..)
    (fun l' q hq => update_holder (fun q hq => by rw [hheld]; exact proc_ne hq)
      (fun _ _ => by nofun) l' hq)
    (fun l' => ?_) fun _ l' => by rw [update_self, hk l']
  rw [update_self]
  refine iff_of_false (fun hh => ?_) nofun
  by_cases e : l' = table
  · rw [e, update_self] at hh
    cases hh
  · rw [update_of_ne e, h.holds l' p, hc l' e] at hh
    cases hh.2

theorem dispatch (h : Held owns table holder onCpu code)
    (hsch : holder table = some .scheduler) (hoff : onCpu p = false) :
    Held owns table (update holder table (some (.proc p)))
      (update onCpu p true) code := by
  refine h.one p (fun _ _ => rfl) (fun q hq => update_of_ne hq ..)
    (fun l' q hq => update_holder (fun q _ => by rw [hsch]; nofun) (fun q hq => proc_ne hq) l' hq)
    (fun l' => ?_) fun hf => by rw [update_self] at hf; cases hf
  rw [update_self, h.off p hoff l']
  by_cases e : l' = table
  · rw [e, update_self]
    exact iff_of_true rfl ⟨rfl, decide_eq_true rfl⟩
  · rw [update_of_ne e, h.holds l' p, hoff, decide_eq_false e]
    exact iff_of_false (fun h' => nomatch h'.1) fun h' => nomatch h'.2

theorem setTable (h : Held owns table holder onCpu code)
    (hfree : ∀ q, holder table ≠ some (.proc q)) {o : Option Holder}
    (ho : ∀ q, o ≠ some (.proc q)) :
    Held owns table (update holder table o) onCpu code := by
  refine ⟨fun l' q => ?_, h.off⟩
  rw [← h.holds l' q]
  exact update_holder (fun q _ => hfree q) (fun q _ => ho q) l' (Nat.succ_ne_self q).symm

end Held

end Spinlock
