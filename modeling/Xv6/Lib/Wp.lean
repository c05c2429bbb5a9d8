import Xv6.Lib.Prog

/-!
# Weakest preconditions of programs

`wp L J p Q s` says what a run of `p` from `s` without limits leads to, relative
to a policy `J`. If `p` returns and every event reported so far is one the policy
assumes (`J.good`), the result satisfies `Q`; if it stops under the same
assumption, the stop is one the policy accepts (`J.stop`). In both cases every event
reported satisfies what the policy claims of it (`J.check`).

Events are only ever added, so the assumption at the end of a run covers its
beginning (`run_good`), and a proof may use `Good` at every point (`wp_good`).
-/

open Bytes

namespace Device

/-- What the specifications of a development are relative to. -/
structure Policy (ε : Type) where
  /-- The events a run is assumed to report. -/
  good : ε → Prop
  /-- What is claimed of every event reported. -/
  check : ε → Prop
  /-- The stops that are acceptable. -/
  stop : Stop → Prop

variable {μ ε α β : Type}

/-- All events reported so far are assumed ones. -/
def Machine.Good (J : Policy ε) (s : Machine μ ε) : Prop := ∀ e ∈ s.events, J.good e

/-- All events reported so far are as claimed. -/
def Machine.Checked (J : Policy ε) (s : Machine μ ε) : Prop := ∀ e ∈ s.events, J.check e

variable (L : Limits) (J : Policy ε)

theorem exec_good {lim : Bool} {o : Op μ ε} {s s' : Machine μ ε} {r : o.Ret}
    (h : exec L lim o s = .ok r s') (hg : s'.Good J) : s.Good J := by
  cases o with
  | emit e => cases h; exact fun e' he' => hg e' (List.mem_cons_of_mem _ he')
  | _ =>
    simp only [exec] at h
    (try split at h) <;> (try split at h) <;> (try split at h) <;> cases h <;> exact hg

theorem exec_good_stop {lim : Bool} {o : Op μ ε} {s s' : Machine μ ε} {e : Stop}
    (h : exec L lim o s = .stop e s') : s' = s := by
  cases o <;> simp only [exec] at h <;> (try split at h) <;> (try split at h) <;>
    (try split at h) <;> cases h <;> rfl

/-- The assumption on events at the end of a run covers its beginning. -/
theorem run_good {lim : Bool} {p : Prog μ ε α} {s s' : Machine μ ε} {a : α}
    (h : run L lim p s = .ok a s') (hg : s'.Good J) : s.Good J := by
  induction p generalizing s with
  | ret a => cases h; exact hg
  | op o k ih =>
    obtain ⟨r, t, h1, h2⟩ := Outcome.bind_eq_ok h
    exact exec_good L J h1 (ih r h2)

theorem run_good_stop {lim : Bool} {p : Prog μ ε α} {s s' : Machine μ ε} {e : Stop}
    (h : run L lim p s = .stop e s') (hg : s'.Good J) : s.Good J := by
  induction p generalizing s with
  | ret a => cases h
  | op o k ih =>
    rw [run] at h
    cases ho : exec L lim o s with
    | ok r t =>
      rw [ho] at h
      exact exec_good L J ho (ih r h)
    | stop e' t =>
      rw [ho] at h
      cases h
      rwa [exec_good_stop L ho] at hg

/-- The weakest precondition of `p` for `Q`. -/
def wp (p : Prog μ ε α) (Q : α → Machine μ ε → Prop) (s : Machine μ ε) : Prop :=
  match run L false p s with
  | .ok a s' => s'.Good J → s.Checked J → s'.Checked J ∧ Q a s'
  | .stop e s' => s'.Good J → s.Checked J → s'.Checked J ∧ J.stop e

variable {L J}
variable {Q Q' : α → Machine μ ε → Prop} {s : Machine μ ε}

theorem wp_ok {p : Prog μ ε α} {a : α} {s' : Machine μ ε} (h : wp L J p Q s)
    (hr : run L false p s = .ok a s') (hg : s'.Good J) (hc : s.Checked J) :
    s'.Checked J ∧ Q a s' := by
  unfold wp at h
  rw [hr] at h
  exact h hg hc

theorem wp_stop {p : Prog μ ε α} {e : Stop} {s' : Machine μ ε} (h : wp L J p Q s)
    (hr : run L false p s = .stop e s') (hg : s'.Good J) (hc : s.Checked J) :
    s'.Checked J ∧ J.stop e := by
  unfold wp at h
  rw [hr] at h
  exact h hg hc

theorem wp_mono {p : Prog μ ε α} (h : wp L J p Q s)
    (hQ : ∀ a s', s'.Good J → Q a s' → Q' a s') : wp L J p Q' s := by
  unfold wp at h ⊢
  cases hr : run L false p s with
  | ok a s' =>
    rw [hr] at h
    exact fun hg hc => (h hg hc).imp_right (hQ a s' hg)
  | stop e s' => rw [hr] at h; exact h

theorem wp_pure {a : α} (h : Q a s) : wp L J (pure a) Q s := fun _ hc => ⟨hc, h⟩

/-- Sequencing: the form in which specifications are applied. -/
theorem wp_bind {p : Prog μ ε α} {f : α → Prog μ ε β} {R : β → Machine μ ε → Prop}
    (h : wp L J p (fun a s' => wp L J (f a) R s') s) : wp L J (p >>= f) R s := by
  unfold wp at h ⊢
  rw [run_bind]
  cases hr : run L false p s with
  | stop e s' => rw [hr] at h; exact h
  | ok a s' =>
    rw [hr] at h
    change (match run L false (f a) s' with
      | .ok b t => t.Good J → s.Checked J → t.Checked J ∧ R b t
      | .stop e t => t.Good J → s.Checked J → t.Checked J ∧ J.stop e)
    cases hf : run L false (f a) s' with
    | ok b t =>
      intro hg hc
      obtain ⟨hc', h'⟩ := h (run_good L J hf hg) hc
      rw [hf] at h'
      exact h' hg hc'
    | stop e t =>
      intro hg hc
      obtain ⟨hc', h'⟩ := h (run_good_stop L J hf hg) hc
      rw [hf] at h'
      exact h' hg hc'

theorem wp_seq {p : Prog μ ε α} {f : α → Prog μ ε β} {R : β → Machine μ ε → Prop}
    (h : wp L J p Q s) (hf : ∀ a s', s'.Good J → Q a s' → wp L J (f a) R s') :
    wp L J (p >>= f) R s :=
  wp_bind (wp_mono h hf)

/-! ### The rules of the operations -/

section Rules

variable {R : Unit → Machine μ ε → Prop}

/-- The machine after locking the buffer of `sec`. -/
def Machine.lock (L : Limits) (s : Machine μ ε) (sec : Nat) : Machine μ ε :=
  { s with busy := insert sec s.busy, passed := s.passed || decide (L.nbuf < s.need sec) }

theorem run_bread {sec : Nat} (h : sec ∉ s.busy) :
    run L false (bread sec : Prog μ ε Block) s = .ok (s.buf sec) (s.lock L sec) := by
  simp only [bread, run, exec, if_neg h, Machine.lock]
  split
  · next hn => simp [hn, Outcome.bind]
  · next hn => simp [hn, Outcome.bind]

theorem wp_bread {sec : Nat} {Q : Block → Machine μ ε → Prop} (hb : sec ∉ s.busy)
    (h : Q (s.buf sec) (s.lock L sec)) : wp L J (bread sec) Q s := by
  unfold wp
  rw [run_bread hb]
  exact fun _ hc => ⟨hc, h⟩

theorem wp_store {sec : Nat} {data : Block}
    (h : R () { s with buf := Function.update s.buf sec data }) :
    wp L J (store sec data) R s := fun _ hc => ⟨hc, h⟩

theorem wp_bwrite {sec : Nat} (hb : sec ∈ s.busy)
    (h : R () { s with
      disk := Function.update s.disk sec (s.buf sec)
      dirty := s.dirty.erase sec
      writes := (sec, s.buf sec) :: s.writes }) :
    wp L J (bwrite sec) R s := by
  simp only [wp, bwrite, run, exec, if_pos hb, Outcome.bind]
  exact fun _ hc => ⟨hc, h⟩

theorem wp_brelse {sec : Nat} (hb : sec ∈ s.busy)
    (h : R () { s with busy := s.busy.erase sec }) : wp L J (brelse sec) R s := by
  simp only [wp, brelse, run, exec, if_pos hb, Outcome.bind]
  exact fun _ hc => ⟨hc, h⟩

theorem wp_pin {sec : Nat} (h : R () { s with dirty := insert sec s.dirty }) :
    wp L J (pin sec) R s := fun _ hc => ⟨hc, h⟩

theorem wp_get {Q : μ → Machine μ ε → Prop} (h : Q s.mem s) : wp L J get Q s :=
  fun _ hc => ⟨hc, h⟩

theorem wp_modify {f : μ → μ} (h : R () { s with mem := f s.mem }) :
    wp L J (modify f) R s := fun _ hc => ⟨hc, h⟩

theorem wp_getModify {f : μ → μ} {Q : μ → Machine μ ε → Prop}
    (h : Q s.mem { s with mem := f s.mem }) : wp L J (getModify f) Q s := fun _ hc => ⟨hc, h⟩

theorem wp_wait {g : μ → Bool} {f : μ → μ}
    (h : g s.mem = true → R () { s with mem := f s.mem })
    (hn : g s.mem = false → J.stop .deadlock) : wp L J (wait g f) R s := by
  simp only [wp, Device.wait, run, exec]
  cases hg : g s.mem with
  | true => exact fun _ hc => ⟨hc, h hg⟩
  | false => exact fun _ hc => ⟨hc, hn hg⟩

theorem wp_limit {g : μ → Bool} {msg : String}
    (h : R () { s with passed := s.passed || !g s.mem }) : wp L J (limit g msg) R s := by
  simp only [wp, limit, run, exec]
  cases hg : g s.mem with
  | true =>
    simp only [hg, Bool.not_true, Bool.or_false] at h
    exact fun _ hc => ⟨hc, h⟩
  | false =>
    simp only [hg, Bool.not_false, Bool.or_true] at h
    exact fun _ hc => ⟨hc, h⟩

theorem wp_emit {e : Machine μ ε → ε}
    (h : J.good (e s) → J.check (e s) ∧ R () { s with events := e s :: s.events }) :
    wp L J (emit e) R s := by
  intro hg hc
  obtain ⟨he, hr⟩ := h (hg (e s) List.mem_cons_self)
  refine ⟨fun e' he' => ?_, hr⟩
  rcases List.mem_cons.mp he' with rfl | he'
  · exact he
  · exact hc e' he'

theorem wp_halt {msg : String} (h : J.stop (.panic msg)) : wp L J (halt msg) Q s :=
  fun _ hc => ⟨hc, h⟩

theorem wp_yield (h : R () s) : wp L J yield R s := fun _ hc => ⟨hc, h⟩

end Rules

end Device
