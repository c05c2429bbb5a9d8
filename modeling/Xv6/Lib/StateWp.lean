import Mathlib

/-!
# Weakest preconditions of stateful code that may stop

`wp E x Q s`: run from `s`, the code `x` returns a result and a state that satisfy `Q`, or it
stops with something that `E` allows. With `E` everywhere true this is partial correctness; with
`E` everywhere false it is total.

The rules are equivalences, tagged for `simp`.
-/

namespace StateWp

variable {σ ε α β : Type}

/-- The weakest precondition of `x` for `Q`, with the stops `E`. -/
def wp (E : ε → Prop) (x : StateT σ (Except ε) α) (Q : α → σ → Prop) (s : σ) : Prop :=
  match x s with
  | .ok (a, s') => Q a s'
  | .error e => E e

variable {E : ε → Prop} {x : StateT σ (Except ε) α} {f : α → StateT σ (Except ε) β}
  {Q Q' : α → σ → Prop} {R : β → σ → Prop} {s : σ} {a : α} {e : ε}

theorem wp_mono (h : wp E x Q s) (hQ : ∀ a s', Q a s' → Q' a s') : wp E x Q' s := by
  unfold wp at h ⊢
  split at h
  · exact hQ _ _ h
  · exact h

theorem wp_mono_stop {E' : ε → Prop} (h : wp E x Q s) (hE : ∀ e, E e → E' e)
    (hQ : ∀ a s', Q a s' → Q' a s') : wp E' x Q' s := by
  unfold wp at h ⊢
  split at h
  · exact hQ _ _ h
  · exact hE _ h

theorem wp_const {p : Prop} (h : p) : wp (fun _ => True) x (fun _ _ => p) s := by
  unfold wp
  split
  · exact h
  · trivial

@[simp] theorem wp_pure : wp E (pure a) Q s ↔ Q a s := Iff.rfl

@[simp] theorem wp_bind : wp E (x >>= f) R s ↔ wp E x (fun a s' => wp E (f a) R s') s := by
  unfold wp
  change (match (x s >>= fun p => f p.1 p.2) with | .ok (b, s') => R b s' | .error e => E e) ↔ _
  cases x s with
  | ok p => rfl
  | error e => rfl

/-- What the second part of a program shows whatever the first does. -/
theorem wp_bind_right (h : ∀ a s', wp (fun _ => True) (f a) R s') : wp (fun _ => True) (x >>= f) R s :=
  wp_bind.mpr (wp_mono (wp_const trivial) fun a s' _ => h a s')

@[simp] theorem wp_get {Q : σ → σ → Prop} :
    wp E (get : StateT σ (Except ε) σ) Q s ↔ Q s s := Iff.rfl

@[simp] theorem wp_modify {g : σ → σ} {Q : PUnit → σ → Prop} :
    wp E (modify g : StateT σ (Except ε) PUnit) Q s ↔ Q ⟨⟩ (g s) := Iff.rfl

@[simp] theorem wp_throw : wp E (throw e : StateT σ (Except ε) α) Q s ↔ E e := Iff.rfl

theorem wp_of_ok {s' : σ} (h : x s = .ok (a, s')) : wp E x Q s ↔ Q a s' := by
  rw [wp, h]

theorem wp_of_error (h : x s = .error e) : wp E x Q s ↔ E e := by
  rw [wp, h]

theorem wp_congr {y : StateT σ (Except ε) α} (h : x s = y s) : wp E x Q s ↔ wp E y Q s := by
  rw [wp, wp, h]

/-- Partial correctness, for a run that returns. -/
theorem wp_elim {s' : σ} (h : wp E x Q s) (hr : x s = .ok (a, s')) : Q a s' := (wp_of_ok hr).mp h

/-- Code that cannot stop returns. -/
theorem wp_returns (h : wp (fun _ => False) x Q s) : ∃ a s', x s = .ok (a, s') ∧ Q a s' := by
  cases hx : x s with
  | ok p => exact ⟨p.1, p.2, rfl, (wp_of_ok hx).mp h⟩
  | error e => exact ((wp_of_error hx).mp h).elim

theorem bind_congr_at {y : StateT σ (Except ε) α} {g : α → StateT σ (Except ε) β} (hx : x s = y s)
    (hf : ∀ a s', y s = .ok (a, s') → f a s' = g a s') : (x >>= f) s = (y >>= g) s := by
  change (x s >>= fun p => f p.1 p.2) = (y s >>= fun p => g p.1 p.2)
  rw [hx]
  cases hy : y s with
  | ok p => exact hf p.1 p.2 hy
  | error e => rfl

end StateWp
