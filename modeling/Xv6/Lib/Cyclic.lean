import Mathlib

/-!
# Scans around a ring of places

A table of `n` places is searched from a place `start` on, round the end of the table, for the first
place that has a property. `First` says which one that is, `scan` is the loop that finds it, and
`First.step` says how a position that always moves on to the first such place goes round.
-/

namespace Xv6

namespace Cyclic

/-- `j` is the first place with `P` in the order `start, start + 1, …` around `n` places. -/
def First (n : Nat) (P : Nat → Prop) (start j : Nat) : Prop :=
  ∃ d < n, j = (start + d) % n ∧ P j ∧ ∀ e < d, ¬ P ((start + e) % n)

/-- The loop that looks for such a place, for `k` rounds. -/
def scan (n : Nat) (P : Nat → Prop) [DecidablePred P] : Nat → Nat → Option Nat
  | 0, _ => none
  | k + 1, start => if P start then some start else scan n P k ((start + 1) % n)

variable {n k start j a b r : Nat} {P Q : Nat → Prop}

theorem next_add (e : Nat) : ((start + 1) % n + e) % n = (start + (e + 1)) % n := by
  rw [Nat.mod_add_mod, Nat.add_assoc, Nat.add_comm 1 e]

section Scan

variable [DecidablePred P]

theorem scan_eq_some (hstart : start < n) (h : scan n P k start = some j) :
    ∃ d < k, j = (start + d) % n ∧ P j ∧ ∀ e < d, ¬ P ((start + e) % n) := by
  induction k generalizing start with
  | zero => cases h
  | succ k ih =>
    rw [scan] at h
    split at h
    · next hp =>
      cases h
      exact ⟨0, Nat.succ_pos k, (Nat.mod_eq_of_lt hstart).symm, hp, nofun⟩
    · next hp =>
      obtain ⟨d, hd, hj, hpj, hnone⟩ := ih (Nat.mod_lt _ (by omega)) h
      refine ⟨d + 1, by omega, by rw [hj, next_add], hpj, fun e he => ?_⟩
      -- the places before are `start` and those that the rest of the loop has passed
      cases e with
      | zero => rwa [Nat.add_zero, Nat.mod_eq_of_lt hstart]
      | succ e =>
        rw [← next_add]
        exact hnone e (by omega)

/-- The loop goes on only if all the places that it has seen lack the property. -/
theorem scan_eq_none (hstart : start < n) (h : scan n P k start = none) :
    ∀ d < k, ¬ P ((start + d) % n) := by
  induction k generalizing start with
  | zero => exact nofun
  | succ k ih =>
    rw [scan] at h
    split at h
    · cases h
    · next hp =>
      intro d hd
      cases d with
      | zero => rwa [Nat.add_zero, Nat.mod_eq_of_lt hstart]
      | succ d =>
        rw [← next_add]
        exact ih (Nat.mod_lt _ (by omega)) h d (by omega)

/-- Without such a place the loop never ends. -/
theorem scan_none (hn : 0 < n) (hstart : start < n) (h : ∀ i < n, ¬ P i) (k : Nat) :
    scan n P k start = none := by
  induction k generalizing start with
  | zero => rfl
  | succ k ih => rw [scan, if_neg (h start hstart), ih (Nat.mod_lt _ hn)]

theorem First.of_scan (hstart : start < n) (h : scan n P n start = some j) : First n P start j :=
  scan_eq_some hstart h

end Scan

theorem mod_eq_ite {x : Nat} (hx : x < n + n) : x % n = if x < n then x else x - n := by
  split
  · next h => exact Nat.mod_eq_of_lt h
  · next h => rw [Nat.mod_eq_sub_mod (by omega), Nat.mod_eq_of_lt (by omega)]

theorem exists_dist (hstart : start < n) (hb : b < n) : ∃ d < n, b = (start + d) % n := by
  by_cases h : start ≤ b
  · refine ⟨b - start, by omega, ?_⟩
    rw [Nat.add_sub_cancel' h, Nat.mod_eq_of_lt hb]
  · refine ⟨b + n - start, by omega, ?_⟩
    rw [Nat.add_sub_cancel' (by omega), Nat.add_mod_right, Nat.mod_eq_of_lt hb]

theorem exists_scan [DecidablePred P] (hstart : start < n) (hb : b < n) (hp : P b) :
    ∃ j, scan n P n start = some j := by
  cases hs : scan n P n start with
  | some j => exact ⟨j, rfl⟩
  | none =>
    obtain ⟨d, hd, rfl⟩ := exists_dist hstart hb
    exact absurd hp (scan_eq_none hstart hs d hd)

theorem First.lt (h : First n P start j) : j < n := by
  obtain ⟨d, hd, rfl, -⟩ := h
  exact Nat.mod_lt _ (by omega)

theorem First.holds (h : First n P start j) : P j := by
  obtain ⟨-, -, -, hp, -⟩ := h
  exact hp

theorem First.congr (h : First n P start j) (hpq : ∀ i < n, P i ↔ Q i) : First n Q start j := by
  obtain ⟨d, hd, hj, hp, hnone⟩ := h
  have hn : 0 < n := by omega
  refine ⟨d, hd, hj, (hpq j (hj ▸ Nat.mod_lt _ hn)).mp hp, fun e he hq => ?_⟩
  exact hnone e he ((hpq _ (Nat.mod_lt _ hn)).mpr hq)

/-- If the search that begins behind `r` comes back to `r`, no other place has the property. -/
theorem First.eq_of_self (h : First n P ((r + 1) % n) r) (hb : b < n) (hp : P b) : b = r := by
  obtain ⟨d, hd, hr, -, hnone⟩ := h
  have hrn : r < n := hr ▸ Nat.mod_lt _ (by omega)
  rw [next_add, mod_eq_ite (by omega)] at hr
  obtain ⟨e, he, hbe⟩ := exists_dist (Nat.mod_lt (r + 1) (by omega)) hb
  by_contra hne
  rw [hbe] at hp
  refine hnone e ?_ hp
  -- `d` is the whole way round, so only `r` itself is as far as that
  rw [next_add, mod_eq_ite (by omega)] at hbe
  split at hr <;> split at hbe <;> omega

/-- How far `r` is from `a`. -/
def gone (n a r : Nat) : Nat := (r + n - a) % n

/-- How far `j` is from `a`, where `a` itself is a whole way round. -/
def goal (n a j : Nat) : Nat := if j = a then n else gone n a j

theorem gone_eq (ha : a < n) (hr : r < n) : gone n a r = if a ≤ r then r - a else r + n - a := by
  rw [gone, mod_eq_ite (by omega)]
  split <;> split <;> omega

@[simp] theorem gone_self (n a : Nat) : gone n a a = 0 := by
  rw [gone, Nat.add_sub_cancel_left, Nat.mod_self]

@[simp] theorem goal_self (n a : Nat) : goal n a a = n := if_pos rfl

theorem goal_of_ne (h : j ≠ a) : goal n a j = gone n a j := if_neg h

theorem gone_lt (hn : 0 < n) : gone n a r < n := Nat.mod_lt _ hn

theorem gone_inj (ha : a < n) (hr : r < n) (hb : b < n) (h : gone n a r = gone n a b) : r = b := by
  rw [gone_eq ha hr, gone_eq ha hb] at h
  split at h <;> split at h <;> omega

theorem goal_add (ha : a < n) (hr : r < n) {e : Nat} (he : e < n) :
    goal n a ((r + (e + 1)) % n) =
      if gone n a r + (e + 1) ≤ n then gone n a r + (e + 1) else gone n a r + (e + 1) - n := by
  rw [mod_eq_ite (by omega), goal, gone_eq ha hr, gone]
  -- the place is behind `r` or round the end, and before or after `a`
  split <;> split
  · split <;> split <;> omega
  · rw [mod_eq_ite (by omega)]
    split <;> split <;> split <;> omega
  · split <;> split <;> omega
  · rw [mod_eq_ite (by omega)]
    split <;> split <;> split <;> omega

/-- Seen from a place `a` with the property, going on from `r` to the next such place is a way
forward that passes no place with the property. -/
theorem First.step (ha : a < n) (hr : r < n) (hpa : P a) (h : First n P ((r + 1) % n) j) :
    gone n a r < goal n a j ∧
      ∀ b < n, P b → gone n a r < goal n a b → goal n a j ≤ goal n a b := by
  obtain ⟨d, hd, hjd, -, hnone⟩ := h
  -- a place with the property is not among the `d` that were passed
  have hfar : ∀ b < n, P b → ∃ e < n, d ≤ e ∧ goal n a b =
      if gone n a r + (e + 1) ≤ n then gone n a r + (e + 1) else gone n a r + (e + 1) - n :=
    fun b hb hpb => by
      obtain ⟨e, he, hbe⟩ := exists_dist (Nat.mod_lt (r + 1) (by omega)) hb
      refine ⟨e, he, ?_, ?_⟩
      · by_contra hlt
        exact hnone e (by omega) (hbe ▸ hpb)
      · rw [hbe, next_add, goal_add ha hr he]
  have hgone : gone n a r < n := gone_lt (by omega)
  -- `a` is ahead, so the way to `j` does not go past it
  have hj : goal n a j = gone n a r + (d + 1) := by
    obtain ⟨e, he, hde, hga⟩ := hfar a ha hpa
    rw [goal_self] at hga
    rw [hjd, next_add, goal_add ha hr hd, if_pos]
    split at hga <;> omega
  refine ⟨by omega, fun b hb hpb hlt => ?_⟩
  obtain ⟨e, he, hde, hgb⟩ := hfar b hb hpb
  split at hgb <;> omega

end Cyclic

end Xv6
