import Mathlib

/-!
# Finite maps in slots

An array whose slots are empty or hold a value under a key is a finite map, if no key is in two slots:
a search from the front finds the slot of a key, filling an empty slot adds a key that was not there,
and emptying a slot removes its key.
-/

namespace SlotMap

variable {K V : Type} [DecidableEq K] {slot : Nat → Option (V × K)} {k key : K} {v : V} {n n' s : Nat}

/-- The first of the `n` slots from `s` on that holds `key`, with its value. -/
def findFrom (slot : Nat → Option (V × K)) (key : K) : Nat → Nat → Option (V × Nat)
  | 0, _ => none
  | n + 1, s =>
    match slot s with
    | some (v, k) => if k = key then some (v, s) else findFrom slot key n (s + 1)
    | none => findFrom slot key n (s + 1)

/-- The first of `n` slots that holds `key`. -/
def find (slot : Nat → Option (V × K)) (n : Nat) (key : K) : Option (V × Nat) := findFrom slot key n 0

/-- No key is in two slots. -/
def Unique (slot : Nat → Option (V × K)) : Prop :=
  ∀ s s' v v' k, slot s = some (v, k) → slot s' = some (v', k) → s = s'

/-- The slots that are not empty are below `n`. -/
def Within (slot : Nat → Option (V × K)) (n : Nat) : Prop := ∀ s, slot s ≠ none → s < n

theorem findFrom_of_some (h : slot s = some (v, key)) :
    findFrom slot key (n + 1) s = some (v, s) := by
  rw [findFrom, h]
  exact if_pos rfl

theorem findFrom_of_ne (h : ∀ v, slot s ≠ some (v, key)) :
    findFrom slot key (n + 1) s = findFrom slot key n (s + 1) := by
  rw [findFrom]
  split
  · next v k hs =>
    refine if_neg ?_
    rintro rfl
    exact h v hs
  · rfl

theorem findFrom_eq_some {t : Nat} (h : findFrom slot key n s = some (v, t)) :
    slot t = some (v, key) := by
  induction n generalizing s with
  | zero => cases h
  | succ n ih =>
    rw [findFrom] at h
    split at h
    · next v' k hs =>
      split at h
      · next hk =>
        cases h
        rw [hs, hk]
      · exact ih h
    · exact ih h

theorem findFrom_eq_none (h : findFrom slot key n s = none) {t : Nat} (h1 : s ≤ t) (h2 : t < s + n) :
    slot t ≠ some (v, key) := by
  induction n generalizing s with
  | zero => omega
  | succ n ih =>
    intro ht
    by_cases hst : t = s
    · subst hst
      rw [findFrom_of_some ht] at h
      cases h
    · by_cases hs : ∃ w, slot s = some (w, key)
      · obtain ⟨w, hs⟩ := hs
        rw [findFrom_of_some hs] at h
        cases h
      · rw [findFrom_of_ne fun w hw => hs ⟨w, hw⟩] at h
        exact ih h (by omega) (by omega) ht

theorem find_eq_none_iff (hn : Within slot n) :
    find slot n key = none ↔ ∀ s v, slot s ≠ some (v, key) := by
  constructor
  · intro h s v hs
    have hlt := hn s (by rw [hs]; exact Option.some_ne_none _)
    exact findFrom_eq_none h (Nat.zero_le s) (by omega) hs
  · intro h
    cases hf : find slot n key with
    | none => rfl
    | some p => exact absurd (findFrom_eq_some hf) (h p.2 p.1)

theorem find_eq_some_iff (hu : Unique slot) (hn : Within slot n) :
    find slot n key = some (v, s) ↔ slot s = some (v, key) := by
  constructor
  · exact findFrom_eq_some
  · intro hs
    cases hf : find slot n key with
    | none => exact absurd hs ((find_eq_none_iff hn).mp hf s v)
    | some p =>
      obtain ⟨v', s'⟩ := p
      have hs' : slot s' = some (v', key) := findFrom_eq_some hf
      obtain rfl := hu s' s v' v key hs' hs
      cases hs.symm.trans hs'
      rfl

section Update

variable {slot' : Nat → Option (V × K)} {e : Option (V × K)}

omit [DecidableEq K] in
theorem Unique.update (hu : Unique slot) (h : ∀ t, slot' t = if t = s then e else slot t)
    (he : ∀ v k, e = some (v, k) → ∀ t v', slot t ≠ some (v', k)) : Unique slot' := by
  intro t t' w w' k ht ht'
  rw [h] at ht ht'
  by_cases h1 : t = s
  · by_cases h2 : t' = s
    · rw [h1, h2]
    · rw [if_pos h1] at ht
      rw [if_neg h2] at ht'
      exact absurd ht' (he w k ht t' w')
  · by_cases h2 : t' = s
    · rw [if_neg h1] at ht
      rw [if_pos h2] at ht'
      exact absurd ht (he w' k ht' t w)
    · rw [if_neg h1] at ht
      rw [if_neg h2] at ht'
      exact hu t t' w w' k ht ht'

theorem find_fill (hu : Unique slot) (hn : Within slot n) (hn' : Within slot' n')
    (h : ∀ t, slot' t = if t = s then some (v, k) else slot t) (hs : slot s = none)
    (hk : find slot n k = none) :
    find slot' n' key = if key = k then some (v, s) else find slot n key := by
  have habs := (find_eq_none_iff hn).mp hk
  have hu' : Unique slot' := by
    refine hu.update h fun v' k' he => ?_
    cases he
    exact habs
  split
  · next hkey =>
    rw [find_eq_some_iff hu' hn', h, if_pos rfl, hkey]
  · next hkey =>
    cases hf : find slot n key with
    | none =>
      rw [find_eq_none_iff hn']
      intro t w ht
      rw [h] at ht
      split at ht
      · cases ht
        exact hkey rfl
      · exact (find_eq_none_iff hn).mp hf t w ht
    | some p =>
      obtain ⟨w, t⟩ := p
      have ht := findFrom_eq_some hf
      rw [find_eq_some_iff hu' hn', h, if_neg, ht]
      rintro rfl
      rw [hs] at ht
      cases ht

theorem find_empty (hu : Unique slot) (hn : Within slot n) (hn' : Within slot' n')
    (h : ∀ t, slot' t = if t = s then none else slot t) (hs : slot s = some (v, k)) :
    find slot' n' key = if key = k then none else find slot n key := by
  have hu' : Unique slot' := hu.update h fun _ _ he => nomatch he
  split
  · next hkey =>
    rw [find_eq_none_iff hn']
    intro t w ht
    rw [h] at ht
    split at ht
    · cases ht
    · next hne => exact hne (hu t s w v k (hkey ▸ ht) hs)
  · next hkey =>
    cases hf : find slot n key with
    | none =>
      rw [find_eq_none_iff hn']
      intro t w ht
      rw [h] at ht
      split at ht
      · cases ht
      · exact (find_eq_none_iff hn).mp hf t w ht
    | some p =>
      obtain ⟨w, t⟩ := p
      have ht := findFrom_eq_some hf
      rw [find_eq_some_iff hu' hn', h, if_neg, ht]
      rintro rfl
      cases hs.symm.trans ht
      exact hkey rfl

end Update

end SlotMap
