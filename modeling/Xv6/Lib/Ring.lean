import Mathlib

/-!
# Ring buffers with wrapping counters

A ring buffer of `size` places under 32-bit counters that are never reset. The counters are the
numbers of elements written and read so far, modulo `2 ^ 32`; an element is stored at its
number modulo `size`. `Holds size buf l lo` says that the buffer holds what the list `l` of all
elements written so far has from position `lo` on.
-/

namespace Ring

/-! ### Counters -/

theorem toNat_ofNat (a : Nat) : (UInt32.ofNat a).toNat = a % 2 ^ 32 := UInt32.toNat_ofNat'

theorem ofNat_inj {a b : Nat} (h : b ≤ a) (hlt : a < b + 2 ^ 32) :
    UInt32.ofNat a = UInt32.ofNat b ↔ a = b := by
  rw [← UInt32.toNat_inj, toNat_ofNat, toNat_ofNat]
  omega

theorem toNat_sub {a b : Nat} (h : b ≤ a) (hlt : a < b + 2 ^ 32) :
    (UInt32.ofNat a - UInt32.ofNat b).toNat = a - b := by
  rw [UInt32.toNat_sub, toNat_ofNat, toNat_ofNat]
  omega

theorem toNat_mod {size : Nat} (hdvd : size ∣ 2 ^ 32) (hlt : size < 2 ^ 32) (a : Nat) :
    (UInt32.ofNat a % UInt32.ofNat size).toNat = a % size := by
  rw [UInt32.toNat_mod, toNat_ofNat, toNat_ofNat, Nat.mod_eq_of_lt hlt, Nat.mod_mod_of_dvd _ hdvd]

/-! ### Contents -/

variable {α : Type} {size : Nat} {buf : Nat → α} {l : List α} {lo : Nat} {x : α}

/-- What was read, followed by the element that is read next, is a beginning of what was written. -/
theorem isPrefix_next {m : List α} (h : l <+: m) (hlt : l.length < m.length) :
    l ++ [m.get ⟨l.length, hlt⟩] <+: m := by
  obtain ⟨t, rfl⟩ := h
  cases t with
  | nil => simp at hlt
  | cons x t =>
    refine ⟨t, ?_⟩
    simp

/-- The buffer holds what `l` has from `lo` on. -/
structure Holds (size : Nat) (buf : Nat → α) (l : List α) (lo : Nat) : Prop where
  le : lo ≤ l.length
  room : l.length ≤ lo + size
  stored : ∀ i, lo ≤ i → ∀ h : i < l.length, buf (i % size) = l[i]

theorem holds_nil : Holds size buf [] 0 := ⟨Nat.le_refl 0, Nat.zero_le _, nofun⟩

namespace Holds

theorem front (h : Holds size buf l lo) (hlt : lo < l.length) : buf (lo % size) = l[lo] :=
  h.stored lo (Nat.le_refl lo) hlt

theorem pop (h : Holds size buf l lo) (hlt : lo < l.length) : Holds size buf l (lo + 1) where
  le := hlt
  room := by have := h.room; omega
  stored i hi := h.stored i (by omega)

/-- An element is written where nothing that is still needed is stored. -/
theorem push (h : Holds size buf l lo) (hroom : l.length < lo + size) :
    Holds size (Function.update buf (l.length % size) x) (l ++ [x]) lo where
  le := by have := h.le; simp; omega
  room := by simp; omega
  stored i hi hlt := by
    rw [List.length_append, List.length_singleton] at hlt
    rcases Nat.lt_succ_iff_lt_or_eq.mp hlt with hi' | rfl
    · have hne : i % size ≠ l.length % size := fun he => by
        -- two numbers with the same remainder are at least `size` apart
        have h1 := Nat.div_add_mod i size
        have h2 := Nat.div_add_mod l.length size
        have hdiv : i / size < l.length / size := by
          by_contra hge
          have := Nat.mul_le_mul_left size (Nat.le_of_not_lt hge)
          omega
        have := Nat.mul_le_mul_left size hdiv
        rw [Nat.mul_succ] at this
        omega
      rw [Function.update_of_ne hne, List.getElem_append_left hi']
      exact h.stored i hi hi'
    · rw [Function.update_self, List.getElem_append_right (Nat.le_refl _)]
      simp

theorem unpush (h : Holds size buf (l ++ [x]) lo) (hle : lo ≤ l.length) : Holds size buf l lo where
  le := hle
  room := by
    have := h.room
    rw [List.length_append, List.length_singleton] at this
    omega
  stored i hi hlt := by
    rw [h.stored i hi (by simp; omega), List.getElem_append_left hlt]

theorem last (h : Holds size buf (l ++ [x]) lo) (hle : lo ≤ l.length) :
    buf (l.length % size) = x := by
  rw [h.stored l.length hle (by simp), List.getElem_append_right (Nat.le_refl _)]
  simp

theorem contents (h : Holds size buf l lo) :
    (List.range (l.length - lo)).map (fun i => buf ((lo + i) % size)) = l.drop lo := by
  refine List.ext_getElem (by simp) fun i h1 h2 => ?_
  rw [List.length_drop] at h2
  rw [List.getElem_map, List.getElem_range, List.getElem_drop]
  exact h.stored (lo + i) (Nat.le_add_right _ _) (by omega)

end Holds

end Ring
