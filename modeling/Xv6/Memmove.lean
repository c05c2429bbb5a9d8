import Mathlib

/-!
# The two `memmove`

`memmove` of the kernel (`string.c`) and of the user library (`ulib.c`). The kernel copies from the
end where the destination begins inside the source; the user library always copies from the
beginning, and there spreads the bytes before the destination over it (`copyUp_shift`): it moves
the source only if that repeats itself (`memmoves_agree_iff`).
-/

open Function

namespace Xv6

namespace Memmove

variable {α : Type}

/-- `while(n-- > 0) *d++ = *s++` -/
def copyUp : Nat → Nat → Nat → (Nat → α) → Nat → α
  | 0, _, _, mem => mem
  | n + 1, d, s, mem => copyUp n (d + 1) (s + 1) (update mem d (mem s))

/-- `while(n-- > 0) *--d = *--s` -/
def copyDown : Nat → Nat → Nat → (Nat → α) → Nat → α
  | 0, _, _, mem => mem
  | n + 1, d, s, mem => copyDown n (d - 1) (s - 1) (update mem (d - 1) (mem (s - 1)))

/-- `memmove` of `string.c`. -/
def kmemmove (dst src n : Nat) (mem : Nat → α) : Nat → α :=
  if src < dst ∧ (src + n) % 2 ^ 32 > dst then copyDown n (dst + n) (src + n) mem
  else copyUp n dst src mem

/-- `memmove` of `ulib.c`. -/
def umemmove (dst src : Nat) (n : Int) (mem : Nat → α) : Nat → α := copyUp n.toNat dst src mem

/-- What both are for: the bytes of the source as they were, at the destination. -/
def moved (dst src n : Nat) (mem : Nat → α) : Nat → α := fun a =>
  if dst ≤ a ∧ a < dst + n then mem (src + (a - dst)) else mem a

variable {d s n a i : Nat} {mem : Nat → α}

theorem moved_add (h : i < n) : moved d s n mem (d + i) = mem (s + i) := by
  rw [moved, if_pos (by omega), Nat.add_sub_cancel_left]

theorem moved_of_not (h : ¬ (d ≤ a ∧ a < d + n)) : moved d s n mem a = mem a := if_neg h

/-- A memory is the moved one if it is so at the destination and elsewhere. -/
theorem eq_moved {mem' : Nat → α} (hin : ∀ i < n, mem' (d + i) = mem (s + i))
    (hout : ∀ a, ¬ (d ≤ a ∧ a < d + n) → mem' a = mem a) : mem' = moved d s n mem := by
  funext a
  by_cases ha : d ≤ a ∧ a < d + n
  · obtain ⟨i, rfl⟩ := Nat.exists_eq_add_of_le ha.1
    rw [moved_add (by omega)]
    exact hin i (by omega)
  · rw [moved_of_not ha]
    exact hout a ha

theorem copyUp_of_not : ∀ n d s (mem : Nat → α), ¬ (d ≤ a ∧ a < d + n) → copyUp n d s mem a = mem a := by
  intro n
  induction n with
  | zero => exact fun _ _ _ _ => rfl
  | succ n ih =>
    intro d s mem ha
    rw [copyUp, ih _ _ _ (by omega)]
    exact update_of_ne (by omega) ..

theorem copyUp_first : copyUp (n + 1) d s mem d = mem s :=
  (copyUp_of_not n (d + 1) (s + 1) _ (by omega)).trans (update_self ..)

/-- If the destination is not inside the source, each byte is read before it is overwritten. -/
theorem copyUp_eq : ∀ n d s (mem : Nat → α), d ≤ s ∨ s + n ≤ d → copyUp n d s mem = moved d s n mem := by
  intro n
  induction n with
  | zero => exact fun d s mem _ => eq_moved (fun i hi => absurd hi (Nat.not_lt_zero i)) fun _ _ => rfl
  | succ n ih =>
    intro d s mem hds
    refine eq_moved (fun i hi => ?_) fun a ha => copyUp_of_not _ _ _ _ ha
    cases i with
    | zero => exact copyUp_first
    | succ i =>
      rw [copyUp, ih _ _ _ (by omega), show d + (i + 1) = d + 1 + i by omega, moved_add (by omega),
        update_of_ne (by omega), show s + (i + 1) = s + 1 + i by omega]

/-- From the end, the destination may begin inside the source. -/
theorem copyDown_eq : ∀ n (mem : Nat → α), s ≤ d → copyDown n (d + n) (s + n) mem = moved d s n mem := by
  intro n
  induction n with
  | zero => exact fun mem _ => eq_moved (fun i hi => absurd hi (Nat.not_lt_zero i)) fun _ _ => rfl
  | succ n ih =>
    intro mem hsd
    change copyDown n (d + n) (s + n) (update mem (d + n) (mem (s + n))) = _
    rw [ih _ hsd]
    refine eq_moved (fun i hi => ?_) fun a ha => ?_
    · -- the last byte is already there, and the others are read where nothing has been written
      rcases Nat.lt_succ_iff_lt_or_eq.mp hi with hi | rfl
      · rw [moved_add hi, update_of_ne (by omega)]
      · rw [moved_of_not (by omega), update_self]
    · rw [moved_of_not (by omega), update_of_ne (by omega)]

/-- From the beginning into the source itself: the destination repeats what is before it. -/
theorem copyUp_shift : ∀ n d s (mem : Nat → α), s < d → ∀ i < n,
    copyUp n d s mem (d + i) = copyUp n d s mem (s + i) := by
  intro n
  induction n with
  | zero => exact fun _ _ _ _ i hi => absurd hi (Nat.not_lt_zero i)
  | succ n ih =>
    intro d s mem hsd i hi
    cases i with
    | zero => exact copyUp_first.trans (copyUp_of_not (n + 1) d s mem (by omega)).symm
    | succ i =>
      have hi := ih (d + 1) (s + 1) (update mem d (mem s)) (by omega) i (by omega)
      rwa [show d + (i + 1) = d + 1 + i by omega, show s + (i + 1) = s + 1 + i by omega]

/-- The source repeats itself at the distance of the destination. -/
def Periodic (dst src n : Nat) (mem : Nat → α) : Prop :=
  ∀ i, i + (dst - src) < n → mem (src + i) = mem (src + i + (dst - src))

theorem copyUp_eq_iff (hsd : s < d) : copyUp n d s mem = moved d s n mem ↔ Periodic d s n mem := by
  constructor
  · intro h i hi
    -- the byte at distance `d - s` is a copy of the byte that was copied here
    have hstep := copyUp_shift n d s mem hsd (i + (d - s)) hi
    rw [h, show s + (i + (d - s)) = d + i by omega, moved_add hi, moved_add (by omega)] at hstep
    rw [Nat.add_assoc]
    exact hstep.symm
  · intro hper
    refine eq_moved (fun i => ?_) fun a ha => copyUp_of_not _ _ _ _ ha
    induction i using Nat.strongRecOn with
    | _ i ih =>
      intro hi
      rw [copyUp_shift n d s mem hsd i hi]
      by_cases hlt : i < d - s
      · exact copyUp_of_not _ _ _ _ (by omega)
      · calc copyUp n d s mem (s + i) = copyUp n d s mem (d + (i - (d - s))) := by
              congr 1
              omega
          _ = mem (s + (i - (d - s))) := ih _ (by omega) (by omega)
          _ = mem (s + (i - (d - s)) + (d - s)) := hper _ (by omega)
          _ = mem (s + i) := by
              congr 1
              omega

/-- The kernel's `memmove` moves, however the ranges overlap. -/
theorem kmemmove_eq (hd : d + n ≤ 2 ^ 32) : kmemmove d s n mem = moved d s n mem := by
  rw [kmemmove]
  split
  · next h => exact copyDown_eq n mem (Nat.le_of_lt h.1)
  · next h =>
    refine copyUp_eq n d s mem ?_
    by_contra hno
    -- the sum does not wrap where it is looked at
    rw [Nat.mod_eq_of_lt (by omega)] at h
    omega

/-- **The two `memmove` agree unless the destination begins inside the source.** The kernel's always
moves the bytes; that of the user library does so if and only if the destination is not behind the
beginning of the source or the source repeats itself at that distance. -/
theorem memmoves_agree_iff (dst src n : Nat) (mem : Nat → UInt8) (hdst : dst + n ≤ 2 ^ 32) :
    kmemmove dst src n mem = moved dst src n mem ∧
      (umemmove dst src n mem = kmemmove dst src n mem ↔ dst ≤ src ∨ Periodic dst src n mem) := by
  have hk : kmemmove dst src n mem = moved dst src n mem := kmemmove_eq hdst
  refine ⟨hk, ?_⟩
  rw [hk, umemmove, Int.toNat_natCast]
  rcases Nat.lt_or_ge src dst with hlt | hle
  · rw [copyUp_eq_iff hlt, or_iff_right (Nat.not_le_of_lt hlt)]
  · exact iff_of_true (copyUp_eq n dst src mem (.inl hle)) (.inl hle)

/-- A memory with one byte. -/
def oneByte : Nat → UInt8 := fun a => if a = 0 then 7 else 0

theorem memmoves_agree_down : umemmove 3 4 2 oneByte = kmemmove 3 4 2 oneByte :=
  (memmoves_agree_iff 3 4 2 oneByte (by decide)).2.mpr (.inl (by decide))

/-- Two bytes, moved up by one. -/
theorem memmoves_differ : umemmove 1 0 2 oneByte 2 = 7 ∧ kmemmove 1 0 2 oneByte 2 = 0 := by decide

end Memmove

end Xv6
