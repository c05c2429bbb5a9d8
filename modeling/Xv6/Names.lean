import Xv6.ReadWrite
import Xv6.Sysfile

/-!
# Names and directory entries

A name is compared by its bytes up to a NUL or to `DIRSIZ`: `nameOf` is what `namecmp` sees
of it, and what `strncpy` keeps of it. A directory is a byte string of entries of
`DESIZE` bytes; `direntAt` is the entry in a slot, and writing an entry at the offset of a
slot changes that slot only.
-/

open Bytes Device

namespace Xv6

/-! ### Names -/

/-- The bytes of a name from `i` on, up to a NUL and at most `n`. -/
def nameFrom (p : Nat → UInt8) : Nat → Nat → List UInt8
  | 0, _ => []
  | n + 1, i => if p i = 0 then [] else p i :: nameFrom p n (i + 1)

/-- What counts of a name in a field of `DIRSIZ` bytes. -/
def nameOf (p : Nat → UInt8) : List UInt8 := nameFrom p DIRSIZ 0

theorem nameFrom_congr {p q : Nat → UInt8} {n : Nat} :
    ∀ {i : Nat}, (∀ k, i ≤ k → k < i + n → p k = q k) → nameFrom p n i = nameFrom q n i := by
  induction n with
  | zero => intro i _; rfl
  | succ n ih =>
    intro i h
    rw [nameFrom, nameFrom, h i le_rfl (by omega), ih fun k h1 h2 => h k (by omega) (by omega)]

theorem strncmp_eq_zero_iff {p q : Nat → UInt8} {n : Nat} :
    ∀ {i : Nat}, strncmp p q n i = 0 ↔ nameFrom p n i = nameFrom q n i := by
  induction n with
  | zero => intro i; simp [strncmp, nameFrom]
  | succ n ih =>
    intro i
    have hsub : ((p i).toNat : Int) - (q i).toNat = 0 ↔ p i = q i := by
      rw [← UInt8.toNat_inj]
      omega
    rw [strncmp, nameFrom, nameFrom]
    by_cases h0 : p i = 0
    · rw [if_neg (fun h => h.1 h0), if_pos h0, hsub, h0]
      by_cases h1 : q i = 0
      · simp [h1]
      · rw [if_neg h1]
        simp [Ne.symm h1]
    · by_cases h1 : p i = q i
      · rw [if_pos ⟨h0, h1⟩, if_neg h0, if_neg (h1 ▸ h0), ih, h1]
        simp
      · rw [if_neg (fun h => h1 h.2), if_neg h0, hsub]
        refine iff_of_false h1 fun h => ?_
        by_cases h2 : q i = 0
        · rw [if_pos h2] at h
          cases h
        · rw [if_neg h2] at h
          exact h1 (List.cons.inj h).1

theorem namecmp_eq_zero_iff {p q : Nat → UInt8} : namecmp p q = 0 ↔ nameOf p = nameOf q :=
  strncmp_eq_zero_iff

theorem nameFrom_strncpy {t : Nat → UInt8} {N n : Nat} :
    ∀ {i : Nat}, i + n ≤ N → (∀ j < i, t j ≠ 0) →
      nameFrom (strncpy t N) n i = nameFrom t n i := by
  induction n with
  | zero => intro i _ _; rfl
  | succ n ih =>
    intro i hi hj
    have ht : strncpy t N i = t i := if_pos ⟨by omega, hj⟩
    rw [nameFrom, nameFrom, ht]
    by_cases h0 : t i = 0
    · rw [if_pos h0, if_pos h0]
    · rw [if_neg h0, if_neg h0, ih (by omega)]
      intro j hji
      rcases (by omega : j < i ∨ j = i) with h | rfl
      · exact hj j h
      · exact h0

theorem nameOf_strncpy (t : Nat → UInt8) : nameOf (strncpy t DIRSIZ) = nameOf t :=
  nameFrom_strncpy (by omega) fun _ h => absurd h (Nat.not_lt_zero _)

/-! ### Entries of a byte string -/

/-- What counts of the bytes of a directory entry: nothing if its inode number is 0, otherwise
the number and the name. -/
def slotEntry (b : Nat → UInt8) : Option (Nat × List UInt8) :=
  if (getDirent b).inum = 0 then none else some ((getDirent b).inum, nameOf (getDirent b).name)

/-- The entry in slot `s` of a directory of the given size and contents. -/
def dirEntry (size : Nat) (byte : Nat → UInt8) (s : Nat) : Option (Nat × List UInt8) :=
  if s < size / DESIZE then slotEntry fun x => byte (DESIZE * s + x) else none

theorem slotEntry_congr {b b' : Nat → UInt8} (h : ∀ x < DESIZE, b x = b' x) :
    slotEntry b = slotEntry b' := by
  have h1 : (getDirent b).inum = (getDirent b').inum :=
    getLE_congr fun x _ h2 => h x (by unfold DESIZE; omega)
  have h2 : nameOf (getDirent b).name = nameOf (getDirent b').name :=
    nameFrom_congr fun k _ h2 => h (2 + k) (by unfold DESIZE; unfold DIRSIZ at h2; omega)
  rw [slotEntry, slotEntry, h1, h2]

theorem slotEntry_zero : slotEntry zero = none := rfl

theorem slotEntry_eq_none_iff {b : Nat → UInt8} :
    slotEntry b = none ↔ (getDirent b).inum = 0 := by
  unfold slotEntry
  split_ifs with h <;> simp [h]

theorem slotEntry_eq_some_iff {b : Nat → UInt8} {i : Nat} {n : List UInt8} :
    slotEntry b = some (i, n) ↔
      i ≠ 0 ∧ (getDirent b).inum = i ∧ nameOf (getDirent b).name = n := by
  unfold slotEntry
  split_ifs with h
  · simp [h]
    omega
  · simp only [Option.some.injEq, Prod.mk.injEq]
    constructor
    · rintro ⟨rfl, rfl⟩
      exact ⟨h, rfl, rfl⟩
    · rintro ⟨-, rfl, rfl⟩
      exact ⟨rfl, rfl⟩

theorem slotEntry_direntBytes {inum : Nat} (h0 : inum ≠ 0) (h1 : inum < 2 ^ 16)
    (name : List UInt8) :
    slotEntry (direntBytes ⟨inum, strncpy (cname name) DIRSIZ⟩)
      = some (inum, nameOf (cname name)) := by
  refine slotEntry_eq_some_iff.mpr ⟨h0, ?_, ?_⟩
  · rw [getDirent_direntBytes_inum, Nat.mod_eq_of_lt h1]
  · rw [show (getDirent (direntBytes ⟨inum, strncpy (cname name) DIRSIZ⟩)).name
        = strncpy (cname name) DIRSIZ from funext (getDirent_direntBytes_name _), nameOf_strncpy]

theorem slotEntry_read (byte : Nat → UInt8) (s : Nat) :
    slotEntry (overlay zero 0 DESIZE fun x => byte (DESIZE * s + x))
      = slotEntry fun x => byte (DESIZE * s + x) :=
  slotEntry_congr fun x hx => by rw [overlay_of_mem (by omega) (by omega), Nat.sub_zero]

theorem dirEntry_of_lt {size s : Nat} {byte : Nat → UInt8} (h : s < size / DESIZE) :
    dirEntry size byte s = slotEntry fun x => byte (DESIZE * s + x) := if_pos h

theorem lt_of_dirEntry {size s : Nat} {byte : Nat → UInt8} {e : Nat × List UInt8}
    (h : dirEntry size byte s = some e) : s < size / DESIZE := by
  by_contra hlt
  rw [dirEntry, if_neg hlt] at h
  cases h

/-- Writing an entry in a slot up to the end of the directory changes this slot only. -/
theorem dirEntry_overlaid {size s : Nat} {byte src : Nat → UInt8} (hs : s ≤ size / DESIZE)
    (hsize : size % DESIZE = 0) (s' : Nat) :
    dirEntry (max size (DESIZE * s + DESIZE)) (overlaid byte (DESIZE * s) DESIZE src) s'
      = if s' = s then slotEntry src else dirEntry size byte s' := by
  unfold DESIZE at *
  by_cases h : s' = s
  · subst h
    rw [if_pos rfl, dirEntry, if_pos (by unfold DESIZE; omega)]
    refine slotEntry_congr fun x hx => ?_
    unfold DESIZE at hx ⊢
    rw [overlaid, if_pos (by omega), Nat.add_sub_cancel_left]
  · rw [if_neg h, dirEntry, dirEntry]
    unfold DESIZE
    by_cases hlt : s' < size / 16
    · rw [if_pos hlt, if_pos (by omega)]
      refine slotEntry_congr fun x hx => ?_
      unfold DESIZE at hx
      rw [overlaid, if_neg (by omega)]
    · rw [if_neg hlt, if_neg (by omega)]

end Xv6
