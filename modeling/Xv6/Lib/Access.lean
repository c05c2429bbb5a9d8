import Mathlib

/-!
# Computations that record the addresses they access

`Access A α` is a result together with the addresses that were read or written on the way to it,
in order. `Within S` says that all of them are in `S`; the rules below take it apart along the
structure of the computation.
-/

/-- A result, and the addresses that were accessed. -/
structure Access (A α : Type) where
  val : α
  touched : List A

namespace Access

variable {A α β : Type} {S : A → Prop}

instance : Monad (Access A) where
  pure a := ⟨a, []⟩
  bind x f := ⟨(f x.val).val, x.touched ++ (f x.val).touched⟩

/-- Access the addresses `as`. -/
def touch (as : List A) : Access A Unit := ⟨(), as⟩

/-- All addresses are in `S`. -/
def Within (S : A → Prop) (x : Access A α) : Prop := ∀ a ∈ x.touched, S a

@[simp] theorem val_pure (a : α) : (pure a : Access A α).val = a := rfl

@[simp] theorem val_bind (x : Access A α) (f : α → Access A β) :
    (x >>= f).val = (f x.val).val := rfl

@[simp] theorem touched_bind (x : Access A α) (f : α → Access A β) :
    (x >>= f).touched = x.touched ++ (f x.val).touched := rfl

theorem within_pure (a : α) : Within S (pure a : Access A α) := nofun

theorem within_touch {as : List A} : Within S (touch as) ↔ ∀ a ∈ as, S a := Iff.rfl

theorem within_bind {x : Access A α} {f : α → Access A β} :
    Within S (x >>= f) ↔ Within S x ∧ Within S (f x.val) := List.forall_mem_append

theorem Within.bind {x : Access A α} {f : α → Access A β} (hx : Within S x)
    (hf : Within S (f x.val)) : Within S (x >>= f) := within_bind.mpr ⟨hx, hf⟩

theorem within_ite {c : Prop} [Decidable c] {x y : Access A α} (hx : c → Within S x)
    (hy : ¬ c → Within S y) : Within S (if c then x else y) := by
  split
  · next h => exact hx h
  · next h => exact hy h

end Access
