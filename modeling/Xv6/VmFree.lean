import Xv6.VmGrow

/-!
# freevm

`freevm` frees the frames of the user half, then the page tables, which it finds in the directory,
and then the directory: the pages that the address space owns, each once.
-/

open TwoLevel StateWp Function Multiset

namespace Xv6

namespace Vm

variable {L : Link} {E : Stop → Prop} {R ps : Multiset Nat} {s : Phys} {d n p : Nat}

theorem gather_eq_filterMap {f : Nat → Option Nat} :
    gather n f = ((List.range n).filterMap f : Multiset Nat) := by
  rw [gather]
  induction n with
  | zero => rfl
  | succ n ih =>
    rw [Finset.sum_range_succ, ih, List.range_succ, List.filterMap_append, ← coe_add]
    cases h : f n <;> simp [h]

/-- The pages `ps` have been freed. -/
structure Freed (R ps : Multiset Nat) (s s' : Phys) : Prop where
  keeps : Keeps R s s'
  free : (s'.free : Multiset Nat) = ps + s.free

theorem Freed.kfree (h : Pages L (R + (p ::ₘ ps) + s.free)) {Q : Unit → Phys → Prop}
    (hQ : ∀ s₁, Freed R {p} s s₁ → Pages L (R + ps + s₁.free) → Q () s₁) : wp E (kfree L p) Q s := by
  have hp : p ∈ p ::ₘ ps := mem_cons_self p ps
  have hfree : p ∉ s.free := h.disjoint (mem_add.mpr (.inr hp))
  have hsum : R + ps + ((p :: s.free : List Nat) : Multiset Nat) = R + (p ::ₘ ps) + s.free := by
    rw [← cons_coe, add_cons, add_cons, cons_add]
  refine (wp_kfree (h.pool p (by simp))).mpr (hQ _ ⟨⟨fun q hq => ?_, ?_, rfl⟩, rfl⟩ (hsum ▸ h))
  · refine update_of_ne ?_ ..
    rintro rfl
    exact (h.mono (le_add_right _ _)).disjoint hq hp
  · rw [decide_eq_false hfree, Bool.or_false]

/-- The directory, in which the tables are found, is not changed by freeing them. -/
theorem freeTables_spec (hd : d ∈ R) : ∀ (is : List Nat) (s : Phys),
    Pages L (R + (is.filterMap (tab s.mem d) : List Nat) + s.free) →
    wp E (freeTables L d is)
      (fun _ s' => Freed R (is.filterMap (tab s.mem d) : List Nat) s s') s := by
  intro is
  induction is with
  | nil => exact fun s _ => ⟨.refl, (zero_add _).symm⟩
  | cons i is ih =>
    intro s h
    rw [freeTables, wp_bind, wp_load (h.pool d (by simp [hd]))]
    cases hp : present (word s.mem d i) with
    | false =>
      have hi : tab s.mem d i = none := next_eq_none.mpr hp
      rw [List.filterMap_cons_none hi] at h ⊢
      exact ih s h
    | true =>
      have hi : tab s.mem d i = some (pteAddr (word s.mem d i)) := next_of_present hp
      rw [List.filterMap_cons_some hi, ← cons_coe] at h ⊢
      change wp E (kfree L (pteAddr (word s.mem d i)) >>= fun _ => freeTables L d is) _ s
      rw [wp_bind]
      refine Freed.kfree h fun s₁ h₁ hpages => ?_
      have hsame : tab s₁.mem d = tab s.mem d :=
        table_congr (by funext j; rw [word, h₁.keeps.mem d hd, word])
      rw [← hsame] at hpages ⊢
      refine wp_mono (ih s₁ hpages) fun _ s' h' => ⟨h₁.keeps.trans h'.keeps, ?_⟩
      rw [h'.free, h₁.free, singleton_add, add_cons, cons_add]

theorem freevm_spec (h : Own L R d s) :
    wp E (freevm L d) (fun _ s' => Freed R (owned s.mem d) s s') s := by
  have hd0 : d ≠ 0 := by
    have := h.dir_pool
    have := L.text
    have := L.data_lt
    omega
  rw [freevm, if_neg hd0]
  change wp E (deallocuvm L d KERNBASE 0 >>= fun _ => freeTables L d (List.range NENTRIES) >>=
    fun _ => kfree L d) _ s
  rw [wp_bind]
  refine wp_mono (deallocuvm_spec h (by decide) le_rfl (k := 0) (by decide)) ?_
  rintro _ s₁ ⟨-, js, hc, hjs⟩
  -- from address 0 on no page is passed over
  have hframes : frames s₁.mem d = 0 := by
    refine gather_eq_zero fun j hj => next_eq_none.mpr (Bool.eq_false_iff.mpr fun hp => ?_)
    obtain ⟨hno, he⟩ := hc.ent_of_present (hj.trans_le UPAGES_le) hp
    refine hno ((hjs j).mpr ⟨Nat.zero_le j, ?_, he ▸ hp, fun hs => absurd hs.2.1 (by simp)⟩)
    rw [UPAGES_eq] at hj
    simp only [PGSIZE, KERNBASE]
    omega
  have howned : owned s₁.mem d = {d} + ((List.range NENTRIES).filterMap (tab s₁.mem d) : List Nat) := by
    rw [owned, hframes, add_zero, ← gather_eq_filterMap, singleton_add]
    rfl
  have h₁ : Pages L ({d} + R + ((List.range NENTRIES).filterMap (tab s₁.mem d) : List Nat) + s₁.free) := by
    have := hc.own
    rwa [Own, howned, ← add_assoc, add_comm R] at this
  rw [wp_bind]
  refine wp_mono (freeTables_spec (by simp) _ s₁ h₁) fun _ s₂ h₂ => ?_
  have h₃ : Pages L (R + (d ::ₘ 0) + s₂.free) := by
    rw [h₂.free, ← add_assoc, add_comm R]
    exact h₁
  refine Freed.kfree h₃ fun s₃ hf _ => ⟨hc.keeps.trans ((h₂.keeps.mono fun p hp => ?_).trans hf.keeps), ?_⟩
  · exact mem_add.mpr (.inr hp)
  · rw [hf.free, h₂.free, ← add_assoc, ← howned, hc.total]

/-- **`freevm`** returns, and all pages of the address space are free, each once. What `allocuvm` has
added to it is given back too, but for the frames that were lost when a page table was refused. -/
theorem freevm_returns (h : Own L R d s) :
    (∃ s', freevm L d s = .ok ((), s') ∧ (s'.free : Multiset Nat) = owned s.mem d + s.free ∧
      s'.free.Nodup ∧ Keeps R s s') ∧
    ∀ oldsz newsz, HasPages d oldsz s → oldsz ≤ newsz → newsz < KERNBASE → ∃ r s₁ s' lost,
      allocuvm L d oldsz newsz s = .ok (r, s₁) ∧ freevm L d s₁ = .ok ((), s') ∧
      lost + (s'.free : Multiset Nat) = owned s.mem d + s.free ∧
      (lost = 0 ↔ (s.growth d oldsz newsz).1 = false) ∧ Keeps R s s' := by
  constructor
  · obtain ⟨⟨⟩, s', hrun, hf⟩ := wp_returns (freevm_spec (E := fun _ => False) h)
    refine ⟨s', hrun, hf.free, coe_nodup.mp ?_, hf.keeps⟩
    rw [hf.free]
    exact nodup_of_le (le_add_left _ R) (add_assoc R _ _ ▸ Pages.nodup h)
  · intro oldsz newsz hp hle hlt
    obtain ⟨r, s₁, hrun, lost, hg, hlost, -⟩ :=
      wp_returns (allocuvm_spec (E := fun _ => False) h hp hle hlt)
    obtain ⟨⟨⟩, s', hrun', hf⟩ := wp_returns (freevm_spec (E := fun _ => False) hg.own)
    refine ⟨r, s₁, s', lost, hrun, hrun', by rw [hf.free, hg.total], hlost, hg.keeps.trans ?_⟩
    exact hf.keeps.mono fun p hp => mem_add.mpr (.inr hp)

theorem freevm_returns_lonePage : ∃ s', freevm smallKernel 300 (lonePage 6 0 []) = .ok ((), s') ∧
    (s'.free : Multiset Nat) = owned (lonePage 6 0 []).mem 300 := by
  obtain ⟨s', hrun, hfree, -⟩ := (freevm_returns lonePage_first.2.1).1
  exact ⟨s', hrun, hfree.trans (add_zero _)⟩

end Vm

end Xv6
