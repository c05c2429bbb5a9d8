import Mathlib

/-!
# Two-level tables

A two-level table lives in a memory of nodes, each with words by index: the words of the root
name the nodes of the second level, and the words of these are the entries. Entry `k` is word
`k % N` of the node that word `k / N` of the root names, where `N` is the number of words of a
node; an entry whose node is missing reads as `z`.

Nothing keeps a memory from using one node twice, so the laws of the two updates, to add a node and
to change an entry, ask that the nodes of the table are distinct. Uses of nodes are counted with
`gather`, the multiset of what a function names.
-/

open Function

namespace TwoLevel

variable {ν : Type*}

/-! ### What a function names -/

/-- What `f` names below `n`, each as often as it is named. -/
@[irreducible] def gather (n : ℕ) (f : ℕ → Option ν) : Multiset ν :=
  ∑ k ∈ Finset.range n, (f k).elim 0 fun p => {p}

variable {n k : ℕ} {f g : ℕ → Option ν} {p : ν}

theorem mem_gather : p ∈ gather n f ↔ ∃ k < n, f k = some p := by
  rw [gather, Multiset.mem_sum]
  refine exists_congr fun k => and_congr Finset.mem_range ?_
  cases f k with
  | none => exact ⟨nofun, nofun⟩
  | some q =>
    rw [Option.elim_some, Multiset.mem_singleton, Option.some_inj]
    exact eq_comm

theorem gather_congr (h : ∀ k < n, f k = g k) : gather n f = gather n g := by
  rw [gather, gather]
  exact Finset.sum_congr rfl fun k hk => by rw [h k (Finset.mem_range.mp hk)]

theorem gather_eq_zero (h : ∀ k < n, f k = none) : gather n f = 0 := by
  rw [gather]
  exact Finset.sum_eq_zero fun k hk => by rw [h k (Finset.mem_range.mp hk)]; rfl

theorem gather_erase (hk : k < n) : gather n f =
    (f k).elim 0 (fun p => {p}) +
      ∑ j ∈ (Finset.range n).erase k, (f j).elim 0 fun p => {p} := by
  rw [gather]
  exact (Finset.add_sum_erase _ _ (Finset.mem_range.mpr hk)).symm

theorem gather_of_eq_some (hk : k < n) (hf : f k = none) (hg : g k = some p)
    (h : ∀ j < n, j ≠ k → g j = f j) : gather n g = p ::ₘ gather n f := by
  have hrest : ∑ j ∈ (Finset.range n).erase k, (g j).elim 0 (fun p => ({p} : Multiset ν)) =
      ∑ j ∈ (Finset.range n).erase k, (f j).elim 0 fun p => {p} := by
    refine Finset.sum_congr rfl fun j hj => ?_
    rw [Finset.mem_erase, Finset.mem_range] at hj
    rw [h j hj.2 hj.1]
  calc gather n g = {p} + ∑ j ∈ (Finset.range n).erase k, (g j).elim 0 fun p => {p} := by
        rw [gather_erase hk, hg]
        rfl
    _ = {p} + gather n f := by rw [hrest, gather_erase hk, hf, Option.elim_none, zero_add]
    _ = p ::ₘ gather n f := Multiset.singleton_add p _

theorem gather_inj (h : (gather n f).Nodup) {i j : ℕ} (hi : i < n) (hj : j < n) (hfi : f i = some p)
    (hfj : f j = some p) : i = j := by
  by_contra hne
  have hmem : p ∈ ∑ j ∈ (Finset.range n).erase i, (f j).elim 0 fun p => ({p} : Multiset ν) := by
    rw [Multiset.mem_sum]
    refine ⟨j, Finset.mem_erase.mpr ⟨fun e => hne e.symm, Finset.mem_range.mpr hj⟩, ?_⟩
    rw [hfj]
    exact Multiset.mem_singleton_self p
  rw [gather_erase hi, hfi, Option.elim_some, Multiset.singleton_add, Multiset.nodup_cons] at h
  exact h.1 hmem

theorem card_gather [DecidablePred fun k => f k ≠ none] :
    Multiset.card (gather n f) = ((Finset.range n).filter fun k => f k ≠ none).card := by
  have hone : ∀ k, Multiset.card ((f k).elim 0 fun p => ({p} : Multiset ν)) =
      if f k ≠ none then 1 else 0 := by
    intro k
    split
    · next hne =>
      obtain ⟨q, hq⟩ := Option.ne_none_iff_exists'.mp hne
      rw [hq]
      rfl
    · next hne =>
      rw [not_not.mp hne]
      rfl
  calc Multiset.card (gather n f)
      = ∑ k ∈ Finset.range n, Multiset.card ((f k).elim 0 fun p => ({p} : Multiset ν)) :=
        (congrArg _ (gather.eq_def n f)).trans (map_sum Multiset.cardHom _ _)
    _ = ∑ k ∈ Finset.range n, if f k ≠ none then 1 else 0 := Finset.sum_congr rfl fun k _ => hone k
    _ = ((Finset.range n).filter fun k => f k ≠ none).card := (Finset.card_filter _ _).symm

/-! ### Tables -/

variable {W : Type*} (next : W → Option ν) (N : ℕ) (z : W)

/-- The node that word `i` of the root names. -/
def table (m : ν → ℕ → W) (d : ν) (i : ℕ) : Option ν := next (m d i)

/-- Entry `k`. -/
def entry (m : ν → ℕ → W) (d : ν) (k : ℕ) : W :=
  match table next m d (k / N) with
  | some t => m t (k % N)
  | none => z

/-- The nodes of the second level. -/
def nodes (m : ν → ℕ → W) (d : ν) : Multiset ν := gather N (table next m d)

variable {next N z} {m m' : ν → ℕ → W} {d t : ν} {i : ℕ} {w : W}

theorem entry_of_some (h : table next m d (k / N) = some t) :
    entry next N z m d k = m t (k % N) := by
  rw [entry, h]

theorem entry_of_none (h : table next m d (k / N) = none) : entry next N z m d k = z := by
  rw [entry, h]

theorem mem_nodes (hi : i < N) (h : table next m d i = some t) : t ∈ nodes next N m d :=
  mem_gather.mpr ⟨i, hi, h⟩

theorem table_congr (h : m' d = m d) : table next m' d = table next m d := by
  funext i
  rw [table, h, table]

theorem nodes_congr (h : m' d = m d) : nodes next N m' d = nodes next N m d := by
  rw [nodes, table_congr h, nodes]

theorem entry_congr (h : ∀ p ∈ d ::ₘ nodes next N m d, m' p = m p) (hk : k < N * N) :
    entry next N z m' d k = entry next N z m d k := by
  have hd : m' d = m d := h d (Multiset.mem_cons_self d _)
  rw [entry, entry, table_congr hd]
  cases ht : table next m d (k / N) with
  | none => rfl
  | some t =>
    have hmem := mem_nodes (Nat.div_lt_of_lt_mul hk) ht
    change m' t (k % N) = m t (k % N)
    rw [h t (Multiset.mem_cons_of_mem hmem)]

/-! ### A new node -/

theorem table_install (hd : m' d = update (m d) i w) :
    table next m' d = update (table next m d) i (next w) := by
  funext j
  rw [table, hd]
  by_cases hj : j = i
  · rw [hj, update_self, update_self]
  · rw [update_of_ne hj, update_of_ne hj]
    rfl

theorem nodes_install (hi : i < N) (hnone : table next m d i = none) (hw : next w = some t)
    (hd : m' d = update (m d) i w) : nodes next N m' d = t ::ₘ nodes next N m d := by
  rw [nodes, table_install hd]
  refine gather_of_eq_some hi hnone ?_ fun j _ hj => update_of_ne hj ..
  rw [update_self, hw]

theorem entry_install (hnone : table next m d i = none) (hw : next w = some t)
    (hd : m' d = update (m d) i w) (ht : ∀ j < N, m' t j = z)
    (hrest : ∀ p ∈ nodes next N m d, m' p = m p) (hk : k < N * N) :
    entry next N z m' d k = entry next N z m d k := by
  have hlt := Nat.div_lt_of_lt_mul hk
  by_cases hki : k / N = i
  · have ht' : table next m' d (k / N) = some t := by
      rw [table_install hd, hki, update_self, hw]
    have hpos : 0 < N := Nat.pos_of_ne_zero fun h0 => by
      rw [h0] at hlt
      exact absurd hlt (Nat.not_lt_zero _)
    rw [entry_of_some ht', ht _ (Nat.mod_lt k hpos), entry_of_none (by rw [hki]; exact hnone)]
  · have hsame : table next m' d (k / N) = table next m d (k / N) := by
      rw [table_install hd, update_of_ne hki]
    rw [entry, entry, hsame]
    cases htab : table next m d (k / N) with
    | none => rfl
    | some u =>
      change m' u (k % N) = m u (k % N)
      rw [hrest u (mem_nodes hlt htab)]

/-! ### A new entry -/

section Set

variable (hnodup : (d ::ₘ nodes next N m d).Nodup) (hk : k < N * N)
  (ht : table next m d (k / N) = some t) (hset : m' t = update (m t) (k % N) w)
  (hrest : ∀ p ∈ d ::ₘ nodes next N m d, p ≠ t → m' p = m p)

include hnodup hk ht hrest

theorem table_set : m' d = m d := by
  refine hrest d (Multiset.mem_cons_self d _) ?_
  rintro rfl
  exact (Multiset.nodup_cons.mp hnodup).1 (mem_nodes (Nat.div_lt_of_lt_mul hk) ht)

include hset

theorem entry_set {j : ℕ} (hj : j < N * N) :
    entry next N z m' d j = if j = k then w else entry next N z m d j := by
  have hsame : table next m' d = table next m d := table_congr (table_set hnodup hk ht hrest)
  have hlt := Nat.div_lt_of_lt_mul hj
  cases htab : table next m d (j / N) with
  | none =>
    have hne : j ≠ k := by
      rintro rfl
      rw [ht] at htab
      cases htab
    rw [if_neg hne, entry_of_none (by rw [hsame]; exact htab), entry_of_none htab]
  | some u =>
    rw [entry_of_some (by rw [hsame]; exact htab), entry_of_some htab]
    by_cases hu : u = t
    · subst hu
      -- the node is named once, so the two entries are in the same row
      have hrow : j / N = k / N :=
        gather_inj (Multiset.nodup_cons.mp hnodup).2 hlt (Nat.div_lt_of_lt_mul hk) htab ht
      rw [hset]
      by_cases hcol : j % N = k % N
      · have hjk : j = k := by rw [← Nat.div_add_mod j N, ← Nat.div_add_mod k N, hrow, hcol]
        rw [if_pos hjk, hcol, update_self]
      · have hjk : j ≠ k := fun e => hcol (by rw [e])
        rw [if_neg hjk, update_of_ne hcol]
    · have hjk : j ≠ k := by
        rintro rfl
        rw [ht] at htab
        exact hu (Option.some.inj htab).symm
      rw [if_neg hjk, hrest u (Multiset.mem_cons_of_mem (mem_nodes hlt htab)) hu]

end Set

end TwoLevel
