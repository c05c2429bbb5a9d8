import Xv6.VmMap

/-!
# deallocuvm

`deallocuvm` goes through the pages from `PGROUNDUP(newsz)` to `oldsz`. Where a page table is missing it
goes on 4 MB further, which is the same place in the next table and not its beginning: with a start
that is not at the beginning of a table, pages of the first table that is there may be passed over
(`Skipped`). It frees the range exactly if no such page is mapped.
-/

open Bytes TwoLevel StateWp Function

namespace Xv6

namespace Vm

variable {L : Link} {E : Stop → Prop} {R : Multiset Nat} {s s' s'' : Phys}
  {d k n p t i j w oldsz newsz : Nat} {js js' : List Nat}

/-! ### Unmapping pages -/

/-- The pages `js` are unmapped, the last one of them first. -/
structure Cleared (L : Link) (R : Multiset Nat) (d : Nat) (js : List Nat) (s s' : Phys) : Prop where
  own : Own L R d s'
  keeps : Keeps R s s'
  total : owned s'.mem d + s'.free = owned s.mem d + s.free
  deny : s'.deny = s.deny
  tab : ∀ i, tab s'.mem d i = tab s.mem d i
  mapped : ∀ j ∈ js, j < UPAGES ∧ present (ent s.mem d j) = true
  nodup : js.Nodup
  ent : ∀ j < NPAGES, Vm.ent s'.mem d j = if j ∈ js then 0 else Vm.ent s.mem d j
  free : s'.free = js.map (fun j => pteAddr (Vm.ent s.mem d j)) ++ s.free
  frame : ∀ p ∈ frames s'.mem d, s'.mem p = s.mem p

namespace Cleared

theorem refl (h : Own L R d s) : Cleared L R d [] s s where
  own := h
  keeps := .refl
  total := rfl
  deny := rfl
  tab _ := rfl
  mapped _ hj := absurd hj List.not_mem_nil
  nodup := List.nodup_nil
  ent _ _ := (if_neg List.not_mem_nil).symm
  free := rfl
  frame _ _ := rfl

theorem ent_of_present (h : Cleared L R d js s s') (hj : j < NPAGES)
    (hp : present (Vm.ent s'.mem d j) = true) : j ∉ js ∧ Vm.ent s'.mem d j = Vm.ent s.mem d j := by
  rw [h.ent j hj] at hp ⊢
  split at hp
  · cases hp
  · next hnot => exact ⟨hnot, if_neg hnot⟩

theorem frames_sub (h : Cleared L R d js s s') (hp : p ∈ frames s'.mem d) : p ∈ frames s.mem d := by
  obtain ⟨j, hj, hnext⟩ := mem_gather.mp hp
  have hpres : present (Vm.ent s'.mem d j) = true := by
    by_contra hno
    rw [next_eq_none.mpr (by simpa using hno)] at hnext
    cases hnext
  refine mem_gather.mpr ⟨j, hj, ?_⟩
  rw [← (h.ent_of_present (hj.trans_le UPAGES_le) hpres).2]
  exact hnext

theorem trans (h : Cleared L R d js s s') (h' : Cleared L R d js' s' s'') :
    Cleared L R d (js' ++ js) s s'' := by
  -- the pages cleared later were mapped as they are in the beginning
  have hold : ∀ j ∈ js', j ∉ js ∧ Vm.ent s'.mem d j = Vm.ent s.mem d j := fun j hj =>
    h.ent_of_present ((h'.mapped j hj).1.trans_le UPAGES_le) (h'.mapped j hj).2
  refine ⟨h'.own, h.keeps.trans h'.keeps, h'.total.trans h.total, h'.deny.trans h.deny,
    fun i => (h'.tab i).trans (h.tab i), fun j hj => ?_, ?_, fun j hj => ?_, ?_, fun p hp => ?_⟩
  · rcases List.mem_append.mp hj with hj | hj
    · rw [← (hold j hj).2]
      exact h'.mapped j hj
    · exact h.mapped j hj
  · exact List.nodup_append'.mpr ⟨h'.nodup, h.nodup, fun j hj => (hold j hj).1⟩
  · rw [h'.ent j hj, h.ent j hj]
    by_cases h1 : j ∈ js'
    · rw [if_pos h1, if_pos (List.mem_append.mpr (.inl h1))]
    · by_cases h2 : j ∈ js
      · rw [if_neg h1, if_pos h2, if_pos (List.mem_append.mpr (.inr h2))]
      · rw [if_neg h1, if_neg h2, if_neg fun hm => (List.mem_append.mp hm).elim h1 h2]
  · rw [h'.free, h.free, List.map_append, List.append_assoc]
    rw [List.map_congr_left fun j hj => by rw [(hold j hj).2]]
  · rw [h'.frame p hp, h.frame p (h'.frames_sub hp)]

end Cleared

/-- The state after page `p` is freed and the entry for it, at `i` in the table `t`, is cleared. -/
def Phys.unmap (s : Phys) (p t i : Nat) : Phys :=
  Phys.put { s with
    mem := update s.mem p junk
    free := p :: s.free
    twice := s.twice || decide (p ∈ s.free) } t i 0

theorem Own.unmap (h : Own L R d s) (hk : k < UPAGES) (ht : tab s.mem d (k / NENTRIES) = some t)
    (hp : present (ent s.mem d k) = true) :
    Cleared L R d [k] s (s.unmap (pteAddr (ent s.mem d k)) t (k % NENTRIES)) := by
  have hkN := hk.trans_le UPAGES_le
  have hnext := next_of_present hp
  set p := pteAddr (ent s.mem d k) with hpdef
  have hframe : p ∈ frames s.mem d := mem_gather.mpr ⟨k, hk, hnext⟩
  have hown : p ∈ owned s.mem d := Multiset.mem_cons_of_mem (Multiset.mem_add.mpr (.inr hframe))
  have hptab := h.frame_ne hframe
  have htmem := Own.tab_mem hkN ht
  have htp : t ≠ p := fun e => hptab (e ▸ Multiset.mem_cons_of_mem htmem)
  -- it makes no difference whether the entry is cleared before or after the page is freed
  have hmem : (s.unmap p t (k % NENTRIES)).mem = update (s.put t (k % NENTRIES) 0).mem p junk := by
    change update (update s.mem p junk) t
      (putLE (update s.mem p junk t) (4 * (k % NENTRIES)) 4 0) = _
    rw [update_of_ne htp, update_comm htp.symm]
    rfl
  have hc := h.put hkN ht (w := 0) (by decide)
  have htables : ∀ q ∈ d ::ₘ tables (s.put t (k % NENTRIES) 0).mem d,
      (s.unmap p t (k % NENTRIES)).mem q = (s.put t (k % NENTRIES) 0).mem q := by
    intro q hq
    rw [hc.tables] at hq
    have hne : q ≠ p := fun e => hptab (e ▸ hq)
    rw [hmem, update_of_ne hne]
  obtain ⟨htabs', htab', hent', howned'⟩ := owned_congr htables
  have hent : ∀ j < NPAGES, ent (s.unmap p t (k % NENTRIES)).mem d j
      = if j = k then 0 else ent s.mem d j := fun j hj => (hent' j hj).trans (hc.ent j hj)
  have hframes := frames_clear hk hnext hent
  have howned : owned s.mem d = p ::ₘ owned (s.unmap p t (k % NENTRIES)).mem d := by
    rw [owned, owned, htabs', hc.tables, hframes, Multiset.add_cons, Multiset.cons_swap]
  have htotal : owned (s.unmap p t (k % NENTRIES)).mem d + (s.unmap p t (k % NENTRIES)).free
      = owned s.mem d + s.free := by
    change owned (s.unmap p t (k % NENTRIES)).mem d + (p ::ₘ (s.free : Multiset Nat)) = _
    rw [howned, Multiset.cons_add, Multiset.add_cons]
  have hfree : p ∉ s.free := fun hf => (h.free_ne hf).2 hown
  refine ⟨?_, ⟨fun q hq => ?_, ?_, rfl⟩, htotal, rfl, fun i => (htab' i).trans (hc.tab i), ?_,
    List.nodup_singleton k, fun j hj => ?_, rfl, fun q hq => ?_⟩
  · rw [Own, add_assoc, htotal, ← add_assoc]
    exact h
  · have hne : q ≠ p := fun e => h.rest_ne hq (e ▸ hown)
    rw [hmem, update_of_ne hne]
    exact hc.keeps.mem q hq
  · change (s.twice || decide (p ∈ s.free)) = s.twice
    rw [decide_eq_false hfree, Bool.or_false]
  · intro j hj
    rw [List.mem_singleton.mp hj]
    exact ⟨hk, hp⟩
  · rw [hent j hj]
    simp only [List.mem_singleton]
  · -- a frame that stays mapped is another page than `p`, and no table
    have hq' : q ∈ frames s.mem d := by
      rw [hframes]
      exact Multiset.mem_cons_of_mem hq
    have hnd : (frames s.mem d).Nodup :=
      Multiset.nodup_of_le ((Multiset.le_add_left _ _).trans (Multiset.le_cons_self _ _)) h.space.nodup
    rw [hframes] at hnd
    have hqp : q ≠ p := fun e => (Multiset.nodup_cons.mp hnd).1 (e ▸ hq)
    have hqt : q ≠ t := fun e => h.frame_ne hq' (e ▸ Multiset.mem_cons_of_mem htmem)
    rw [hmem, update_of_ne hqp]
    exact update_of_ne hqt ..

/-! ### The loop -/

/-- Page `j` comes before the place where a loop that starts with page `k` gets to the first table
there is. -/
def Skipped (tab : Nat → Option Nat) (k j : Nat) : Prop :=
  k / NENTRIES < j / NENTRIES ∧ j % NENTRIES < k % NENTRIES ∧
    ∀ r, k / NENTRIES ≤ r → r < j / NENTRIES → tab r = none

/-- The pages that a loop from page `k` on clears. -/
def Scanned (mem : Nat → Block) (d oldsz k j : Nat) : Prop :=
  k ≤ j ∧ PGSIZE * j < oldsz ∧ present (ent mem d j) = true ∧ ¬ Skipped (tab mem d) k j

theorem scanned_of_tab (ht : tab s.mem d (k / NENTRIES) = some t) : Scanned s.mem d oldsz k j ↔
    k ≤ j ∧ PGSIZE * j < oldsz ∧ present (ent s.mem d j) = true := by
  refine ⟨fun h => ⟨h.1, h.2.1, h.2.2.1⟩, fun h => ⟨h.1, h.2.1, h.2.2, fun hs => ?_⟩⟩
  rw [hs.2.2 _ le_rfl hs.1] at ht
  cases ht

theorem scanned_succ (ht : tab s.mem d (k / NENTRIES) = some t) : Scanned s.mem d oldsz k j ↔
    (j = k ∧ PGSIZE * k < oldsz ∧ present (ent s.mem d k) = true) ∨ Scanned s.mem d oldsz (k + 1) j := by
  have hnot : ¬ Skipped (tab s.mem d) (k + 1) j := by
    intro hs
    by_cases hrow : (k + 1) / NENTRIES = k / NENTRIES
    · have hnone := hs.2.2 _ le_rfl hs.1
      rw [hrow, ht] at hnone
      cases hnone
    · -- the loop is at the beginning of a table
      have hlt := hs.2.1
      simp only [NENTRIES] at hrow hlt
      omega
  rw [scanned_of_tab ht, Scanned]
  constructor
  · rintro ⟨hj, hlt, hp⟩
    rcases Nat.eq_or_lt_of_le hj with rfl | hj
    · exact .inl ⟨rfl, hlt, hp⟩
    · exact .inr ⟨hj, hlt, hp, hnot⟩
  · rintro (⟨rfl, hlt, hp⟩ | ⟨hj, hlt, hp, -⟩)
    · exact ⟨le_rfl, hlt, hp⟩
    · exact ⟨by omega, hlt, hp⟩

/-- Without a table, the loop goes on at the same place of the next table. -/
theorem scanned_skip (ht : tab s.mem d (k / NENTRIES) = none) :
    Scanned s.mem d oldsz k j ↔ Scanned s.mem d oldsz (k + NENTRIES) j := by
  have hrow : (k + NENTRIES) / NENTRIES = k / NENTRIES + 1 := by simp only [NENTRIES]; omega
  have hcol : (k + NENTRIES) % NENTRIES = k % NENTRIES := Nat.add_mod_right ..
  constructor
  · rintro ⟨hj, hlt, hp, hs⟩
    have hother : j / NENTRIES ≠ k / NENTRIES := by
      intro e
      rw [ent, entry_of_none (by rw [e]; exact ht)] at hp
      cases hp
    have hge : k + NENTRIES ≤ j := by
      by_contra hlt'
      have hbefore : j / NENTRIES = k / NENTRIES + 1 ∧ j % NENTRIES < k % NENTRIES := by
        simp only [NENTRIES] at hother hlt' ⊢
        omega
      refine hs ⟨by omega, hbefore.2, fun r hr hr' => ?_⟩
      rw [show r = k / NENTRIES by omega]
      exact ht
    refine ⟨hge, hlt, hp, fun hs' => hs ?_⟩
    rw [Skipped, hrow, hcol] at hs'
    refine ⟨by omega, hs'.2.1, fun r hr hr' => ?_⟩
    rcases Nat.eq_or_lt_of_le hr with rfl | hr
    · exact ht
    · exact hs'.2.2 r hr hr'
  · rintro ⟨hj, hlt, hp, hs⟩
    refine ⟨by omega, hlt, hp, fun hs' => hs ?_⟩
    rw [Skipped, hrow, hcol]
    refine ⟨?_, hs'.2.1, fun r hr hr' => hs'.2.2 r (by omega) hr'⟩
    have hcol' := hs'.2.1
    simp only [NENTRIES] at hcol' hj ⊢
    omega

/-- The state of the entries after a loop, for the pages still to come. -/
theorem Cleared.scanned (h : Cleared L R d js s s') (hle : oldsz ≤ KERNBASE)
    (hjs : ∀ i ∈ js, i < k) : Scanned s'.mem d oldsz k j ↔ Scanned s.mem d oldsz k j := by
  have htab : Vm.tab s'.mem d = Vm.tab s.mem d := funext h.tab
  rw [Scanned, Scanned, htab]
  refine and_congr_right fun hj => and_congr_right fun hlt => ?_
  have hjN : j < NPAGES := by
    rw [NPAGES_eq]
    simp only [PGSIZE, KERNBASE] at hlt hle
    omega
  rw [h.ent j hjN, if_neg fun hm => absurd (hjs j hm) (by omega)]

theorem deallocLoop_done (h : Own L R d s) (hge : oldsz ≤ PGSIZE * k) :
    wp E (deallocLoop L d oldsz (PGSIZE * k))
      (fun _ s' => ∃ js, Cleared L R d js s s' ∧ ∀ j, j ∈ js ↔ Scanned s.mem d oldsz k j) s := by
  rw [deallocLoop, dif_neg (Nat.not_lt.mpr hge)]
  refine ⟨[], .refl h, fun j => iff_of_false List.not_mem_nil fun hj => ?_⟩
  exact absurd hj.2.1 (Nat.not_lt.mpr (hge.trans (Nat.mul_le_mul_left PGSIZE hj.1)))

theorem deallocLoop_spec (hle : oldsz ≤ KERNBASE) : ∀ n k s, Own L R d s →
    oldsz ≤ PGSIZE * (k + n) → wp E (deallocLoop L d oldsz (PGSIZE * k))
      (fun _ s' => ∃ js, Cleared L R d js s s' ∧ ∀ j, j ∈ js ↔ Scanned s.mem d oldsz k j) s := by
  intro n
  induction n with
  | zero => exact fun k s h hn => deallocLoop_done h hn
  | succ n ih =>
    intro k s h hn
    by_cases hlt : PGSIZE * k < oldsz
    swap
    · exact deallocLoop_done h (Nat.not_lt.mp hlt)
    have hk : k < UPAGES := by
      rw [UPAGES_eq]
      simp only [PGSIZE, KERNBASE] at hlt hle
      omega
    rw [deallocLoop, dif_pos hlt, wp_bind, wp_walk h (hk.trans_le UPAGES_le)]
    cases ht : tab s.mem d (k / NENTRIES) with
    | none =>
      have ha : PGSIZE * k + (NENTRIES - 1) * PGSIZE + PGSIZE = PGSIZE * (k + NENTRIES) := by
        simp only [NENTRIES, PGSIZE]
        omega
      change wp E (deallocLoop L d oldsz (PGSIZE * k + (NENTRIES - 1) * PGSIZE + PGSIZE)) _ s
      rw [ha]
      have hn' : oldsz ≤ PGSIZE * (k + NENTRIES + n) := by
        simp only [NENTRIES, PGSIZE] at hn ⊢
        omega
      refine wp_mono (ih _ s h hn') ?_
      rintro _ s' ⟨js, hc, hjs⟩
      refine ⟨js, hc, fun j => ?_⟩
      rw [hjs, ← scanned_skip ht]
    | some t =>
      have hn' : oldsz ≤ PGSIZE * (k + 1 + n) := by rwa [add_assoc, add_comm 1]
      -- the page itself, and then the rest
      have hone : ∀ js₁ s₁, Cleared L R d js₁ s s₁ →
          (∀ j, j ∈ js₁ ↔ j = k ∧ PGSIZE * k < oldsz ∧ present (ent s.mem d k) = true) →
          wp E (deallocLoop L d oldsz (PGSIZE * k + PGSIZE))
            (fun _ s' => ∃ js, Cleared L R d js s s' ∧ ∀ j, j ∈ js ↔ Scanned s.mem d oldsz k j) s₁ := by
        intro js₁ s₁ hc₁ hjs₁
        rw [← Nat.mul_succ]
        refine wp_mono (ih (k + 1) s₁ hc₁.own hn') ?_
        rintro _ s' ⟨js, hc, hjs⟩
        refine ⟨js ++ js₁, hc₁.trans hc, fun j => ?_⟩
        rw [List.mem_append, hjs, hjs₁, scanned_succ ht, or_comm,
          hc₁.scanned hle fun i hi => by rw [((hjs₁ i).mp hi).1]; exact Nat.lt_succ_self k]
      have hpool := h.table_pool (Own.tab_mem (hk.trans_le UPAGES_le) ht)
      have hent : word s.mem t (k % NENTRIES) = ent s.mem d k := (entry_of_some ht).symm
      simp only [Option.map_some, wp_bind, wp_load hpool, hent]
      cases hp : present (ent s.mem d k) with
      | false =>
        rw [if_neg Bool.false_ne_true]
        refine hone [] s (.refl h) fun j => iff_of_false List.not_mem_nil ?_
        rw [hp]
        exact fun hj => Bool.false_ne_true hj.2.2
      | true =>
        have hmem : pteAddr (ent s.mem d k) ∈ frames s.mem d :=
          mem_gather.mpr ⟨k, hk, next_of_present hp⟩
        simp only [if_true, wp_bind, wp_kfree (h.frame_pool hmem), wp_store hpool]
        refine hone [k] _ (h.unmap hk ht hp) fun j => ?_
        rw [List.mem_singleton]
        exact ⟨fun e => ⟨e, hlt, hp⟩, fun hj => hj.1⟩

/-! ### The function -/

theorem pgroundup_eq (h : n < KERNBASE) :
    ∃ k, pgroundup n = PGSIZE * k ∧ n ≤ PGSIZE * k ∧ PGSIZE * k < n + PGSIZE := by
  refine ⟨(n + (PGSIZE - 1)) % 2 ^ 32 / PGSIZE, Nat.mul_comm .., ?_⟩
  simp only [PGSIZE, KERNBASE] at h ⊢
  omega

theorem deallocuvm_spec (h : Own L R d s) (hlt : newsz < oldsz) (hle : oldsz ≤ KERNBASE)
    (hk : pgroundup newsz = PGSIZE * k) : wp E (deallocuvm L d oldsz newsz) (fun r s' => r = newsz ∧
      ∃ js, Cleared L R d js s s' ∧ ∀ j, j ∈ js ↔ Scanned s.mem d oldsz k j) s := by
  rw [deallocuvm, if_neg (by omega), hk, wp_bind]
  refine wp_mono (deallocLoop_spec hle oldsz k s h ?_) fun _ s' hs => ⟨rfl, hs⟩
  simp only [PGSIZE]
  omega

/-- The pages of `[PGROUNDUP(newsz), oldsz)`. -/
def InRange (newsz oldsz j : Nat) : Prop := pgroundup newsz ≤ PGSIZE * j ∧ PGSIZE * j < oldsz

/-- The pages of the range are freed, those that were mapped once each, and nothing else is. -/
structure FreesRange (d oldsz newsz : Nat) (s s' : Phys) : Prop where
  gone : ∀ j, InRange newsz oldsz j → present (ent s'.mem d j) = false
  once : ∃ js : List Nat, js.Nodup ∧
    (∀ j, j ∈ js ↔ InRange newsz oldsz j ∧ present (ent s.mem d j) = true) ∧
    s'.free = js.map (fun j => pteAddr (ent s.mem d j)) ++ s.free
  fresh : s'.twice = s.twice
  same : ∀ j < NPAGES, ¬ InRange newsz oldsz j → ent s'.mem d j = ent s.mem d j

/-! ### A small address space -/

/-- A kernel that ends at page 258. -/
def smallKernel : Link where
  data := 257
  kend := 258
  text := by decide
  data_lt := by decide
  kend_le := by rw [NFRAME_eq]; decide

/-- Memory with nothing in it. -/
def Phys.blank (free : List Nat) (deny : Nat → Bool) : Phys := ⟨fun _ => zero, free, deny, false, []⟩

theorem Own.blank {f : List Nat} {deny : Nat → Bool} (h : Pages L (R + {d} + f)) :
    Own L R d (.blank f deny) := by
  rw [Own, (owned_zero rfl).1]
  exact h

/-- Page `k` is mapped to frame 302, and no other; pages `f` are free. -/
def lonePage (perm k : Nat) (f : List Nat) : Phys :=
  ((Phys.blank (301 :: f) fun _ => false).install 300 (k / NENTRIES) 301 f).put 301 (k % NENTRIES)
    (PGSIZE * 302 ||| perm ||| PTE_P)

theorem lonePage_placed {perm : Nat} {f : List Nat} (hperm : perm < 8) (hk : k < UPAGES)
    (hf : Pages smallKernel ({302} + 0 + {300} + (301 :: f : List Nat))) :
    Placed smallKernel 0 300 k (PGSIZE * 302 ||| perm ||| PTE_P) (.blank (301 :: f) fun _ => false)
      (lonePage perm k f) := by
  have hheld : held k (PGSIZE * 302 ||| perm ||| PTE_P) = {302} := by
    rw [held, if_pos hk, next_pte hperm]
    rfl
  have hown : Own smallKernel (held k (PGSIZE * 302 ||| perm ||| PTE_P) + 0) 300
      (.blank (301 :: f) fun _ => false) := .blank (by rwa [hheld])
  refine hown.place_new (hk.trans_le UPAGES_le) (pte_lt hperm (by decide)) ((owned_zero rfl).2.1 _) rfl ?_
  rw [(owned_zero rfl).2.2]
  rfl

theorem pages_alone : Pages smallKernel ({302} + 0 + {300} + ([301] : List Nat)) :=
  ⟨by decide, by rw [NFRAME_eq]; decide⟩

theorem lonePage_far : 1024 < UPAGES ∧ tab (lonePage 6 1024 []).mem 300 0 = none ∧
    ent (lonePage 6 1024 []).mem 300 1024 = PGSIZE * 302 ||| 6 ||| PTE_P := by
  have hk : 1024 < UPAGES := by rw [UPAGES_eq]; decide
  have hp := lonePage_placed (by decide : 6 < 8) hk pages_alone
  rw [hp.tab_same 0 (by rw [NENTRIES_eq]; decide), (owned_zero rfl).2.1,
    hp.ent 1024 (hk.trans_le UPAGES_le), if_pos rfl]
  exact ⟨hk, rfl, rfl⟩

/-- The range is freed exactly if no mapped page of it is passed over. -/
theorem deallocuvm_exact_iff (h : Own L R d s) (hlt : newsz < oldsz) (hle : oldsz ≤ KERNBASE) :
    (∃ s', deallocuvm L d oldsz newsz s = .ok (newsz, s') ∧ FreesRange d oldsz newsz s s') ↔
      ∀ j, InRange newsz oldsz j → present (ent s.mem d j) = true →
        ¬ Skipped (tab s.mem d) (pgroundup newsz / PGSIZE) j := by
  obtain ⟨k, hk, -⟩ := pgroundup_eq (hlt.trans_le hle)
  obtain ⟨r, s', hrun, rfl, js, hc, hjs⟩ :=
    wp_returns (deallocuvm_spec (E := fun _ => False) h hlt hle hk)
  have hdiv : pgroundup r / PGSIZE = k := by rw [hk]; exact Nat.mul_div_cancel_left k (by decide)
  have hrange : ∀ j, InRange r oldsz j ↔ k ≤ j ∧ PGSIZE * j < oldsz := fun j => by
    rw [InRange, hk]
    exact and_congr_left' (Nat.mul_le_mul_left_iff (by decide))
  have hbound : ∀ j, InRange r oldsz j → j < NPAGES := fun j hj => by
    rw [NPAGES_eq]
    have := hj.2
    simp only [PGSIZE, KERNBASE] at this hle
    omega
  rw [hdiv]
  constructor
  · -- a page that is passed over stays
    rintro ⟨s₁, hrun₁, hlaw⟩ j hj hp hs
    obtain rfl : s' = s₁ := by
      rw [hrun] at hrun₁
      exact (Prod.mk.inj (Except.ok.inj hrun₁)).2
    have hgone := hlaw.gone j hj
    rw [hc.ent j (hbound j hj), if_neg fun hm => ((hjs j).mp hm).2.2.2 hs, hp] at hgone
    cases hgone
  · intro hall
    have hall' : ∀ j, j ∈ js ↔ InRange r oldsz j ∧ present (ent s.mem d j) = true := fun j => by
      rw [hjs, hrange]
      refine ⟨fun hj => ⟨⟨hj.1, hj.2.1⟩, hj.2.2.1⟩, fun hj => ⟨hj.1.1, hj.1.2, hj.2, ?_⟩⟩
      exact hall j ((hrange j).mpr hj.1) hj.2
    refine ⟨s', hrun, fun j hj => ?_, ⟨js, hc.nodup, hall', hc.free⟩, hc.keeps.twice,
      fun j hj hnot => ?_⟩
    · rw [hc.ent j (hbound j hj)]
      split
      · rfl
      · next hnot =>
        rw [hall' j] at hnot
        exact Bool.eq_false_iff.mpr fun hp => hnot ⟨hj, hp⟩
    · rw [hc.ent j hj, if_neg fun hm => hnot ((hall' j).mp hm).1]

/-- From 0 on, the loop meets every table at its beginning. -/
theorem deallocuvm_exact_lonePage : ∃ s', deallocuvm smallKernel 300 (PGSIZE * 1025) 0
    (lonePage 6 1024 []) = .ok (0, s') ∧ FreesRange 300 (PGSIZE * 1025) 0 (lonePage 6 1024 []) s' :=
  (deallocuvm_exact_iff (lonePage_placed (by decide) lonePage_far.1 pages_alone).own (by decide)
    (by decide)).mpr fun _ _ _ hs => absurd hs.2.1 (Nat.not_lt_zero _)

/-- From page 1 on, the loop goes from the missing table to page 1025, and page 1024 stays. -/
theorem deallocuvm_passes_over : ∃ s', deallocuvm smallKernel 300 (PGSIZE * 1025) PGSIZE
    (lonePage 6 1024 []) = .ok (PGSIZE, s') ∧ InRange PGSIZE (PGSIZE * 1025) 1024 ∧
      present (ent s'.mem 300 1024) = true := by
  obtain ⟨hk, htab, hent⟩ := lonePage_far
  obtain ⟨r, s', hrun, rfl, js, hc, hjs⟩ := wp_returns (deallocuvm_spec (E := fun _ => False) (k := 1)
    (lonePage_placed (by decide : 6 < 8) hk pages_alone).own (by decide : PGSIZE < PGSIZE * 1025)
    (by decide) (by decide))
  refine ⟨s', hrun, ⟨by decide, by decide⟩, ?_⟩
  rw [hc.ent 1024 (hk.trans_le UPAGES_le), if_neg, hent]
  · exact present_pte
  · intro hm
    refine ((hjs 1024).mp hm).2.2.2 ⟨by rw [NENTRIES_eq]; decide, by rw [NENTRIES_eq]; decide, ?_⟩
    intro r _ hr
    rw [NENTRIES_eq] at hr
    obtain rfl : r = 0 := by omega
    exact htab

end Vm

end Xv6
