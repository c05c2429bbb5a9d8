import Xv6.VmDealloc

/-!
# allocuvm and growproc

`allocuvm` takes a frame for each new page and maps it, and undoes everything when there is no frame
left. It does not look at the result of `mappages`: if there is no page for a page table, the frame is
lost and the page is not mapped, and the loop goes on. Which requests are refused is a matter of the
free list, of what `kalloc` denies and of the tables that are there (`requests`).

`growproc` takes 0 for a failure of `allocuvm` and of `deallocuvm`, and adds its argument to the size
modulo `2 ^ 32`.
-/

open Bytes TwoLevel StateWp Function Multiset

namespace Xv6

namespace Vm

variable {L : Link} {E : Stop → Prop} {R leak leak' : Multiset Nat} {s s' s'' : Phys}
  {d k n p i j c oldsz newsz sz : Nat} {js : List Nat}

/-! ### The requests -/

/-- The entry that `allocuvm` makes for a page. -/
abbrev upte (p : Nat) : Nat := PGSIZE * p ||| (PTE_W ||| PTE_U) ||| PTE_P

/-- The requests for pages `k` to `k + n`, with `m` free pages and the tables `has`: whether a
page table is refused, and whether a frame is. -/
def requests : (Nat → Bool) → Nat → (Nat → Bool) → Nat → Nat → Bool × Bool
  | _, _, _, 0, _ => (false, false)
  | deny, m, has, n + 1, k =>
    if deny 0 || decide (m ≤ 0) then (false, true)
    else if has (k / NENTRIES) then requests (fun i => deny (i + 1)) (m - 1) has n (k + 1)
    else if deny 1 || decide (m ≤ 1) then
      (true, (requests (fun i => deny (i + 2)) (m - 1) has n (k + 1)).2)
    else requests (fun i => deny (i + 2)) (m - 2) (update has (k / NENTRIES) true) n (k + 1)

/-- The requests of `allocuvm` in a state. -/
def Phys.requests (s : Phys) (d n k : Nat) : Bool × Bool :=
  Vm.requests s.deny s.free.length (fun r => (tab s.mem d r).isSome) n k

theorem requests_refused (h : s.fails 0 = true) : s.requests d (n + 1) k = (false, true) := if_pos h

theorem requests_granted (h : s.fails 0 = false) (htook : Took (1 + c) s s')
    (hc : c = if tab s.mem d (k / NENTRIES) = none then 1 else 0)
    (hok : tab s.mem d (k / NENTRIES) = none → s.fails 1 = false)
    (hnew : tab s'.mem d (k / NENTRIES) ≠ none)
    (htab : ∀ i ≠ k / NENTRIES, tab s'.mem d i = tab s.mem d i) :
    s.requests d (n + 1) k = s'.requests d n (k + 1) := by
  have hdeny : s'.deny = fun i => s.deny (i + (1 + c)) := funext htook.deny
  have hlen : s'.free.length = s.free.length - (1 + c) := by rw [htook.free, List.length_drop]
  have hhas : (fun r => (tab s'.mem d r).isSome)
      = update (fun r => (tab s.mem d r).isSome) (k / NENTRIES) true := by
    funext r
    by_cases hr : r = k / NENTRIES
    · rw [hr, update_self]
      exact Option.isSome_iff_ne_none.mpr hnew
    · rw [update_of_ne hr, htab r hr]
  rw [Phys.requests, Phys.requests, requests, if_neg (by rw [← Phys.fails, h]; exact Bool.false_ne_true),
    hdeny, hlen, hhas]
  cases ht : tab s.mem d (k / NENTRIES) with
  | some t =>
    rw [ht, if_neg (by rintro ⟨⟩)] at hc
    subst hc
    rw [Option.isSome_some, if_pos rfl, update_eq_self_iff.mpr (by rw [ht]; rfl)]
  | none =>
    rw [ht, if_pos rfl] at hc
    subst hc
    rw [Option.isSome_none, if_neg Bool.false_ne_true, if_neg (by rw [← Phys.fails, hok ht]; exact Bool.false_ne_true)]

theorem requests_hole (h : s.fails 0 = false) (ht : tab s.mem d (k / NENTRIES) = none)
    (hfail : s.fails 1 = true) (hdeny : ∀ i, s'.deny i = s.deny (i + 2))
    (hlen : s'.free.length = s.free.length - 1) (htab : ∀ i, tab s'.mem d i = tab s.mem d i) :
    s.requests d (n + 1) k = (true, (s'.requests d n (k + 1)).2) := by
  have hhas : (fun r => (tab s'.mem d r).isSome) = fun r => (tab s.mem d r).isSome :=
    funext fun r => by rw [htab]
  rw [Phys.requests, Phys.requests, requests, if_neg (by rw [← Phys.fails, h]; exact Bool.false_ne_true),
    if_neg (by rw [ht]; exact Bool.false_ne_true), if_pos (by rw [← Phys.fails]; exact hfail),
    show s'.deny = fun i => s.deny (i + 2) from funext hdeny, hlen, hhas]

/-! ### A page from the allocator -/

/-- The state after the first free page is taken and filled. -/
def Phys.grab (s : Phys) (p : Nat) (f : List Nat) (b : Block) : Phys :=
  { s.tick with free := f, mem := update s.mem p b }

/-- The address space is the same in two states. -/
structure Alike (R : Multiset Nat) (d : Nat) (s s' : Phys) : Prop where
  keeps : Keeps R s s'
  tab : ∀ i, tab s'.mem d i = tab s.mem d i
  ent : ∀ j < NPAGES, ent s'.mem d j = ent s.mem d j
  owned : owned s'.mem d = owned s.mem d
  frame : ∀ q ∈ frames s.mem d, s'.mem q = s.mem q

theorem Own.grab {f : List Nat} (h : Own L R d s) (hf : s.free = p :: f) (b : Block) :
    Own L ({p} + R) d (s.grab p f b) ∧ Alike R d s (s.grab p f b) := by
  obtain ⟨hR, hown⟩ := h.free_ne (show p ∈ s.free by rw [hf]; exact List.mem_cons_self)
  have hsame : ∀ q, q ≠ p → (s.grab p f b).mem q = s.mem q := fun q hq => update_of_ne hq ..
  have hspace : ∀ q ∈ owned s.mem d, (s.grab p f b).mem q = s.mem q := fun q hq =>
    hsame q fun e => hown (e ▸ hq)
  obtain ⟨-, htab, hent, howned⟩ := owned_congr fun q hq => hspace q <| by
    rcases mem_cons.mp hq with rfl | hq
    · exact mem_cons_self _ _
    · exact mem_cons_of_mem (mem_add.mpr (.inl hq))
  refine ⟨?_, ⟨fun q hq => hsame q fun e => hR (e ▸ hq), rfl, rfl⟩, htab, hent, howned, fun q hq => ?_⟩
  · have hsum : {p} + R + owned (s.grab p f b).mem d + (s.grab p f b).free
        = R + owned s.mem d + s.free := by
      rw [howned, hf, singleton_add, cons_add, cons_add,
        ← cons_coe, add_cons]
      rfl
    rw [Own, hsum]
    exact h
  · exact hspace q (mem_cons_of_mem (mem_add.mpr (.inr hq)))

theorem held_user (hk : k < UPAGES) : held k (upte p) = {p} := by
  rw [held, if_pos hk, next_pte (by decide)]
  rfl

theorem mappage_spec (h : Own L ({p} + R) d s) (hk : k < UPAGES)
    (hnone : present (ent s.mem d k) = false) {Q : Bool → Phys → Prop}
    (hfail : tab s.mem d (k / NENTRIES) = none → s.fails 0 = true → Q false s.tick)
    (hgo : ∀ s', (tab s.mem d (k / NENTRIES) = none → s.fails 0 = false) →
      Placed L R d k (upte p) s s' → Q true s') :
    wp E (mappages L d (PGSIZE * k) PGSIZE (PGSIZE * p) (PTE_W ||| PTE_U)) Q s := by
  have hkN := hk.trans_le UPAGES_le
  have hp : p < 2 ^ 20 := by
    have := (h.pool p (by simp)).2
    rw [NFRAME_eq] at this
    omega
  have hone : mappages L d (PGSIZE * k) (PGSIZE * 1) (PGSIZE * p) (PTE_W ||| PTE_U) = _ :=
    mappages_eq Nat.one_pos hkN
  rw [Nat.mul_one] at hone
  rw [hone]
  by_cases hcase : tab s.mem d (k / NENTRIES) = none ∧ s.fails 0 = true
  · rw [mapLoop, wp_bind]
    refine walk_alloc_spec h hkN (fun t ht => ?_) hfail fun q f _ hok _ => ?_
    · rw [hcase.1] at ht
      cases ht
    · rw [hcase.2] at hok
      cases hok
  · refine mapLoop_succ (w := upte p) (R := R) (by rwa [held_user hk]) hkN (pte_lt (by decide) hp) rfl
      (fun h' => ?_) hfail fun s' _ hs => hgo s' (fun ht => ?_) hs
    · rw [hnone] at h'
      cases h'
    · exact Bool.eq_false_iff.mpr fun hf => hcase ⟨ht, hf⟩

/-! ### The loop -/

/-- Pages `k` to `k + n` have been asked for. Some of them are mapped to fresh frames; `leak` are
the frames that are lost. -/
structure Grew (L : Link) (R leak : Multiset Nat) (d k n : Nat) (s s' : Phys) : Prop where
  own : Own L (leak + R) d s'
  keeps : Keeps R s s'
  total : leak + (owned s'.mem d + s'.free) = owned s.mem d + s.free
  sub : ∀ p ∈ s'.free, p ∈ s.free
  lost : ∀ p ∈ leak, p ∈ s.free
  tab_old : ∀ i t, tab s.mem d i = some t → tab s'.mem d i = some t
  same : ∀ j < NPAGES, ¬ (k ≤ j ∧ j < k + n) → ent s'.mem d j = ent s.mem d j
  gap : ∀ j, k ≤ j → j < k + n → present (ent s.mem d j) = false
  page : ∀ j, k ≤ j → j < k + n → present (ent s'.mem d j) = false ∨
    ∃ p ∈ s.free, ent s'.mem d j = upte p ∧ s'.mem p = zero
  frame : ∀ p ∈ frames s.mem d, s'.mem p = s.mem p

/-- All the pages are mapped. -/
def Full (mem : Nat → Block) (d k n : Nat) : Prop :=
  ∀ j, k ≤ j → j < k + n → present (ent mem d j) = true

theorem mem_frames (hk : k < UPAGES) (he : ent s.mem d k = upte p) : p ∈ frames s.mem d :=
  mem_gather.mpr ⟨k, hk, by rw [he, next_pte (by decide)]⟩

namespace Grew

theorem refl (h : Own L R d s) (hnone : ∀ j, k ≤ j → j < k + n → present (ent s.mem d j) = false) :
    Grew L R 0 d k n s s where
  own := by rwa [zero_add]
  keeps := .refl
  total := zero_add _
  sub _ hp := hp
  lost _ hp := absurd hp (notMem_zero _)
  tab_old _ _ ht := ht
  same _ _ _ := rfl
  gap := hnone
  page j hj hj' := .inl (hnone j hj hj')
  frame _ _ := rfl

theorem frames_sub (h : Grew L R leak d k n s s') (hp : p ∈ frames s.mem d) : p ∈ frames s'.mem d := by
  obtain ⟨i, hi, hnext⟩ := mem_gather.mp hp
  refine mem_gather.mpr ⟨i, hi, ?_⟩
  rw [h.same i (hi.trans_le UPAGES_le), hnext]
  intro hin
  rw [next_eq_none.mpr (h.gap i hin.1 hin.2)] at hnext
  cases hnext

theorem trans (h : Grew L R leak d k 1 s s') (h' : Grew L (leak + R) leak' d (k + 1) n s' s'')
    (hk : k + (n + 1) ≤ UPAGES) : Grew L R (leak + leak') d k (n + 1) s s'' where
  own := by
    rw [add_comm leak, add_assoc]
    exact h'.own
  keeps := h.keeps.trans (h'.keeps.mono fun p hp => mem_add.mpr (.inr hp))
  total := by rw [add_assoc, h'.total, h.total]
  sub p hp := h.sub p (h'.sub p hp)
  lost p hp := (mem_add.mp hp).elim (h.lost p) fun hp => h.sub p (h'.lost p hp)
  tab_old i t ht := h'.tab_old i t (h.tab_old i t ht)
  same j hj hout := (h'.same j hj (by omega)).trans (h.same j hj (by omega))
  page j hj hj' := by
    rcases Nat.eq_or_lt_of_le hj with rfl | hlt
    · -- the rest does not touch the first page, nor its frame
      have hk' : k < UPAGES := by omega
      have he := h'.same k (hk'.trans_le UPAGES_le) (by omega)
      rw [he]
      refine (h.page k le_rfl (Nat.lt_succ_self k)).imp_right fun ⟨p, hp, hpte, hzero⟩ => ?_
      exact ⟨p, hp, hpte, (h'.frame p (mem_frames hk' hpte)).trans hzero⟩
    · refine (h'.page j hlt (by omega)).imp_right fun ⟨p, hp, hrest⟩ => ⟨p, h.sub p hp, hrest⟩
  gap j hj hj' := by
    rcases Nat.eq_or_lt_of_le hj with rfl | hlt
    · exact h.gap k le_rfl (Nat.lt_succ_self k)
    · have hu : j < NPAGES := (by omega : j < UPAGES).trans_le UPAGES_le
      rw [← h.same j hu (by omega)]
      exact h'.gap j hlt (by omega)
  frame p hp := by
    rw [h'.frame p (h.frames_sub hp), h.frame p hp]

theorem placed {f : List Nat} (h : Own L R d s) (hf : s.free = p :: f) (hk : k < UPAGES)
    (hnone : present (ent s.mem d k) = false) (hp : Placed L R d k (upte p) (s.grab p f zero) s') :
    Grew L R 0 d k 1 s s' := by
  obtain ⟨-, ha⟩ := h.grab hf zero
  have hkeeps := hp.keeps
  have htotal := hp.total
  have hsub : ∀ q ∈ f, q ∈ s.free := fun q hq => by rw [hf]; exact List.mem_cons_of_mem p hq
  rw [held_user hk] at hkeeps htotal
  refine ⟨by rw [zero_add]; exact hp.own,
    ha.keeps.trans (hkeeps.mono fun q hq => mem_add.mpr (.inr hq)), ?_, fun q hq => ?_,
    fun _ hq => absurd hq (notMem_zero _), fun i t ht => hp.tab_old i t ((ha.tab i).trans ht),
    fun j hj hout => ?_, fun j hj hj' => ?_, fun j hj hj' => ?_, fun q hq => ?_⟩
  · rw [zero_add, htotal, ha.owned, hf, singleton_add, ← add_cons]
    rfl
  · rw [hp.took.free] at hq
    exact hsub q (List.mem_of_mem_drop hq)
  · rw [hp.ent j hj, if_neg (by omega), ha.ent j hj]
  · rw [show j = k by omega]
    exact hnone
  · rw [show j = k by omega, hp.ent k (hk.trans_le UPAGES_le), if_pos rfl]
    refine .inr ⟨p, by rw [hf]; exact List.mem_cons_self, rfl, ?_⟩
    rw [hkeeps.mem p (by simp)]
    exact update_self ..
  · have hq' : q ∈ frames (s.grab p f zero).mem d := by
      rwa [frames, gather_congr fun j hj => by rw [ha.ent j (hj.trans_le UPAGES_le)]]
    rw [hp.frame q hq', ha.frame q hq]

theorem hole {f : List Nat} (h : Own L R d s) (hf : s.free = p :: f) (hk : k < UPAGES)
    (hnone : present (ent s.mem d k) = false) : Grew L R {p} d k 1 s (s.grab p f zero).tick := by
  obtain ⟨hown, ha⟩ := h.grab hf zero
  refine ⟨hown, ⟨ha.keeps.mem, ha.keeps.twice, ha.keeps.log⟩, ?_,
    fun q hq => by rw [hf]; exact List.mem_cons_of_mem p hq, fun q hq => ?_, fun i t ht => (ha.tab i).trans ht,
    fun j hj _ => ha.ent j hj, fun j hj hj' => ?_, fun j hj hj' => ?_, ha.frame⟩
  · change {p} + (owned (s.grab p f zero).mem d + f) = _
    rw [ha.owned, hf, singleton_add, ← add_cons]
    rfl
  · rw [mem_singleton.mp hq, hf]
    exact List.mem_cons_self
  · rw [show j = k by omega]
    exact hnone
  · left
    rw [show j = k by omega]
    exact (congrArg present (ha.ent k (hk.trans_le UPAGES_le))).trans hnone

theorem cleared (h : Grew L R leak d k n s s') (hc : Cleared L (leak + R) d js s' s'')
    (hjs : ∀ j ∈ js, k ≤ j ∧ j < k + n) (hk : k + n ≤ UPAGES) : Grew L R leak d k n s s'' where
  own := hc.own
  keeps := h.keeps.trans (hc.keeps.mono fun p hp => mem_add.mpr (.inr hp))
  total := by rw [hc.total, h.total]
  sub p hp := by
    rw [hc.free] at hp
    rcases List.mem_append.mp hp with hp | hp
    · -- a page that was mapped by the loop
      obtain ⟨j, hj, rfl⟩ := List.mem_map.mp hp
      rcases h.page j (hjs j hj).1 (hjs j hj).2 with hnone | ⟨p, hp, he, -⟩
      · rw [(hc.mapped j hj).2] at hnone
        cases hnone
      · rw [he, pteAddr_pte (by decide)]
        exact hp
    · exact h.sub p hp
  lost := h.lost
  tab_old i t ht := (hc.tab i).trans (h.tab_old i t ht)
  same j hj hout := by rw [hc.ent j hj, if_neg fun hm => hout (hjs j hm), h.same j hj hout]
  gap := h.gap
  page j hj hj' := by
    by_cases hpres : present (ent s''.mem d j) = true
    swap
    · exact .inl (Bool.eq_false_iff.mpr hpres)
    have hju : j < UPAGES := by omega
    have he := (hc.ent_of_present (hju.trans_le UPAGES_le) hpres).2
    rw [he] at hpres ⊢
    refine (h.page j hj hj').imp_right fun ⟨p, hp, hpte, hzero⟩ => ⟨p, hp, hpte, ?_⟩
    rw [hc.frame p (mem_frames hju (he.trans hpte)), hzero]
  frame p hp := by
    obtain ⟨i, hi, hnext⟩ := mem_gather.mp hp
    have hout : ¬ (k ≤ i ∧ i < k + n) := by
      intro hin
      rw [next_eq_none.mpr (h.gap i hin.1 hin.2)] at hnext
      cases hnext
    -- it is still mapped
    have hp' : p ∈ frames s''.mem d := by
      refine mem_gather.mpr ⟨i, hi, ?_⟩
      have hiN := hi.trans_le UPAGES_le
      rw [hc.ent i hiN, if_neg fun hm => hout (hjs i hm), h.same i hiN hout, hnext]
    rw [hc.frame p hp', h.frame p hp]

end Grew

theorem allocLoop_spec : ∀ n k s (R : Multiset Nat), Own L R d s → k + n ≤ UPAGES →
    (∀ j, k ≤ j → j < k + n → present (ent s.mem d j) = false) →
    wp E (allocLoop L d n (PGSIZE * k)) (fun b s' => b = !(s.requests d n k).2 ∧ ∃ leak,
      Grew L R leak d k n s s' ∧ (leak = 0 ↔ (s.requests d n k).1 = false) ∧
      (b = true → (leak = 0 ↔ Full s'.mem d k n))) s := by
  intro n
  induction n with
  | zero =>
    intro k s R h hk hnone
    exact ⟨rfl, 0, .refl h hnone, iff_of_true rfl rfl, fun _ => iff_of_true rfl fun j _ _ => by omega⟩
  | succ n ih =>
    intro k s R h hk hnone
    have hku : k < UPAGES := by omega
    have hkN := hku.trans_le UPAGES_le
    rw [allocLoop, wp_bind]
    refine kalloc_spec (fun hfail => ?_) fun p f hok hf => ?_
    · rw [requests_refused hfail]
      refine ⟨rfl, 0, ?_, iff_of_true rfl rfl, nofun⟩
      have hr := Grew.refl h hnone
      exact { hr with keeps := ⟨fun _ _ => rfl, rfl, rfl⟩ }
    -- the rest of the loop, after this page
    have hrest : ∀ leak₁ s₁, Grew L R leak₁ d k 1 s s₁ →
        wp E (allocLoop L d n (PGSIZE * k + PGSIZE)) (fun b s' => b = !(s₁.requests d n (k + 1)).2 ∧
          ∃ leak₂, Grew L R (leak₁ + leak₂) d k (n + 1) s s' ∧
            (leak₂ = 0 ↔ (s₁.requests d n (k + 1)).1 = false) ∧
            (b = true → (leak₂ = 0 ↔ Full s'.mem d (k + 1) n)) ∧
            ent s'.mem d k = ent s₁.mem d k) s₁ := by
      intro leak₁ s₁ h₁
      rw [← Nat.mul_succ]
      refine wp_mono (ih (k + 1) s₁ _ h₁.own (by omega) fun j hj hj' => ?_)
        fun b s' ⟨hb, leak₂, h₂, hl, hf⟩ => ⟨hb, leak₂, h₁.trans h₂ hk, hl, hf, ?_⟩
      · rw [h₁.same j ((by omega : j < UPAGES).trans_le UPAGES_le) (by omega)]
        exact hnone j (by omega) (by omega)
      · exact h₂.same k hkN (by omega)
    have hnk := hnone k le_rfl (by omega)
    obtain ⟨hown, ha⟩ := h.grab hf zero
    have hpool := h.pool p (mem_add.mpr (.inr (by rw [hf]; exact List.mem_cons_self)))
    rw [wp_bind, wp_fill hpool, wp_bind]
    refine mappage_spec (s := s.grab p f zero) hown hku (by rw [ha.ent k hkN]; exact hnk)
      (fun ht hfail => ?_) fun s₁ hok' hp => ?_
    · -- no page table: the frame is lost, and the page is not mapped
      rw [ha.tab] at ht
      have hfail' : s.fails 1 = true := by
        rw [← (took_one hf).fails 0]
        exact hfail
      have hreq : s.requests d (n + 1) k = (true, ((s.grab p f zero).tick.requests d n (k + 1)).2) :=
        requests_hole hok ht hfail' (fun _ => rfl) (by rw [hf]; rfl) ha.tab
      rw [hreq]
      refine wp_mono (hrest {p} _ (.hole h hf hku hnk)) fun b s' ⟨hb, leak₂, hg, _, _, he⟩ =>
        ⟨hb, {p} + leak₂, hg, iff_of_false (by simp) (by simp), fun _ => iff_of_false (by simp) ?_⟩
      intro hfull
      have hpres := hfull k le_rfl (by omega)
      rw [he] at hpres
      change present (ent (s.grab p f zero).mem d k) = true at hpres
      rw [ha.ent k hkN, hnk] at hpres
      cases hpres
    · -- the page is mapped
      have htook : Took 1 s (s.grab p f zero) := ⟨(took_one hf).le, (took_one hf).free, fun _ => rfl⟩
      have hreq := requests_granted (n := n) hok (htook.trans hp.took) (by rw [ha.tab])
        (fun ht => ?_) hp.tab_new fun i hi => (hp.tab_same i hi).trans (ha.tab i)
      swap
      · rw [← ha.tab] at ht
        exact (htook.fails 0).symm.trans (hok' ht)
      rw [hreq]
      refine wp_mono (hrest 0 s₁ (.placed h hf hku hnk hp)) fun b s' ⟨hb, leak₂, hg, hl, hfull, he⟩ =>
        ⟨hb, leak₂, by rwa [zero_add] at hg, hl, fun hb' => (hfull hb').trans ⟨?_, ?_⟩⟩
      · intro hall j hj hj'
        rcases Nat.eq_or_lt_of_le hj with rfl | hlt
        · rw [he, hp.ent k hkN, if_pos rfl]
          exact present_pte
        · exact hall j hlt (by omega)
      · exact fun hall j hj hj' => hall j (by omega) (by omega)

/-! ### allocuvm -/

/-- The user pages are those of `[0, PGROUNDUP(sz))`. -/
def HasPages (d sz : Nat) (s : Phys) : Prop :=
  ∀ j < UPAGES, present (ent s.mem d j) = true ↔ PGSIZE * j < pgroundup sz

/-- The first page that `allocuvm` adds. -/
def firstPage (oldsz : Nat) : Nat := pgroundup oldsz / PGSIZE

/-- The number of pages that it adds. -/
def newPages (oldsz newsz : Nat) : Nat := (newsz - pgroundup oldsz + (PGSIZE - 1)) / PGSIZE

/-- Its requests: whether a page table is refused, and whether a frame is. -/
def Phys.growth (s : Phys) (d oldsz newsz : Nat) : Bool × Bool :=
  s.requests d (newPages oldsz newsz) (firstPage oldsz)

theorem pgroundup_firstPage (h : sz < KERNBASE) : pgroundup sz = PGSIZE * firstPage sz := by
  obtain ⟨k, hk, -⟩ := pgroundup_eq h
  rw [firstPage, hk, Nat.mul_div_cancel_left k (by decide)]

theorem inRange_iff (hle : oldsz ≤ newsz) (hlt : newsz < KERNBASE) : InRange oldsz newsz j ↔
    firstPage oldsz ≤ j ∧ j < firstPage oldsz + newPages oldsz newsz := by
  have hk := pgroundup_firstPage (hle.trans_lt hlt)
  rw [InRange, newPages, hk]
  generalize firstPage oldsz = k
  simp only [PGSIZE]
  omega

theorem newPages_self (h : sz < KERNBASE) : newPages sz sz = 0 := by
  obtain ⟨k, hk, hk', -⟩ := pgroundup_eq h
  rw [newPages, hk, Nat.sub_eq_zero_of_le hk', Nat.div_eq_of_lt (by decide)]

theorem pages_le (hle : oldsz ≤ newsz) (hlt : newsz < KERNBASE) :
    firstPage oldsz + newPages oldsz newsz ≤ UPAGES := by
  obtain ⟨k, hk, -, hk'⟩ := pgroundup_eq (hle.trans_lt hlt)
  rw [firstPage, newPages, hk, Nat.mul_div_cancel_left k (by decide), UPAGES_eq]
  simp only [PGSIZE, KERNBASE] at *
  omega

theorem HasPages.gap (h : HasPages d oldsz s) (hle : oldsz ≤ newsz) (hlt : newsz < KERNBASE)
    (hj : firstPage oldsz ≤ j) (hj' : j < UPAGES) : present (ent s.mem d j) = false := by
  refine Bool.eq_false_iff.mpr fun hp => ?_
  have hlt' := (h j hj').mp hp
  rw [pgroundup_firstPage (hle.trans_lt hlt)] at hlt'
  exact absurd (Nat.lt_of_mul_lt_mul_left hlt') (by omega)

/-- With the pages from 0 on, a loop from the end of them on passes over nothing. -/
theorem HasPages.not_skipped (h : HasPages d sz s) (hlt : sz < KERNBASE)
    (hold : ∀ i t, tab s.mem d i = some t → tab s'.mem d i = some t) :
    ¬ Skipped (tab s'.mem d) (firstPage sz) j := by
  intro hs
  have hk := pgroundup_firstPage hlt
  have hu := pages_le le_rfl hlt
  generalize firstPage sz = k at *
  -- the page before is mapped, so the table is there
  have hrow : (k - 1) / NENTRIES = k / NENTRIES ∧ 0 < k := by
    have := hs.2.1
    simp only [NENTRIES] at this ⊢
    omega
  have hpres : present (ent s.mem d (k - 1)) = true := by
    rw [h (k - 1) (by omega), hk]
    exact Nat.mul_lt_mul_of_pos_left (by omega) (by decide)
  cases ht : tab s.mem d (k / NENTRIES) with
  | none =>
    rw [ent, entry_of_none (by rw [hrow.1]; exact ht)] at hpres
    cases hpres
  | some t =>
    have hnone := hs.2.2 _ le_rfl hs.1
    rw [hold _ t ht] at hnone
    cases hnone

theorem allocuvm_spec (h : Own L R d s) (hp : HasPages d oldsz s) (hle : oldsz ≤ newsz)
    (hlt : newsz < KERNBASE) : wp E (allocuvm L d oldsz newsz) (fun r s' => ∃ leak,
      Grew L R leak d (firstPage oldsz) (newPages oldsz newsz) s s' ∧
      (leak = 0 ↔ (s.growth d oldsz newsz).1 = false) ∧
      ((s.growth d oldsz newsz).2 = true → r = 0 ∧
        ∀ j, InRange oldsz newsz j → present (ent s'.mem d j) = false) ∧
      ((s.growth d oldsz newsz).2 = false → r = newsz ∧
        (leak = 0 ↔ ∀ j, InRange oldsz newsz j → present (ent s'.mem d j) = true))) s := by
  have hk := pgroundup_firstPage (hle.trans_lt hlt)
  have hu := pages_le hle hlt
  rw [allocuvm, if_neg (Nat.not_le.mpr hlt), if_neg (Nat.not_lt.mpr hle)]
  simp only [wp_bind]
  rw [hk]
  have hloop := allocLoop_spec (E := E) (newPages oldsz newsz) (firstPage oldsz) s R h hu
    fun j hj hj' => hp.gap hle hlt hj (by omega)
  rw [newPages, hk] at hloop
  refine wp_mono hloop ?_
  rintro b s₁ ⟨hb, leak, hg, hl, hfull⟩
  rw [← hk, ← newPages] at hg hl hfull hb
  rw [← Phys.growth] at hl hb
  cases hfr : (s.growth d oldsz newsz).2 with
  | false =>
    rw [hfr] at hb
    subst hb
    refine ⟨leak, hg, hl, by rintro ⟨⟩, fun _ => ⟨rfl, (hfull rfl).trans ?_⟩⟩
    exact forall_congr' fun j => ⟨fun hj hr => hj ((inRange_iff hle hlt).mp hr).1
      ((inRange_iff hle hlt).mp hr).2, fun hj h1 h2 => hj ((inRange_iff hle hlt).mpr ⟨h1, h2⟩)⟩
  | true =>
    rw [hfr] at hb
    subst hb
    have hlt' : oldsz < newsz := by
      refine lt_of_le_of_ne hle fun e => ?_
      have hzero : newPages oldsz newsz = 0 := by rw [e, newPages_self hlt]
      rw [Phys.growth, hzero] at hfr
      cases hfr
    rw [Bool.not_true, if_neg Bool.false_ne_true, wp_bind]
    refine wp_mono (deallocuvm_spec hg.own hlt' hlt.le hk) ?_
    rintro _ s₂ ⟨-, js, hc, hjs⟩
    have hin : ∀ j ∈ js, InRange oldsz newsz j := fun j hj => by
      obtain ⟨h1, h2, -⟩ := (hjs j).mp hj
      exact ⟨by rw [hk]; exact Nat.mul_le_mul_left PGSIZE h1, h2⟩
    refine ⟨leak, hg.cleared hc (fun j hj => (inRange_iff hle hlt).mp (hin j hj)) hu, hl,
      fun _ => ⟨rfl, fun j hr => ?_⟩, by rintro ⟨⟩⟩
    obtain ⟨h1, h2⟩ := (inRange_iff hle hlt).mp hr
    rw [hc.ent j ((by omega : j < UPAGES).trans_le UPAGES_le)]
    split
    · rfl
    · next hnot =>
      refine Bool.eq_false_iff.mpr fun hpres => hnot ((hjs j).mpr ⟨h1, hr.2, hpres, ?_⟩)
      exact hp.not_skipped (hle.trans_lt hlt) hg.tab_old

/-- Every page up to `newsz` is mapped to a fresh frame of its own, and the rest is as before. -/
structure Grown (d oldsz newsz : Nat) (s s' : Phys) : Prop where
  page : ∀ j, InRange oldsz newsz j → ∃ p ∈ s.free, ent s'.mem d j = upte p ∧ s'.mem p = zero
  own : ∀ i j, InRange oldsz newsz i → InRange oldsz newsz j → ent s'.mem d i = ent s'.mem d j → i = j
  same : ∀ j < NPAGES, ¬ InRange oldsz newsz j → ent s'.mem d j = ent s.mem d j
  frame : ∀ p ∈ frames s.mem d, s'.mem p = s.mem p

/-- No page from `PGROUNDUP(oldsz)` on is mapped, and the pages that were taken are free again, or
page tables. -/
structure Undone (d oldsz : Nat) (s s' : Phys) : Prop where
  gone : ∀ j < UPAGES, pgroundup oldsz ≤ PGSIZE * j → present (ent s'.mem d j) = false
  back : ∀ p ∈ s.free, p ∈ s'.free ∨ p ∈ tables s'.mem d

theorem Grew.grown (h : Grew L R 0 d (firstPage oldsz) (newPages oldsz newsz) s s')
    (hle : oldsz ≤ newsz) (hlt : newsz < KERNBASE)
    (hfull : ∀ j, InRange oldsz newsz j → present (ent s'.mem d j) = true) :
    Grown d oldsz newsz s s' := by
  have hu := pages_le hle hlt
  have hpage : ∀ j, InRange oldsz newsz j → j < UPAGES ∧
      ∃ p ∈ s.free, ent s'.mem d j = upte p ∧ s'.mem p = zero := by
    intro j hr
    obtain ⟨h1, h2⟩ := (inRange_iff hle hlt).mp hr
    refine ⟨by omega, (h.page j h1 h2).resolve_left ?_⟩
    rw [hfull j hr]
    nofun
  refine ⟨fun j hr => (hpage j hr).2, fun i j hi hj he => ?_,
    fun j hj hr => h.same j hj fun hin => hr ((inRange_iff hle hlt).mpr hin), h.frame⟩
  -- the frames are distinct
  obtain ⟨hiu, p, -, hp, -⟩ := hpage i hi
  have hnd : (frames s'.mem d).Nodup :=
    nodup_of_le ((le_add_left _ _).trans (le_cons_self _ _)) h.own.space.nodup
  have hnext : next (ent s'.mem d i) = some p := by rw [hp, next_pte (by decide)]
  exact gather_inj hnd hiu (hpage j hj).1 hnext (he ▸ hnext)

theorem Grew.undone (h : Grew L R 0 d (firstPage oldsz) (newPages oldsz newsz) s s')
    (hs : Own L R d s) (hp : HasPages d oldsz s) (hle : oldsz ≤ newsz) (hlt : newsz < KERNBASE)
    (hnone : ∀ j, InRange oldsz newsz j → present (ent s'.mem d j) = false) :
    Undone d oldsz s s' := by
  have hgone : ∀ j < UPAGES, pgroundup oldsz ≤ PGSIZE * j → present (ent s'.mem d j) = false := by
    intro j hj hge
    by_cases hr : InRange oldsz newsz j
    · exact hnone j hr
    · rw [h.same j (hj.trans_le UPAGES_le) fun hin => hr ((inRange_iff hle hlt).mpr hin)]
      exact Bool.eq_false_iff.mpr fun hpres => absurd ((hp j hj).mp hpres) (Nat.not_lt.mpr hge)
  refine ⟨hgone, fun p hfree => ?_⟩
  have hnot := (hs.free_ne hfree).2
  have hmem : p ∈ owned s'.mem d + s'.free := by
    rw [← zero_add (owned s'.mem d + (s'.free : Multiset Nat)), h.total]
    exact mem_add.mpr (.inr hfree)
  rcases mem_add.mp hmem with hown | hf
  swap
  · exact .inl hf
  rcases mem_cons.mp hown with rfl | hown
  · exact absurd (mem_cons_self _ _) hnot
  rcases mem_add.mp hown with ht | hfr
  · exact .inr ht
  -- a mapped frame was mapped before, so it was not free
  obtain ⟨j, hj, hnext⟩ := mem_gather.mp hfr
  have hpres : present (ent s'.mem d j) = true := by
    by_contra hno
    rw [next_eq_none.mpr (Bool.eq_false_iff.mpr hno)] at hnext
    cases hnext
  have hout : ¬ InRange oldsz newsz j := fun hr => by
    rw [hgone j hj hr.1] at hpres
    cases hpres
  rw [h.same j (hj.trans_le UPAGES_le) fun hin => hout ((inRange_iff hle hlt).mpr hin)] at hnext
  exact absurd (mem_cons_of_mem (mem_add.mpr (.inr (mem_gather.mpr ⟨j, hj, hnext⟩)))) hnot

/-- `allocuvm` maps everything it claims, exactly if no request for a page table is refused. -/
theorem allocuvm_maps_iff (h : Own L R d s) (hp : HasPages d oldsz s) (hle : oldsz ≤ newsz)
    (hlt : newsz < KERNBASE) : (∃ r s', allocuvm L d oldsz newsz s = .ok (r, s') ∧
        (r = newsz ∨ r = 0) ∧ (r = newsz → Grown d oldsz newsz s s') ∧ (r = 0 → Undone d oldsz s s')) ↔
      (s.growth d oldsz newsz).1 = false := by
  obtain ⟨r, s', hrun, leak, hg, hl, hfail, hgrow⟩ :=
    wp_returns (allocuvm_spec (E := fun _ => False) h hp hle hlt)
  rw [← hl]
  constructor
  · rintro ⟨r₁, s₁, hrun₁, -, hgrown, hundone⟩
    obtain ⟨rfl, rfl⟩ : r = r₁ ∧ s' = s₁ := by
      rw [hrun] at hrun₁
      exact Prod.mk.inj (Except.ok.inj hrun₁)
    cases hfr : (s.growth d oldsz newsz).2 with
    | false =>
      obtain ⟨rfl, hfull⟩ := hgrow hfr
      refine hfull.mpr fun j hr => ?_
      obtain ⟨p, -, he, -⟩ := (hgrown rfl).page j hr
      rw [he]
      exact present_pte
    | true =>
      -- a lost page is not free and no page table
      refine eq_zero_of_forall_notMem fun p hpl => ?_
      have hR := mem_add.mpr (.inl hpl : p ∈ leak ∨ p ∈ R)
      rcases (hundone (hfail hfr).1).back p (hg.lost p hpl) with hf | ht
      · exact (hg.own.free_ne hf).1 hR
      · exact hg.own.rest_ne hR (mem_cons_of_mem (mem_add.mpr (.inl ht)))
  · rintro rfl
    refine ⟨r, s', hrun, ?_⟩
    cases hfr : (s.growth d oldsz newsz).2 with
    | false =>
      obtain ⟨rfl, hfull⟩ := hgrow hfr
      refine ⟨.inl rfl, fun _ => hg.grown hle hlt (hfull.mp rfl), fun h0 => ?_⟩
      -- nothing was asked for
      exact hg.undone h hp hle hlt fun j hr => absurd hr.2 (by omega)
    | true =>
      obtain ⟨rfl, hnone⟩ := hfail hfr
      refine ⟨.inr rfl, fun h0 => ?_, fun _ => hg.undone h hp hle hlt hnone⟩
      exact hg.grown hle hlt fun j hr => absurd hr.2 (by omega)

theorem hasPages_blank {f : List Nat} {deny : Nat → Bool} : HasPages d 0 (.blank f deny) := by
  intro j _
  rw [(owned_zero rfl).2.2, show pgroundup 0 = 0 by decide]
  exact iff_of_false Bool.false_ne_true (Nat.not_lt_zero _)

theorem own_blank : Own smallKernel 0 300 (.blank [301, 302] fun _ => false) ∧
    Own smallKernel 0 300 (.blank [301] fun _ => false) := by
  constructor <;> refine .blank ⟨by decide, ?_⟩ <;> rw [NFRAME_eq] <;> decide

/-- Two free pages are enough for the first page. -/
theorem allocuvm_maps_first : ∃ r s', allocuvm smallKernel 300 0 PGSIZE
    (.blank [301, 302] fun _ => false) = .ok (r, s') ∧ (r = PGSIZE ∨ r = 0) ∧
      (r = PGSIZE → Grown 300 0 PGSIZE (.blank [301, 302] fun _ => false) s') ∧
      (r = 0 → Undone 300 0 (.blank [301, 302] fun _ => false) s') := by
  refine (allocuvm_maps_iff own_blank.1 hasPages_blank (by decide) (by decide)).mpr ?_
  rw [Phys.growth, show newPages 0 PGSIZE = 1 by decide]
  have hnew : tab (Phys.blank [301, 302] fun _ => false).mem 300 = fun _ => none :=
    funext (owned_zero rfl).2.1
  rw [Phys.requests, hnew]
  rfl

/-- With one, the frame is taken, there is no page table, and `allocuvm` returns `newsz`. -/
theorem allocuvm_hole : ∃ s', allocuvm smallKernel 300 0 PGSIZE (.blank [301] fun _ => false) =
    .ok (PGSIZE, s') ∧ InRange 0 PGSIZE 0 ∧ present (ent s'.mem 300 0) = false := by
  obtain ⟨r, s', hrun, leak, hg, hl, -, hgrow⟩ := wp_returns
    (allocuvm_spec (E := fun _ => False) own_blank.2 hasPages_blank (by decide) (by decide : PGSIZE < KERNBASE))
  have hnew : tab (Phys.blank [301] fun _ => false).mem 300 = fun _ => none := funext (owned_zero rfl).2.1
  have hgr : (Phys.blank [301] fun _ => false).growth 300 0 PGSIZE = (true, false) := by
    rw [Phys.growth, show newPages 0 PGSIZE = 1 by decide, Phys.requests, hnew]
    rfl
  rw [hgr] at hl hgrow
  obtain ⟨rfl, hfull⟩ := hgrow rfl
  refine ⟨s', hrun, ⟨by decide, by decide⟩, Bool.eq_false_iff.mpr fun hpres => ?_⟩
  have hzero : leak = 0 := hfull.mpr fun j hr => by
    obtain rfl : j = 0 := by
      have := hr.2
      simp only [PGSIZE] at this
      omega
    exact hpres
  exact absurd (hl.mp hzero) (by decide)

/-! ### growproc -/

/-- The entry of a mapped page, and what is in the page. -/
def view (mem : Nat → Block) (d j : Nat) : Option (Nat × Block) :=
  if present (ent mem d j) = true then some (ent mem d j, mem (pteAddr (ent mem d j))) else none

theorem view_of_absent {mem : Nat → Block} (h : present (ent mem d j) = false) : view mem d j = none :=
  if_neg (by rw [h]; exact Bool.false_ne_true)

theorem view_congr (he : ent s'.mem d j = ent s.mem d j) (hj : j < UPAGES)
    (hm : ∀ p ∈ frames s.mem d, s'.mem p = s.mem p) : view s'.mem d j = view s.mem d j := by
  rw [view, view, he]
  split
  · next hp => rw [hm _ (mem_gather.mpr ⟨j, hj, next_of_present hp⟩)]
  · rfl

/-- The process has the size `sz + n`, with what it had below, and zeros above. -/
structure Resized (d sz : Nat) (n : Int) (s : Phys) (sz' : Nat) (s' : Phys) : Prop where
  size : (sz' : Int) = sz + n
  bound : sz' < KERNBASE
  pages : HasPages d sz' s'
  keeps : ∀ j, PGSIZE * j < min sz sz' → view s'.mem d j = view s.mem d j
  zero : ∀ j, InRange sz sz' j → ∃ e, view s'.mem d j = some (e, zero)

/-- `growproc` resizes the process exactly, or not at all. -/
def Exactly (d sz : Nat) (n : Int) (s : Phys) (r : Int × Nat) (s' : Phys) : Prop :=
  r.1 = 0 ∧ Resized d sz n s r.2 s' ∨
    r.1 = -1 ∧ r.2 = sz ∧ ∀ j < UPAGES, view s'.mem d j = view s.mem d j

theorem pgroundup_lt_iff (h : sz < KERNBASE) : PGSIZE * j < pgroundup sz ↔ PGSIZE * j < sz := by
  obtain ⟨k, hk, h1, h2⟩ := pgroundup_eq h
  rw [hk]
  simp only [PGSIZE] at *
  omega

theorem HasPages.lt (h : HasPages d sz s) (hsz : sz < KERNBASE) (hj : j < UPAGES) :
    present (ent s.mem d j) = true ↔ PGSIZE * j < sz := (h j hj).trans (pgroundup_lt_iff hsz)

theorem lt_UPAGES (hsz : sz < KERNBASE) (hj : PGSIZE * j < sz) : j < UPAGES := by
  rw [UPAGES_eq]
  simp only [PGSIZE, KERNBASE] at *
  omega

theorem Grown.resized {n : Int} (h : Grown d sz newsz s s') (hp : HasPages d sz s) (hle : sz ≤ newsz)
    (hlt : newsz < KERNBASE) (hn : (newsz : Int) = sz + n) : Resized d sz n s newsz s' := by
  have hsz := hle.trans_lt hlt
  refine ⟨hn, hlt, fun j hj => ?_, fun j hj => ?_, fun j hj => ?_⟩
  · rw [pgroundup_lt_iff hlt]
    by_cases hr : InRange sz newsz j
    · obtain ⟨p, -, he, -⟩ := h.page j hr
      rw [he]
      exact iff_of_true present_pte hr.2
    · rw [h.same j (hj.trans_le UPAGES_le) hr, hp.lt hsz hj]
      refine ⟨fun hj => hj.trans_le hle, fun hj' => ?_⟩
      by_contra hge
      exact hr ⟨by rw [← Nat.not_lt, pgroundup_lt_iff hsz]; exact hge, hj'⟩
  · have hj' := lt_of_lt_of_le hj (min_le_left _ _)
    refine view_congr (h.same j ?_ fun hr => ?_) (lt_UPAGES hsz hj') h.frame
    · exact (lt_UPAGES hsz hj').trans_le UPAGES_le
    · exact absurd ((pgroundup_lt_iff hsz).mpr hj') (Nat.not_lt.mpr hr.1)
  · obtain ⟨p, -, he, hz⟩ := h.page j hj
    refine ⟨upte p, ?_⟩
    rw [view, he, if_pos present_pte, pteAddr_pte (by decide), hz]

theorem Cleared.resized {n : Int} (h : Cleared L R d js s s') (hp : HasPages d sz s)
    (hsz : sz < KERNBASE) (hlt : newsz < sz) (hn : (newsz : Int) = sz + n)
    (hjs : ∀ j, j ∈ js ↔ Scanned s.mem d sz (firstPage newsz) j) : Resized d sz n s newsz s' := by
  have hk := pgroundup_firstPage (hlt.trans hsz)
  have hmem : ∀ j < UPAGES, j ∈ js ↔ PGSIZE * j < sz ∧ ¬ PGSIZE * j < newsz := by
    intro j hj
    rw [hjs, ← pgroundup_lt_iff (hlt.trans hsz), hk, Nat.mul_lt_mul_left (by decide), Nat.not_lt]
    refine ⟨fun h => ⟨h.2.1, h.1⟩, fun ⟨h1, h2⟩ => ⟨h2, h1, (hp.lt hsz hj).mpr h1, fun hs => ?_⟩⟩
    -- the first page of the range is mapped, so its table is there
    have hlt' := (Nat.mul_le_mul_left PGSIZE h2).trans_lt h1
    have hpres := (hp.lt hsz (lt_UPAGES hsz hlt')).mpr hlt'
    rw [Vm.ent, entry_of_none (hs.2.2 _ le_rfl hs.1)] at hpres
    cases hpres
  refine ⟨hn, hlt.trans hsz, fun j hj => ?_, fun j hj => ?_, fun j hj => ?_⟩
  · rw [pgroundup_lt_iff (hlt.trans hsz), h.ent j (hj.trans_le UPAGES_le)]
    split
    · next hm => exact iff_of_false Bool.false_ne_true ((hmem j hj).mp hm).2
    · next hm =>
      rw [hp.lt hsz hj]
      refine ⟨fun h1 => ?_, fun h1 => h1.trans hlt⟩
      by_contra h2
      exact hm ((hmem j hj).mpr ⟨h1, h2⟩)
  · have hj' := lt_of_lt_of_le hj (min_le_right _ _)
    have hju := lt_UPAGES (hlt.trans hsz) hj'
    have he := (h.ent j (hju.trans_le UPAGES_le)).trans (if_neg fun hm => ((hmem j hju).mp hm).2 hj')
    have hpres := (hp.lt hsz hju).mpr (hj'.trans hlt)
    have hframe := h.frame _ (mem_gather.mpr ⟨j, hju, by rw [he]; exact next_of_present hpres⟩)
    rw [view, view, he, if_pos hpres, if_pos hpres, hframe]
  · have := (pgroundup_lt_iff hsz).mpr (hj.2.trans hlt)
    exact absurd hj.1 (by omega)

/-- The sizes for which `growproc` is right: it grows, and does not leave a hole; or it shrinks, and
something is left. -/
def Resizable (s : Phys) (d sz : Nat) (n : Int) : Prop :=
  if 0 ≤ n then sz + n < KERNBASE → s.growth d sz (sz + n).toNat ≠ (true, false)
  else sz = 0 ∨ 0 < sz + n

theorem growproc_grow {n : Int} (h : Own L R d s) (hp : HasPages d sz s) (hsz : sz < KERNBASE)
    (hn : 0 < n) (hn' : n < 0x80000000) :
    wp E (growproc L d sz n) (fun r s' => Exactly d sz n s r s' ↔ Resizable s d sz n) s := by
  obtain ⟨newsz, hnew⟩ : ∃ newsz : Nat, (newsz : Int) = sz + n := ⟨(sz + n).toNat, by omega⟩
  have hwrap : ((sz + n) % 0x100000000).toNat = newsz := by
    simp only [KERNBASE] at hsz
    omega
  rw [growproc, if_pos hn, hwrap, wp_bind, Resizable, if_pos hn.le, ← hnew, Int.toNat_natCast]
  by_cases hlt : newsz < KERNBASE
  swap
  · rw [allocuvm, if_pos (Nat.not_lt.mp hlt)]
    exact iff_of_true (.inr ⟨rfl, rfl, fun _ _ => rfl⟩) fun hlt' => absurd (by exact_mod_cast hlt') hlt
  have hle : sz ≤ newsz := by omega
  refine wp_mono (allocuvm_spec h hp hle hlt) ?_
  rintro r s' ⟨leak, hg, hl, hfail, hgrow⟩
  cases hfr : (s.growth d sz newsz).2 with
  | true =>
    -- the pages are as before, whatever was lost
    obtain ⟨rfl, hnone⟩ := hfail hfr
    refine iff_of_true (.inr ⟨rfl, rfl, fun j hj => ?_⟩) fun _ e => ?_
    · by_cases hr : InRange sz newsz j
      · obtain ⟨h1, h2⟩ := (inRange_iff hle hlt).mp hr
        rw [view_of_absent (hnone j hr), view_of_absent (hg.gap j h1 h2)]
      · exact view_congr (hg.same j (hj.trans_le UPAGES_le) fun hin =>
          hr ((inRange_iff hle hlt).mpr hin)) hj hg.frame
    · rw [e] at hfr
      cases hfr
  | false =>
    obtain ⟨rfl, hfull⟩ := hgrow hfr
    rw [if_neg (by omega)]
    change Exactly d sz n s (0, r) s' ↔ _
    constructor
    · rintro (⟨-, hr⟩ | ⟨h0, -⟩)
      · intro _ e
        have hzero := hfull.mpr fun j hj => (hr.pages.lt hlt (lt_UPAGES hlt hj.2)).mpr hj.2
        rw [hl, e] at hzero
        cases hzero
      · cases h0
    · intro hne
      have hzero : leak = 0 := hl.mpr <| Bool.eq_false_iff.mpr fun htr =>
        hne (by exact_mod_cast hlt) (Prod.ext htr hfr)
      subst hzero
      exact .inl ⟨rfl, (hg.grown hle hlt (hfull.mp rfl)).resized hp hle hlt hnew⟩

theorem growproc_shrink {n : Int} (h : Own L R d s) (hp : HasPages d sz s) (hsz : sz < KERNBASE)
    (hn : n < 0) (hn' : -0x80000000 ≤ n) :
    wp E (growproc L d sz n) (fun r s' => Exactly d sz n s r s' ↔ Resizable s d sz n) s := by
  rw [growproc, if_neg (by omega), if_pos hn, wp_bind, Resizable, if_neg (by omega)]
  by_cases hneg : (sz : Int) + n < 0
  · -- the new size is taken for a large one, and nothing happens
    have hwrap : sz ≤ ((sz + n) % 0x100000000).toNat := by
      simp only [KERNBASE] at hsz
      omega
    rw [deallocuvm, if_pos hwrap]
    by_cases h0 : sz = 0
    · simp only [wp_pure, if_pos h0]
      exact iff_of_true (.inr ⟨rfl, rfl, fun _ _ => rfl⟩) (.inl h0)
    · simp only [wp_pure, if_neg h0]
      refine iff_of_false ?_ (by omega)
      rintro (⟨-, hr⟩ | ⟨h1, -⟩)
      · have := hr.size
        change (sz : Int) = sz + n at this
        omega
      · cases h1
  obtain ⟨newsz, hnew⟩ : ∃ newsz : Nat, (newsz : Int) = sz + n := ⟨(sz + n).toNat, by omega⟩
  have hwrap : ((sz + n) % 0x100000000).toNat = newsz := by
    simp only [KERNBASE] at hsz
    omega
  have hlt : newsz < sz := by omega
  rw [hwrap]
  refine wp_mono (deallocuvm_spec h hlt hsz.le (pgroundup_firstPage (hlt.trans hsz))) ?_
  rintro r s' ⟨rfl, js, hc, hjs⟩
  by_cases h0 : r = 0
  · -- all pages are gone, and the result is that of a failure
    simp only [wp_pure, if_pos h0]
    refine iff_of_false ?_ (by omega)
    rintro (⟨h1, -⟩ | ⟨-, -, hsame⟩)
    · cases h1
    · have hu : 0 < UPAGES := by rw [UPAGES_eq]; decide
      have hpres := (hp.lt hsz hu).mpr (by omega)
      have hview := hsame 0 hu
      have hm : 0 ∈ js := by
        refine (hjs 0).mpr ⟨?_, by omega, hpres, fun hs => absurd hs.1 (by simp)⟩
        rw [h0]
        decide
      rw [view, hc.ent 0 (hu.trans_le UPAGES_le), if_pos hm, view, if_pos hpres] at hview
      cases hview
  · simp only [wp_pure, if_neg h0]
    exact iff_of_true (.inl ⟨rfl, hc.resized hp hsz hlt hnew hjs⟩) (by omega)

/-- `growproc` resizes a process exactly or not at all, if and only if it is `Resizable`. -/
theorem growproc_exact_iff {n : Int} (h : Own L R d s) (hp : HasPages d sz s) (hsz : sz < KERNBASE)
    (hn : -0x80000000 ≤ n) (hn' : n < 0x80000000) :
    (∃ r s', growproc L d sz n s = .ok (r, s') ∧ Exactly d sz n s r s') ↔ Resizable s d sz n := by
  have hspec : wp (fun _ => False) (growproc L d sz n)
      (fun r s' => Exactly d sz n s r s' ↔ Resizable s d sz n) s := by
    rcases lt_trichotomy n 0 with hneg | rfl | hpos
    · exact growproc_shrink h hp hsz hneg hn
    · refine iff_of_true (.inl ⟨rfl, (add_zero _).symm, hsz, hp, fun _ _ => rfl, fun j hj => ?_⟩) ?_
      · exact absurd ((pgroundup_lt_iff hsz).mpr hj.2) (Nat.not_lt.mpr hj.1)
      · intro _
        rw [add_zero, Int.toNat_natCast, Phys.growth, newPages_self hsz]
        nofun
    · exact growproc_grow h hp hsz hpos hn'
  obtain ⟨r, s', hrun, hiff⟩ := wp_returns hspec
  refine ⟨fun ⟨r₁, s₁, hrun₁, hex⟩ => hiff.mp ?_, fun hres => ⟨r, s', hrun, hiff.mpr hres⟩⟩
  obtain ⟨rfl, rfl⟩ : r = r₁ ∧ s' = s₁ := by
    rw [hrun] at hrun₁
    exact Prod.mk.inj (Except.ok.inj hrun₁)
  exact hex

theorem lonePage_first : 0 < UPAGES ∧ Own smallKernel 0 300 (lonePage 6 0 []) ∧
    HasPages 300 PGSIZE (lonePage 6 0 []) := by
  have hu : 0 < UPAGES := by rw [UPAGES_eq]; decide
  have hp := lonePage_placed (by decide : 6 < 8) hu pages_alone
  refine ⟨hu, hp.own, fun j hj => ?_⟩
  rw [hp.ent j (hj.trans_le UPAGES_le), (owned_zero rfl).2.2, pgroundup_lt_iff (by decide)]
  split
  · next e =>
    rw [e]
    exact iff_of_true present_pte (by decide)
  · next hne =>
    refine iff_of_false Bool.false_ne_true ?_
    simp only [PGSIZE]
    omega

/-- It may give back half of the page. -/
theorem growproc_exact_half : ∃ r s', growproc smallKernel 300 PGSIZE (-2048) (lonePage 6 0 []) =
    .ok (r, s') ∧ Exactly 300 PGSIZE (-2048) (lonePage 6 0 []) r s' :=
  (growproc_exact_iff lonePage_first.2.1 lonePage_first.2.2 (by decide) (by decide) (by decide)).mpr
    (by rw [Resizable, if_neg (by decide)]; exact .inr (by decide))

/-- If it gives back all, the page is gone, but the result is -1 and the size is as before. -/
theorem growproc_all : ∃ s', growproc smallKernel 300 PGSIZE (-PGSIZE) (lonePage 6 0 []) =
    .ok ((-1, PGSIZE), s') ∧ present (ent (lonePage 6 0 []).mem 300 0) = true ∧
      present (ent s'.mem 300 0) = false := by
  obtain ⟨hu, hown, hpages⟩ := lonePage_first
  have hpres := (hpages 0 hu).mpr (by decide)
  have hwp : wp (fun _ => False) (growproc smallKernel 300 PGSIZE (-PGSIZE)) (fun r s' =>
      r = (-1, PGSIZE) ∧ present (ent s'.mem 300 0) = false) (lonePage 6 0 []) := by
    rw [growproc, if_neg (by decide), if_pos (by decide), wp_bind, add_neg_cancel, Int.zero_emod,
      Int.toNat_zero]
    refine wp_mono (deallocuvm_spec (k := 0) hown (by decide) (by decide) (by decide))
      fun r s' ⟨hr, js, hc, hjs⟩ => ?_
    rw [if_pos hr]
    refine ⟨rfl, ?_⟩
    have hm : 0 ∈ js := (hjs 0).mpr ⟨le_rfl, by decide, hpres, fun hs => absurd hs.1 (by simp)⟩
    rw [hc.ent 0 (hu.trans_le UPAGES_le), if_pos hm]
    rfl
  obtain ⟨r, s', hrun, rfl, hgone⟩ := wp_returns hwp
  exact ⟨s', hrun, hpres, hgone⟩

end Vm

end Xv6
