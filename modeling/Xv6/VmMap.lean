import Xv6.VmSpace

/-!
# Page tables are built

`walkpgdir` finds the entry of a page, with a new page table where there is none; `mappages` sets
the entries of a range; `setupkvm` makes a directory with the kernel's half. A call of `kalloc`
that fails in the middle leaves the directory with what it has so far, and each
specification says which call that was.
-/

open Bytes TwoLevel StateWp Function Multiset

namespace Xv6

namespace Vm

variable {L : Link} {E : Stop → Prop} {R : Multiset Nat} {s s' s'' : Phys}
  {d k n p t i q w perm : Nat}

/-! ### walkpgdir -/

theorem pdx_mul (hk : k < NPAGES) : pdx (PGSIZE * k) = k / NENTRIES := by
  simp only [pdx, PGSIZE, NENTRIES, NPAGES] at *
  omega

theorem ptx_mul (k : Nat) : ptx (PGSIZE * k) = k % NENTRIES := by
  simp only [ptx, PGSIZE, NENTRIES]
  omega

theorem wp_lookup (hd : L.kend ≤ d ∧ d < NFRAME) (hk : k < NPAGES) {Q : Option (Nat × Nat) → Phys → Prop} :
    wp E (walkpgdir L d (PGSIZE * k) false) Q s ↔
      Q ((tab s.mem d (k / NENTRIES)).map (·, k % NENTRIES)) s := by
  simp only [walkpgdir, wp_bind, wp_load hd, pdx_mul hk, ptx_mul]
  rw [tab, table]
  cases hp : present (word s.mem d (k / NENTRIES)) with
  | true => rw [next_of_present hp]; rfl
  | false => rw [next_eq_none.mpr hp]; rfl

theorem wp_walk (h : Own L R d s) (hk : k < NPAGES) {Q : Option (Nat × Nat) → Phys → Prop} :
    wp E (walkpgdir L d (PGSIZE * k) false) Q s ↔
      Q ((tab s.mem d (k / NENTRIES)).map (·, k % NENTRIES)) s := wp_lookup h.dir_pool hk

theorem walk_alloc_spec (h : Own L R d s) (hk : k < NPAGES) {Q : Option (Nat × Nat) → Phys → Prop}
    (hold : ∀ t, tab s.mem d (k / NENTRIES) = some t → Q (some (t, k % NENTRIES)) s)
    (hfail : tab s.mem d (k / NENTRIES) = none → s.fails 0 = true → Q none s.tick)
    (hnew : ∀ p f, tab s.mem d (k / NENTRIES) = none → s.fails 0 = false → s.free = p :: f →
      Q (some (p, k % NENTRIES)) (s.install d (k / NENTRIES) p f)) :
    wp E (walkpgdir L d (PGSIZE * k) true) Q s := by
  simp only [walkpgdir, wp_bind, wp_load h.dir_pool, pdx_mul hk, ptx_mul]
  cases hp : present (word s.mem d (k / NENTRIES)) with
  | true => exact hold _ (next_of_present hp)
  | false =>
    have hnone : tab s.mem d (k / NENTRIES) = none := next_eq_none.mpr hp
    simp only [Bool.false_eq_true, if_false, Bool.not_true, wp_bind]
    refine kalloc_spec (hfail hnone) fun p f hok hf => ?_
    have hpool := h.pool p (mem_add.mpr (.inr (by rw [hf]; exact List.mem_cons_self)))
    simp only [wp_bind, wp_fill hpool, wp_store h.dir_pool, wp_pure]
    exact hnew p f hnone hok hf

/-! ### Calls of kalloc -/

/-- `c` calls of `kalloc` have succeeded. -/
structure Took (c : Nat) (s s' : Phys) : Prop where
  le : c ≤ s.free.length
  free : s'.free = s.free.drop c
  deny : ∀ n, s'.deny n = s.deny (n + c)

/-- `c` calls of `kalloc` have succeeded, and then one has failed. -/
structure Refused (c : Nat) (s s' : Phys) : Prop where
  le : c ≤ s.free.length
  free : s'.free = s.free.drop c
  deny : ∀ n, s'.deny n = s.deny (n + c + 1)
  fails : s.fails c = true

theorem Took.refl : Took 0 s s := ⟨Nat.zero_le _, rfl, fun _ => rfl⟩

theorem Took.trans {c c' : Nat} (h : Took c s s') (h' : Took c' s' s'') : Took (c + c') s s'' where
  le := by
    have hle := h'.le
    rw [h.free, List.length_drop] at hle
    have := h.le
    omega
  free := by rw [h'.free, h.free, List.drop_drop]
  deny n := by rw [h'.deny, h.deny, Nat.add_assoc, Nat.add_comm c' c]

theorem Took.fails {c : Nat} (h : Took c s s') (i : Nat) : s'.fails i = s.fails (i + c) := by
  rw [Phys.fails, Phys.fails, h.deny, h.free, List.length_drop]
  congr 1
  exact decide_eq_decide.mpr (by omega)

theorem took_one {f : List Nat} (hf : s.free = p :: f) : Took 1 s { s.tick with free := f } :=
  ⟨by rw [hf]; exact Nat.le_add_left _ _, by rw [hf]; rfl, fun _ => rfl⟩

theorem refused_zero (h : s.fails 0 = true) : Refused 0 s s.tick :=
  ⟨Nat.zero_le _, rfl, fun _ => rfl, h⟩

theorem Took.refused {c c' : Nat} (h : Took c s s') (h' : Refused c' s' s'') :
    Refused (c + c') s s'' where
  le := by
    have hle := h'.le
    rw [h.free, List.length_drop] at hle
    have := h.le
    omega
  free := by rw [h'.free, h.free, List.drop_drop]
  deny n := by
    rw [h'.deny, h.deny]
    congr 1
    omega
  fails := by rw [Nat.add_comm, ← h.fails]; exact h'.fails

/-! ### One page -/

/-- The page that the entry `w` for page `k` takes into the address space. -/
def held (k w : Nat) : Multiset Nat := if k < UPAGES then (next w).elim 0 fun p => {p} else 0

/-- The entry of page `k` is now `w`, with a new page table if there was none. -/
structure Placed (L : Link) (R : Multiset Nat) (d k w : Nat) (s s' : Phys) : Prop where
  own : Own L R d s'
  keeps : Keeps (held k w + R) s s'
  total : owned s'.mem d + s'.free = held k w + (owned s.mem d + s.free)
  took : Took (if tab s.mem d (k / NENTRIES) = none then 1 else 0) s s'
  tab_old : ∀ i t, tab s.mem d i = some t → tab s'.mem d i = some t
  tab_new : tab s'.mem d (k / NENTRIES) ≠ none
  tab_same : ∀ i ≠ k / NENTRIES, tab s'.mem d i = tab s.mem d i
  ent : ∀ j < NPAGES, ent s'.mem d j = if j = k then w else ent s.mem d j
  frame : ∀ q ∈ frames s.mem d, s'.mem q = s.mem q

theorem Own.place (h : Own L (held k w + R) d s) (hk : k < NPAGES) (hw : w < 2 ^ 32)
    (ht : tab s.mem d (k / NENTRIES) = some t) (hnone : present (ent s.mem d k) = false) :
    Placed L R d k w s (s.put t (k % NENTRIES) w) := by
  have hc := h.put hk ht hw
  have howned : owned (s.put t (k % NENTRIES) w).mem d = held k w + owned s.mem d :=
    hc.owned hk hnone
  refine ⟨?_, hc.keeps, ?_, ?_, fun i u hi => (hc.tab i).trans hi, ?_, fun i _ => hc.tab i, hc.ent,
    fun q hq => ?_⟩
  · have hsum : R + owned (s.put t (k % NENTRIES) w).mem d + (s.put t (k % NENTRIES) w).free =
        held k w + R + owned s.mem d + s.free := by
      rw [howned, add_left_comm, ← add_assoc]
      rfl
    rw [Own, hsum]
    exact h
  · rw [howned, add_assoc]
    rfl
  · rw [ht, if_neg nofun]
    exact ⟨Nat.zero_le _, rfl, fun _ => rfl⟩
  · rw [hc.tab, ht]
    nofun
  · have hqt : q ≠ t := fun e => h.frame_ne hq (e ▸ mem_cons_of_mem (Own.tab_mem hk ht))
    exact update_of_ne hqt ..

theorem Own.installed {f : List Nat} (h : Own L R d s) (hi : Installed R d i p f s s')
    (hf : s.free = p :: f) (hf' : s'.free = f) :
    Own L R d s' ∧ owned s'.mem d + s'.free = owned s.mem d + s.free := by
  have htotal : owned s'.mem d + s'.free = owned s.mem d + s.free := by
    rw [hi.owned, hf', hf, ← cons_coe, cons_add, add_cons]
  refine ⟨?_, htotal⟩
  rw [Own, add_assoc, htotal, ← add_assoc]
  exact h

theorem Own.place_new (h : Own L (held k w + R) d s) (hk : k < NPAGES) (hw : w < 2 ^ 32)
    (ht : tab s.mem d (k / NENTRIES) = none) {f : List Nat} (hf : s.free = p :: f)
    (hnone : present (ent s.mem d k) = false) :
    Placed L R d k w s ((s.install d (k / NENTRIES) p f).put p (k % NENTRIES) w) := by
  have hi := h.install (div_lt_NENTRIES hk) ht hf
  set s₁ := s.install d (k / NENTRIES) p f
  obtain ⟨hown, htotal⟩ := h.installed hi hf rfl
  have htab : tab s₁.mem d (k / NENTRIES) = some p := by rw [hi.tab, if_pos rfl]
  have hpl := hown.place hk hw htab (by rw [hi.ent k hk]; exact hnone)
  refine ⟨hpl.own, hi.keeps.trans hpl.keeps, ?_, ?_, fun j u hj => ?_, hpl.tab_new, fun j hj => ?_,
    fun j hj => ?_, fun q hq => ?_⟩
  · rw [hpl.total, htotal]
  · have htook := hpl.took
    rw [htab, if_neg nofun] at htook
    rw [ht, if_pos rfl]
    exact Took.trans ⟨by rw [hf]; exact Nat.le_add_left _ _, by rw [hf]; rfl, fun _ => rfl⟩ htook
  · refine hpl.tab_old j u ?_
    rw [hi.tab, if_neg ?_]
    · exact hj
    · rintro rfl
      rw [ht] at hj
      cases hj
  · rw [hpl.tab_same j hj, hi.tab, if_neg hj]
  · rw [hpl.ent j hj, hi.ent j hj]
  · -- the new table was free, and the directory is no frame
    have hown : q ∈ owned s.mem d := mem_cons_of_mem (mem_add.mpr (.inr hq))
    have hqp : q ≠ p := fun e => (h.free_ne (by rw [hf]; exact List.mem_cons_self)).2 (e ▸ hown)
    have hqd : q ≠ d := fun e => h.frame_ne hq (e ▸ mem_cons_self _ _)
    have hsame : s₁.mem q = s.mem q :=
      (update_of_ne hqd ..).trans (update_of_ne hqp ..)
    exact (update_of_ne hqp ..).trans hsame

theorem mapLoop_succ {pa : Nat} (h : Own L (held k w + R) d s) (hk : k < NPAGES) (hw : w < 2 ^ 32)
    (hpa : pa ||| perm ||| PTE_P = w) {Q : Bool → Phys → Prop}
    (hremap : present (ent s.mem d k) = true → E .remap)
    (hfail : tab s.mem d (k / NENTRIES) = none → s.fails 0 = true → Q false s.tick)
    (hgo : ∀ s', present (ent s.mem d k) = false → Placed L R d k w s s' →
      wp E (mapLoop L d perm n ((PGSIZE * k + PGSIZE) % 2 ^ 32) ((pa + PGSIZE) % 2 ^ 32)) Q s') :
    wp E (mapLoop L d perm (n + 1) (PGSIZE * k) pa) Q s := by
  rw [mapLoop, wp_bind]
  refine walk_alloc_spec h hk (fun t ht => ?_) hfail fun p f ht _ hf => ?_
  · -- the table is there, and the entry is a word of it
    have hent : ent s.mem d k = word s.mem t (k % NENTRIES) := entry_of_some ht
    have hpool := h.table_pool (Own.tab_mem hk ht)
    simp only [wp_bind, wp_load hpool, ← hent]
    cases hpres : present (ent s.mem d k) with
    | true => exact hremap hpres
    | false =>
      simp only [Bool.false_eq_true, if_false, wp_bind, wp_store hpool, hpa]
      exact hgo _ hpres (h.place hk hw ht hpres)
  · -- the table is new, and all its entries are 0
    have hnone : ent s.mem d k = 0 := entry_of_none ht
    have hi := h.install (div_lt_NENTRIES hk) ht hf
    have hword : word (s.install d (k / NENTRIES) p f).mem p (k % NENTRIES) = 0 := by
      have htab : tab (s.install d (k / NENTRIES) p f).mem d (k / NENTRIES) = some p := by
        rw [hi.tab, if_pos rfl]
      have hent := hi.ent k hk
      rw [hnone] at hent
      exact (entry_of_some htab).symm.trans hent
    have hpool := h.pool p (mem_add.mpr (.inr (by rw [hf]; exact List.mem_cons_self)))
    simp only [wp_bind, wp_load hpool, hword, present_zero, Bool.false_eq_true, if_false,
      wp_store hpool, hpa]
    exact hgo _ (by rw [hnone]; rfl) (h.place_new hk hw ht hf (by rw [hnone]; rfl))

/-! ### The kernel's half -/

/-- Pages `k` to `k + n` of the kernel's half are being mapped: there may be new tables for
them. -/
structure Extends (L : Link) (R : Multiset Nat) (d k n : Nat) (s s' : Phys) : Prop where
  own : Own L R d s'
  keeps : Keeps R s s'
  total : owned s'.mem d + s'.free = owned s.mem d + s.free
  tab_old : ∀ i t, tab s.mem d i = some t → tab s'.mem d i = some t
  tab_sub : ∀ i, tab s'.mem d i ≠ none → tab s.mem d i ≠ none ∨ ∃ j, k ≤ j ∧ j < k + n ∧ j / NENTRIES = i

/-- The entry of page `j` when pages from `k` on are mapped to pages from `q` on. -/
def linear (k q perm j : Nat) : Nat := PGSIZE * (q + (j - k)) ||| perm ||| PTE_P

/-- They are mapped. -/
structure Mapped (L : Link) (R : Multiset Nat) (d k n q perm : Nat) (s s' : Phys) : Prop
    extends Extends L R d k n s s' where
  took : ∃ c, Took c s s'
  tab_all : ∀ j, k ≤ j → j < k + n → tab s'.mem d (j / NENTRIES) ≠ none
  ent : ∀ j < NPAGES, ent s'.mem d j =
    if k ≤ j ∧ j < k + n then linear k q perm j else ent s.mem d j

/-- A page table is missing. -/
structure Unmapped (L : Link) (R : Multiset Nat) (d k n : Nat) (s s' : Phys) : Prop
    extends Extends L R d k n s s' where
  refused : ∃ c, Refused c s s'
  missing : ∃ j, k ≤ j ∧ j < k + n ∧ tab s'.mem d (j / NENTRIES) = none

theorem Extends.refl (h : Own L R d s) : Extends L R d k n s s :=
  ⟨h, .refl, rfl, fun _ _ h => h, fun _ h => .inl h⟩

theorem held_kernel (hk : UPAGES ≤ k) : held k w = 0 := if_neg (by omega)

theorem Extends.of_placed (hk : UPAGES ≤ k) (hp : Placed L R d k w s s') :
    Extends L R d k (n + 1) s s' := by
  have hkeeps := hp.keeps
  have htotal := hp.total
  rw [held_kernel hk, zero_add] at hkeeps htotal
  refine ⟨hp.own, hkeeps, htotal, hp.tab_old, fun i hi => ?_⟩
  by_cases hik : i = k / NENTRIES
  · exact .inr ⟨k, le_rfl, by omega, hik.symm⟩
  · rw [hp.tab_same i hik] at hi
    exact .inl hi

theorem Extends.trans (h : Extends L R d k (n + 1) s s') (h' : Extends L R d (k + 1) n s' s'') :
    Extends L R d k (n + 1) s s'' := by
  refine ⟨h'.own, h.keeps.trans h'.keeps, h'.total.trans h.total,
    fun i t hi => h'.tab_old i t (h.tab_old i t hi), fun i hi => ?_⟩
  rcases h'.tab_sub i hi with hi | ⟨j, h1, h2, h3⟩
  · exact h.tab_sub i hi
  · exact .inr ⟨j, by omega, by omega, h3⟩

/-- **The loop of `mappages`, in the kernel's half.** -/
theorem mapLoop_kernel (hperm : perm < 8) {Q : Bool → Phys → Prop} :
    ∀ n k q a pa s, (0 < n → a = PGSIZE * k ∧ pa = PGSIZE * q) → Own L R d s → UPAGES ≤ k →
    k + n ≤ NPAGES → q + n ≤ 2 ^ 20 → (∀ j, k ≤ j → j < k + n → present (ent s.mem d j) = false) →
    (∀ s', Mapped L R d k n q perm s s' → Q true s') →
    (∀ s', Unmapped L R d k n s s' → Q false s') →
    wp E (mapLoop L d perm n a pa) Q s := by
  intro n
  induction n with
  | zero =>
    intro k q a pa s _ h _ _ _ _ htrue _
    refine htrue s ⟨.refl h, ⟨0, .refl⟩, fun j h1 h2 => ?_, fun j _ => ?_⟩
    · omega
    · rw [if_neg (by omega)]
  | succ n ih =>
    intro k q a pa s ha h hk hkn hqn hnone htrue hfalse
    obtain ⟨rfl, rfl⟩ := ha (Nat.succ_pos n)
    have hkN : k < NPAGES := by omega
    have hw : PGSIZE * q ||| perm ||| PTE_P < 2 ^ 32 := pte_lt hperm (by omega)
    have hown : Own L (held k (PGSIZE * q ||| perm ||| PTE_P) + R) d s := by
      rw [held_kernel hk, zero_add]
      exact h
    refine mapLoop_succ hown hkN hw rfl (fun hp => ?_) (fun ht hf => ?_) fun s₁ _ hp => ?_
    · rw [hnone k le_rfl (by omega)] at hp
      cases hp
    · refine hfalse _ ⟨⟨h, ⟨fun _ _ => rfl, rfl, rfl⟩, rfl, fun _ _ hi => hi, fun _ hi => .inl hi⟩,
        ⟨0, refused_zero hf⟩, k, le_rfl, by omega, ht⟩
    -- the entry of page `k` is set, and the other pages follow
    have hext : Extends L R d k (n + 1) s s₁ := .of_placed hk hp
    have hent : ∀ j, k + 1 ≤ j → j < k + 1 + n → present (ent s₁.mem d j) = false := by
      intro j h1 h2
      rw [hp.ent j (by omega), if_neg (by omega)]
      exact hnone j (by omega) (by omega)
    refine ih (k + 1) (q + 1) _ _ s₁ (fun hn => ⟨?_, ?_⟩) hp.own (by omega) (by omega) (by omega)
      hent (fun s₂ hm => htrue s₂ ?_) fun s₂ hu => hfalse s₂ ?_
    · simp only [PGSIZE, NPAGES, NENTRIES] at hkn ⊢
      omega
    · simp only [PGSIZE]
      omega
    · obtain ⟨c, hc⟩ := hm.took
      refine ⟨hext.trans hm.toExtends, ⟨_, hp.took.trans hc⟩, fun j h1 h2 => ?_, fun j hj => ?_⟩
      · rcases eq_or_lt_of_le h1 with rfl | h1
        · obtain ⟨t, ht⟩ := Option.ne_none_iff_exists'.mp hp.tab_new
          rw [hm.tab_old _ t ht]
          rintro ⟨⟩
        · exact hm.tab_all j h1 (by omega)
      · rw [hm.ent j hj, hp.ent j hj]
        by_cases hjk : j = k
        · subst hjk
          rw [if_neg (by omega), if_pos rfl, if_pos (by omega), linear, Nat.sub_self, Nat.add_zero]
        · by_cases hin : k + 1 ≤ j ∧ j < k + 1 + n
          · have hq : q + 1 + (j - (k + 1)) = q + (j - k) := by omega
            rw [if_pos hin, if_pos (by omega), linear, linear, hq]
          · rw [if_neg hin, if_neg hjk, if_neg (by omega)]
    · obtain ⟨c, hc⟩ := hu.refused
      obtain ⟨j, h1, h2, h3⟩ := hu.missing
      exact ⟨hext.trans hu.toExtends, ⟨_, hp.took.refused hc⟩, j, by omega, by omega, h3⟩

theorem mappages_eq {pa : Nat} (hn : 0 < n) (hkn : k + n ≤ NPAGES) :
    mappages L d (PGSIZE * k) (PGSIZE * n) pa perm = mapLoop L d perm n (PGSIZE * k) pa := by
  have ha : pgrounddown (PGSIZE * k) = PGSIZE * k := by
    simp only [pgrounddown, PGSIZE]
    omega
  have hlast : pgrounddown ((PGSIZE * k + PGSIZE * n + (2 ^ 32 - 1)) % 2 ^ 32) =
      PGSIZE * (k + n - 1) := by
    simp only [pgrounddown, PGSIZE, NPAGES, NENTRIES] at hkn ⊢
    omega
  have hrounds : (PGSIZE * (k + n - 1) + 2 ^ 32 - PGSIZE * k) % 2 ^ 32 / PGSIZE + 1 = n := by
    simp only [PGSIZE, NPAGES, NENTRIES] at hkn ⊢
    omega
  simp only [mappages, ha, hlast, hrounds]

/-! ### setupkvm -/

/-- The rows of the directory that the kernel's half uses. -/
def kernelRows : Finset Nat := Finset.Ico 512 568 ∪ Finset.Ico 1016 1024

theorem mem_kernelRows : i ∈ kernelRows ↔ (512 ≤ i ∧ i < 568) ∨ (1016 ≤ i ∧ i < 1024) := by
  rw [kernelRows, Finset.mem_union, Finset.mem_Ico, Finset.mem_Ico]

theorem card_kernelRows : kernelRows.card = 64 := by
  rw [kernelRows, Finset.card_union_of_disjoint, Nat.card_Ico, Nat.card_Ico]
  rw [Finset.disjoint_left]
  intro i h1 h2
  rw [Finset.mem_Ico] at h1 h2
  omega

/-- The entry of a page in the kernel's half. -/
def kernelPte (L : Link) (k : Nat) : Nat :=
  if k < UPAGES + EXTMEM / PGSIZE then linear UPAGES 0 PTE_W k
  else if k < UPAGES + L.data then linear UPAGES 0 0 k
  else if k < UPAGES + NFRAME then linear UPAGES 0 PTE_W k
  else if k < DEVSPACE / PGSIZE then 0
  else linear 0 0 PTE_W k

/-- `setupkvm` has come to page `m` of the kernel's half. -/
structure Partial (L : Link) (R : Multiset Nat) (d m : Nat) (s s' : Phys) : Prop where
  own : Own L R d s'
  keeps : Keeps R s s'
  total : owned s'.mem d + s'.free = owned s.mem d + s.free
  took : ∃ c, Took c s s'
  rows : ∀ i, tab s'.mem d i ≠ none → i ∈ kernelRows
  rows_all : ∀ j, UPAGES ≤ j → j < m → j / NENTRIES ∈ kernelRows → tab s'.mem d (j / NENTRIES) ≠ none
  ent : ∀ j < NPAGES, ent s'.mem d j = if UPAGES ≤ j ∧ j < m then kernelPte L j else 0

/-- What `kmap` says of one range: `n` pages from `k` on are mapped to `q` on. Between the ranges
that came before and this one there is at most a gap without tables. -/
structure Range (L : Link) (m k n q perm : Nat) : Prop where
  pos : 0 < n
  perm_lt : perm < 8
  user : UPAGES ≤ m
  le : m ≤ k
  bound : k + n ≤ NPAGES
  phys : q + n ≤ 2 ^ 20
  gap : ∀ j, m ≤ j → j < k → kernelPte L j = 0 ∧ j / NENTRIES ∉ kernelRows
  rows : ∀ j, k ≤ j → j < k + n → j / NENTRIES ∈ kernelRows
  pte : ∀ j, k ≤ j → j < k + n → linear k q perm j = kernelPte L j

theorem Partial.mapped {m : Nat} (h : Partial L R d m s s') (hr : Range L m k n q perm)
    (hm : Mapped L R d k n q perm s' s'') : Partial L R d (k + n) s s'' where
  own := hm.own
  keeps := h.keeps.trans hm.keeps
  total := hm.total.trans h.total
  took := by
    obtain ⟨c, hc⟩ := h.took
    obtain ⟨c', hc'⟩ := hm.took
    exact ⟨_, hc.trans hc'⟩
  rows i hi := by
    rcases hm.tab_sub i hi with hi | ⟨j, h1, h2, rfl⟩
    · exact h.rows i hi
    · exact hr.rows j h1 h2
  rows_all j h1 h2 hj := by
    by_cases hjm : j < m
    · obtain ⟨t, ht⟩ := Option.ne_none_iff_exists'.mp (h.rows_all j h1 hjm hj)
      rw [hm.tab_old _ t ht]
      nofun
    · by_cases hjk : j < k
      · exact absurd hj (hr.gap j (by omega) hjk).2
      · exact hm.tab_all j (by omega) h2
  ent j hj := by
    have hle := hr.le
    have huser := hr.user
    rw [hm.ent j hj, h.ent j hj]
    by_cases hin : k ≤ j ∧ j < k + n
    · rw [if_pos hin, if_pos (by omega), hr.pte j hin.1 hin.2]
    · rw [if_neg hin]
      by_cases hjm : UPAGES ≤ j ∧ j < m
      · rw [if_pos hjm, if_pos (by omega)]
      · rw [if_neg hjm]
        split
        · exact (hr.gap j (by omega) (by omega)).1.symm
        · rfl

theorem Partial.wp_mapKernel {m : Nat} (h : Partial L R d m s s') (hr : Range L m k n q perm)
    {virt start stop : Nat} {ks : List (Nat × Nat × Nat × Nat)} {Q : Bool → Phys → Prop}
    (hvirt : virt = PGSIZE * k) (hstart : start = PGSIZE * q)
    (hsize : (stop + 2 ^ 32 - start) % 2 ^ 32 = PGSIZE * n)
    (hgo : ∀ s'', Partial L R d (k + n) s s'' → wp E (mapKernel L d ks) Q s'')
    (hstop : ∀ s'', Unmapped L R d k n s' s'' → Q false s'') :
    wp E (mapKernel L d ((virt, start, stop, perm) :: ks)) Q s' := by
  rw [mapKernel, wp_bind, hsize, hvirt, hstart, mappages_eq hr.pos hr.bound]
  have hle := hr.le
  have huser := hr.user
  have hbound := hr.bound
  refine mapLoop_kernel hr.perm_lt n k q _ _ s' (fun _ => ⟨rfl, rfl⟩) h.own (by omega) hr.bound
    hr.phys (fun j h1 h2 => ?_) (fun s'' hm => ?_) fun s'' hu => ?_
  · rw [h.ent j (by omega), if_neg (by omega)]
    rfl
  · exact hgo s'' (h.mapped hr hm)
  · exact hstop s'' hu

/-- Where only the kernel's rows have tables, there are no user pages. -/
theorem frames_kernel {mem : Nat → Block} (h : ∀ i, tab mem d i ≠ none → i ∈ kernelRows) :
    frames mem d = 0 := by
  refine gather_eq_zero fun j hj => ?_
  have hnone : tab mem d (j / NENTRIES) = none := by
    by_contra hne
    have hmem := h _ hne
    rw [mem_kernelRows, NENTRIES_eq] at hmem
    rw [UPAGES_eq] at hj
    omega
  rw [ent, entry_of_none hnone, next_zero]

theorem card_tables {c : Nat} (hrows : ∀ i, tab s'.mem d i ≠ none → i ∈ kernelRows)
    (hle : c ≤ s.free.length) (hfree : s'.free = s.free.drop c)
    (htotal : owned s'.mem d + s'.free = {d} + (s.free : Multiset Nat)) :
    ((Finset.range NENTRIES).filter fun i => tab s'.mem d i ≠ none).card = c := by
  have hcard := congrArg Multiset.card htotal
  have htabs : Multiset.card (tables s'.mem d) =
      ((Finset.range NENTRIES).filter fun i => tab s'.mem d i ≠ none).card := card_gather
  rw [owned, frames_kernel hrows, add_zero, card_add, card_cons,
    card_add, card_singleton, coe_card, coe_card, hfree,
    List.length_drop, htabs] at hcard
  omega

theorem kernel_refused {m : Nat} (h : Partial L R d m s s') (hzero : owned s.mem d = {d})
    (hr : Range L m k n q perm) (hu : Unmapped L R d k n s' s'') :
    ∃ c < 64, Refused c s s'' ∧ Keeps R s s'' := by
  obtain ⟨c, hc⟩ := h.took
  obtain ⟨c', hc'⟩ := hu.refused
  have href := hc.refused hc'
  have hrows : ∀ i, tab s''.mem d i ≠ none → i ∈ kernelRows := fun i hi => by
    rcases hu.tab_sub i hi with hi | ⟨j, h1, h2, rfl⟩
    · exact h.rows i hi
    · exact hr.rows j h1 h2
  have htotal := hu.total.trans h.total
  rw [hzero] at htotal
  refine ⟨c + c', ?_, href, h.keeps.trans hu.keeps⟩
  -- one row is missing
  obtain ⟨j, h1, h2, hj⟩ := hu.missing
  have hsub : ((Finset.range NENTRIES).filter fun i => tab s''.mem d i ≠ none) ⊆
      kernelRows.erase (j / NENTRIES) := by
    intro i hi
    rw [Finset.mem_filter] at hi
    exact Finset.mem_erase.mpr ⟨fun e => hi.2 (e ▸ hj), hrows i hi.2⟩
  calc c + c' = _ := (card_tables hrows href.le href.free htotal).symm
    _ ≤ (kernelRows.erase (j / NENTRIES)).card := Finset.card_le_card hsub
    _ < 64 := by
      rw [Finset.card_erase_of_mem (hr.rows j h1 h2), card_kernelRows]
      decide

theorem kernelPte_eq (L : Link) : kernelPte L k =
    if k < 524544 then linear 524288 0 PTE_W k
    else if k < 524288 + L.data then linear 524288 0 0 k
    else if k < 581632 then linear 524288 0 PTE_W k
    else if k < 1040384 then 0
    else linear 0 0 PTE_W k := by
  rw [kernelPte, UPAGES_eq, NFRAME_eq]
  rfl

theorem Link.data_bounds (L : Link) : 256 < L.data ∧ L.data < 57344 := by
  have h := L.data_lt.trans_le L.kend_le
  rw [NFRAME_eq] at h
  exact ⟨L.text, h⟩

theorem linear_shift {m x j : Nat} (hk : k = m + x) (hq : q = p + x) (hj : k ≤ j) :
    linear k q perm j = linear m p perm j := by
  have he : q + (j - k) = p + (j - m) := by omega
  rw [linear, he, linear]

/-- The four ranges of `kmap`: I/O space, the kernel's text, its data with the free memory, and
the devices. -/
theorem range_io (L : Link) : Range L 524288 524288 256 0 PTE_W := by
  have hrow : ∀ j, 524288 ≤ j → j < 524288 + 256 → j / NENTRIES ∈ kernelRows := fun j h1 h2 => by
    rw [mem_kernelRows, NENTRIES_eq]
    omega
  refine ⟨by decide, by decide, by rw [UPAGES_eq]; decide, le_rfl, by rw [NPAGES_eq]; decide,
    by decide, fun j h1 h2 => absurd h1 (by omega), hrow, fun j h1 h2 => ?_⟩
  rw [kernelPte_eq, if_pos (by omega)]

theorem range_text (L : Link) : Range L 524544 524544 (L.data - 256) 256 0 := by
  obtain ⟨hlo, hhi⟩ := L.data_bounds
  have hrow : ∀ j, 524544 ≤ j → j < 524544 + (L.data - 256) → j / NENTRIES ∈ kernelRows := by
    intro j h1 h2
    rw [mem_kernelRows, NENTRIES_eq]
    omega
  refine ⟨by omega, by decide, by rw [UPAGES_eq]; decide, le_rfl, by rw [NPAGES_eq]; omega,
    by omega, fun j h1 h2 => absurd h1 (by omega), hrow, fun j h1 h2 => ?_⟩
  rw [kernelPte_eq, if_neg (by omega), if_pos (by omega)]
  exact linear_shift (x := 256) rfl rfl h1

theorem range_data (L : Link) :
    Range L (524288 + L.data) (524288 + L.data) (57344 - L.data) L.data PTE_W := by
  obtain ⟨hlo, hhi⟩ := L.data_bounds
  have hrow : ∀ j, 524288 + L.data ≤ j → j < 524288 + L.data + (57344 - L.data) →
      j / NENTRIES ∈ kernelRows := by
    intro j h1 h2
    rw [mem_kernelRows, NENTRIES_eq]
    omega
  refine ⟨by omega, by decide, by rw [UPAGES_eq]; omega, le_rfl, by rw [NPAGES_eq]; omega,
    by omega, fun j h1 h2 => absurd h1 (by omega), hrow, fun j h1 h2 => ?_⟩
  rw [kernelPte_eq, if_neg (by omega), if_neg (by omega), if_pos (by omega)]
  exact linear_shift rfl (Nat.zero_add _).symm h1

theorem range_dev (L : Link) : Range L 581632 1040384 8192 1040384 PTE_W := by
  obtain ⟨hlo, hhi⟩ := L.data_bounds
  have hrow : ∀ j, 1040384 ≤ j → j < 1040384 + 8192 → j / NENTRIES ∈ kernelRows := by
    intro j h1 h2
    rw [mem_kernelRows, NENTRIES_eq]
    omega
  refine ⟨by decide, by decide, by rw [UPAGES_eq]; decide, by decide, by rw [NPAGES_eq]; decide,
    by decide, fun j h1 h2 => ⟨?_, ?_⟩, hrow, fun j h1 h2 => ?_⟩
  · rw [kernelPte_eq, if_neg (by omega), if_neg (by omega), if_neg (by omega), if_pos h2]
  · rw [mem_kernelRows, NENTRIES_eq]
    omega
  · rw [kernelPte_eq, if_neg (by omega), if_neg (by omega), if_neg (by omega), if_neg (by omega)]
    exact linear_shift (Nat.zero_add _).symm (Nat.zero_add _).symm h1

/-- A new directory, with the kernel's half. -/
structure Fresh (L : Link) (R : Multiset Nat) (d : Nat) (s s' : Phys) : Prop where
  own : Own L R d s'
  keeps : Keeps R s s'
  total : owned s'.mem d + s'.free = s.free
  took : Took 65 s s'
  tab : ∀ i, tab s'.mem d i ≠ none ↔ i ∈ kernelRows
  ent : ∀ j < NPAGES, ent s'.mem d j = if UPAGES ≤ j then kernelPte L j else 0

theorem owned_zero (h : s.mem d = zero) :
    owned s.mem d = {d} ∧ (∀ i, tab s.mem d i = none) ∧ ∀ j, ent s.mem d j = 0 := by
  have htab : ∀ i, tab s.mem d i = none := fun i => by
    change next (getLE (s.mem d) (4 * i) 4) = none
    rw [h, getLE_zero, next_zero]
  have hent : ∀ j, ent s.mem d j = 0 := fun j => entry_of_none (htab _)
  have h1 : tables s.mem d = 0 := gather_eq_zero fun i _ => htab i
  have h2 : frames s.mem d = 0 := gather_eq_zero fun j _ => by rw [hent, next_zero]
  refine ⟨?_, htab, hent⟩
  rw [owned, h1, h2]
  rfl

theorem Partial.start (h : Own L R d s) (hz : s.mem d = zero) : Partial L R d UPAGES s s := by
  obtain ⟨-, htab, hent⟩ := owned_zero hz
  refine ⟨h, .refl, rfl, ⟨0, .refl⟩, fun i hi => absurd (htab i) hi, fun j h1 h2 => ?_,
    fun j hj => ?_⟩
  · omega
  · rw [hent, if_neg (by omega)]

/-- **`setupkvm`.** It returns a directory with the kernel's half, or one of its 65 calls of
`kalloc` fails. -/
theorem setupkvm_spec (h : Pages L (R + s.free)) {Q : Option Nat → Phys → Prop}
    (hnone : ∀ c s', c < 65 → Refused c s s' → Keeps R s s' → Q none s')
    (hsome : ∀ d s', d ∈ s.free → Fresh L R d s s' → Q (some d) s') : wp E (setupkvm L) Q s := by
  rw [setupkvm, wp_bind]
  refine kalloc_spec (fun hf => hnone 0 _ (by decide) (refused_zero hf) ⟨fun _ _ => rfl, rfl, rfl⟩)
    fun d f _ hf => ?_
  have hd : d ∈ s.free := by rw [hf]; exact List.mem_cons_self
  have hpool := h.pool d (mem_add.mpr (.inr hd))
  rw [wp_bind, wp_fill hpool]
  -- the directory is empty
  set s₀ : Phys := { s.tick with free := f, mem := update s.mem d zero } with hs₀
  have hz : s₀.mem d = zero := update_self ..
  obtain ⟨hown, -, -⟩ := owned_zero hz
  have hO : Own L R d s₀ := by
    rw [Own, hown, add_assoc, show ({d} : Multiset Nat) + (s₀.free : Multiset Nat) = s.free from by
      rw [hf]; rfl]
    exact h
  have htook : Took 1 s s₀ := ⟨by rw [hf]; exact Nat.le_add_left _ _, by rw [hf]; rfl, fun _ => rfl⟩
  have hkeeps : Keeps R s s₀ := by
    refine ⟨fun p hp => update_of_ne ?_ .., rfl, rfl⟩
    rintro rfl
    exact h.disjoint hp hd
  have hstop : ∀ {m k n q perm : Nat} {s₁ s₂ : Phys}, Partial L R d m s₀ s₁ →
      Range L m k n q perm → Unmapped L R d k n s₁ s₂ →
      wp E (do if false = true then return some d else return none) Q s₂ := by
    intro m k n q perm s₁ s₂ hp hr hu
    obtain ⟨c, hc, href, hk⟩ := kernel_refused hp hown hr hu
    exact hnone (1 + c) s₂ (by omega) (htook.refused href) (hkeeps.trans hk)
  rw [wp_bind, kmap]
  have h0 : Partial L R d 524288 s₀ s₀ := by
    have := Partial.start hO hz
    rwa [UPAGES_eq] at this
  obtain ⟨hlo, hhi⟩ := L.data_bounds
  refine h0.wp_mapKernel (range_io L) rfl rfl (by decide) (fun s₁ h1 => ?_)
    fun s₂ hu => hstop h0 (range_io L) hu
  refine h1.wp_mapKernel (range_text L) rfl rfl ?_ (fun s₂ h2 => ?_)
    fun s₃ hu => hstop h1 (range_text L) hu
  · simp only [PGSIZE, EXTMEM]
    omega
  rw [show 524544 + (L.data - 256) = 524288 + L.data by omega] at h2
  refine h2.wp_mapKernel (range_data L) ?_ rfl ?_ (fun s₃ h3 => ?_)
    fun s₄ hu => hstop h2 (range_data L) hu
  · simp only [PGSIZE, KERNBASE]
    omega
  · simp only [PGSIZE, PHYSTOP]
    omega
  rw [show 524288 + L.data + (57344 - L.data) = 581632 by omega] at h3
  refine h3.wp_mapKernel (range_dev L) rfl rfl (by decide) (fun s₄ h4 => ?_)
    fun s₅ hu => hstop h3 (range_dev L) hu
  -- all ranges are mapped
  have hrows : ∀ i, tab s₄.mem d i ≠ none ↔ i ∈ kernelRows := fun i => ⟨h4.rows i, fun hi => by
    have hlt := mem_kernelRows.mp hi
    have hrow : NENTRIES * i / NENTRIES = i := by
      rw [NENTRIES_eq]
      omega
    have := h4.rows_all (NENTRIES * i) (by rw [NENTRIES_eq, UPAGES_eq]; omega)
      (by rw [NENTRIES_eq]; omega)
    rw [hrow] at this
    exact this hi⟩
  refine hsome d s₄ hd ⟨h4.own, hkeeps.trans h4.keeps, ?_, ?_, hrows, fun j hj => ?_⟩
  · rw [h4.total, hown, hf]
    rfl
  · obtain ⟨c, hc⟩ := h4.took
    have htotal := h4.total
    rw [hown] at htotal
    have hcard := card_tables h4.rows hc.le hc.free htotal
    have hall : ((Finset.range NENTRIES).filter fun i => tab s₄.mem d i ≠ none) = kernelRows := by
      ext i
      rw [Finset.mem_filter, hrows, Finset.mem_range, and_iff_right_iff_imp, NENTRIES_eq]
      intro hi
      have := mem_kernelRows.mp hi
      omega
    rw [hall, card_kernelRows] at hcard
    rw [← hcard] at hc
    exact htook.trans hc
  · rw [h4.ent j hj]
    rw [NPAGES_eq] at hj
    simp only [show j < 1040384 + 8192 from hj, and_true]

end Vm

end Xv6
