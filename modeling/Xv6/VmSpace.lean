import Xv6.Lib.TwoLevel
import Xv6.Vm

/-!
# Address spaces

What the words in memory mean. The tables of a page directory (`tables`) and the pages that its
user half maps (`frames`) are, with the directory itself, the pages it owns (`owned`). The
functions are specified against a rest `R`, which stands for all other pages in use: what is
owned, what is free and the rest are distinct pages (`Own`), and no function touches the
rest (`Keeps`).

Pages are counted with multiplicity, so that a page that is used twice or lost shows up as an
inequality.
-/

open Bytes TwoLevel StateWp Function Multiset

namespace Xv6

namespace Vm

/-! ### Entries -/

theorem present_eq (w : Nat) : present w = w.testBit 0 := by
  rw [present, PTE_P, Nat.and_one_is_mod, Nat.testBit_zero]
  rcases Nat.mod_two_eq_zero_or_one w with h | h <;> rw [h] <;> rfl

theorem user_eq (w : Nat) : user w = w.testBit 2 := by
  rw [user, PTE_U, show (4 : Nat) = 2 ^ 2 from rfl, Nat.and_two_pow]
  cases w.testBit 2 <;> rfl

theorem present_zero : present 0 = false := rfl

theorem pte_eq {perm : Nat} (hperm : perm < 8) (p : Nat) :
    PGSIZE * p ||| perm ||| PTE_P = PGSIZE * p + (perm ||| PTE_P) := by
  have hlt : perm ||| PTE_P < 2 ^ 12 := Nat.or_lt_two_pow (by omega) (by decide)
  rw [Nat.or_assoc]
  exact (Nat.two_pow_add_eq_or_of_lt hlt p).symm

section Pte

variable {perm p : Nat}

theorem perm_lt (hperm : perm < 8) : perm ||| PTE_P < PGSIZE :=
  Nat.or_lt_two_pow (n := 12) (by omega) (by decide)

theorem pteAddr_pte (hperm : perm < 8) : pteAddr (PGSIZE * p ||| perm ||| PTE_P) = p := by
  have hlt := perm_lt hperm
  rw [pteAddr, pte_eq hperm]
  simp only [PGSIZE] at hlt ⊢
  omega

theorem present_pte : present (PGSIZE * p ||| perm ||| PTE_P) = true := by
  rw [present_eq, Nat.testBit_or]
  exact Bool.or_eq_true_iff.mpr (.inr (by decide))

theorem user_pte : user (PGSIZE * p ||| perm ||| PTE_P) = perm.testBit 2 := by
  have h1 : (PGSIZE * p).testBit 2 = false := by
    rw [show PGSIZE = 2 ^ 12 from rfl, Nat.testBit_two_pow_mul]
    rfl
  rw [user_eq, Nat.testBit_or, Nat.testBit_or, h1, Bool.false_or,
    show PTE_P.testBit 2 = false from by decide, Bool.or_false]

theorem pte_lt (hperm : perm < 8) (hp : p < 2 ^ 20) : PGSIZE * p ||| perm ||| PTE_P < 2 ^ 32 := by
  have hlt := perm_lt hperm
  rw [pte_eq hperm]
  simp only [PGSIZE] at hlt ⊢
  omega

end Pte

/-- The page that an entry names. -/
def next (w : Nat) : Option Nat := if present w then some (pteAddr w) else none

theorem next_zero : next 0 = none := rfl

theorem next_of_present {w : Nat} (h : present w = true) : next w = some (pteAddr w) := if_pos h

theorem next_eq_none {w : Nat} : next w = none ↔ present w = false := by
  unfold next
  cases present w <;> simp

theorem next_pte {perm p : Nat} (hperm : perm < 8) :
    next (PGSIZE * p ||| perm ||| PTE_P) = some p := by
  rw [next_of_present (present_pte), pteAddr_pte hperm]

/-! ### Words -/

variable {mem : Nat → Block} {p q i j w : Nat}

theorem word_update_of_ne (h : q ≠ p) (b : Block) : word (update mem p b) q = word mem q := by
  funext i
  rw [word, update_of_ne h, word]

theorem word_zero : word (update mem p zero) p = fun _ => 0 := by
  funext i
  rw [word, update_self, getLE_zero]

theorem word_putLE (hw : w < 2 ^ 32) (mem : Nat → Block) (p i : Nat) :
    word (update mem p (putLE (mem p) (4 * i) 4 w)) p =
      update (word mem p) i w := by
  funext j
  rw [word, update_self]
  by_cases hj : j = i
  · rw [hj, update_self, getLE_putLE_of_lt (by omega)]
  · rw [update_of_ne hj, getLE_putLE_disjoint (by omega)]
    rfl

/-! ### Address spaces in memory -/

/-- The page table of the directory `d` for index `i`. -/
abbrev tab (mem : Nat → Block) (d i : Nat) : Option Nat := table next (word mem) d i

/-- The entry of page `k`; 0 where there is no page table. -/
abbrev ent (mem : Nat → Block) (d k : Nat) : Nat := entry next NENTRIES 0 (word mem) d k

abbrev tables (mem : Nat → Block) (d : Nat) : Multiset Nat := nodes next NENTRIES (word mem) d

abbrev NPAGES : Nat := NENTRIES * NENTRIES

/-- The number of pages below `KERNBASE`. -/
@[irreducible] def UPAGES : Nat := KERNBASE / PGSIZE

/-- The pages that are mapped in the user half. -/
def frames (mem : Nat → Block) (d : Nat) : Multiset Nat := gather UPAGES fun k => next (ent mem d k)

/-- The pages of an address space. -/
def owned (mem : Nat → Block) (d : Nat) : Multiset Nat := d ::ₘ (tables mem d + frames mem d)

theorem NENTRIES_eq : NENTRIES = 1024 := by unfold NENTRIES; rfl

theorem NPAGES_eq : NPAGES = 2 ^ 20 := by rw [NPAGES, NENTRIES_eq]; rfl

theorem UPAGES_eq : UPAGES = 2 ^ 19 := by unfold UPAGES; rfl

theorem NFRAME_eq : NFRAME = 57344 := by unfold NFRAME; rfl

theorem UPAGES_le : UPAGES ≤ NPAGES := by rw [UPAGES_eq, NPAGES_eq]; decide

variable {d : Nat} {mem' : Nat → Block} {k t : Nat}

theorem owned_congr (h : ∀ p ∈ d ::ₘ tables mem d, mem' p = mem p) :
    tables mem' d = tables mem d ∧ (∀ i, tab mem' d i = tab mem d i) ∧
      (∀ k < NPAGES, ent mem' d k = ent mem d k) ∧ owned mem' d = owned mem d := by
  have hw : ∀ p ∈ d ::ₘ tables mem d, word mem' p = word mem p := fun p hp => by
    funext i
    rw [word, h p hp, word]
  have hd := hw d (mem_cons_self d _)
  have htab : tables mem' d = tables mem d := nodes_congr hd
  have hent : ∀ k < NPAGES, ent mem' d k = ent mem d k := fun k hk => entry_congr hw hk
  refine ⟨htab, fun i => congrFun (table_congr hd) i, hent, ?_⟩
  rw [owned, owned, htab, frames, frames]
  congr 2
  exact gather_congr fun k hk => by rw [hent k (hk.trans_le UPAGES_le)]

theorem frames_set (hk : k < NPAGES) (hnone : present (ent mem d k) = false)
    (hent : ∀ j < NPAGES, ent mem' d j = if j = k then w else ent mem d j) :
    frames mem' d = (if k < UPAGES then (next w).elim 0 fun p => {p} else 0) + frames mem d := by
  have hother : ∀ j < UPAGES, j ≠ k → next (ent mem' d j) = next (ent mem d j) := fun j hj hjk => by
    rw [hent j (hj.trans_le UPAGES_le), if_neg hjk]
  split
  · next hu =>
    have hself : next (ent mem' d k) = next w := by rw [hent k hk, if_pos rfl]
    cases hw : next w with
    | none =>
      rw [Option.elim_none, zero_add]
      refine gather_congr fun j hj => ?_
      by_cases hjk : j = k
      · rw [hjk, hself, hw, next_eq_none.mpr hnone]
      · exact hother j hj hjk
    | some p =>
      rw [Option.elim_some, singleton_add]
      exact gather_of_eq_some hu (next_eq_none.mpr hnone) (hself.trans hw) hother
  · next hu =>
    rw [zero_add]
    exact gather_congr fun j hj => hother j hj fun e => hu (e ▸ hj)

theorem frames_clear (hk : k < UPAGES) (hp : next (ent mem d k) = some p)
    (hent : ∀ j < NPAGES, ent mem' d j = if j = k then 0 else ent mem d j) :
    frames mem d = p ::ₘ frames mem' d := by
  refine gather_of_eq_some hk ?_ hp fun j hj hjk => ?_
  · rw [hent k (hk.trans_le UPAGES_le), if_pos rfl, next_zero]
  · rw [hent j (hj.trans_le UPAGES_le), if_neg hjk]

/-! ### Distinct pages -/

variable (L : Link)

/-- Distinct pages of those that `kalloc` hands out. -/
structure Pages (M : Multiset Nat) : Prop where
  nodup : M.Nodup
  pool : ∀ p ∈ M, L.kend ≤ p ∧ p < NFRAME

/-- The directory `d` owns its pages: they, the free pages and the rest `R` are distinct. -/
def Own (R : Multiset Nat) (d : Nat) (s : Phys) : Prop := Pages L (R + owned s.mem d + s.free)

/-- A step that does not concern the pages `R`. -/
structure Keeps (R : Multiset Nat) (s s' : Phys) : Prop where
  mem : ∀ p ∈ R, s'.mem p = s.mem p
  twice : s'.twice = s.twice
  log : s'.log = s.log

variable {L} {A B R R' : Multiset Nat} {s s' s'' : Phys}

namespace Keeps

theorem refl : Keeps R s s := ⟨fun _ _ => rfl, rfl, rfl⟩

theorem trans (h : Keeps R s s') (h' : Keeps R s' s'') : Keeps R s s'' where
  mem p hp := (h'.mem p hp).trans (h.mem p hp)
  twice := h'.twice.trans h.twice
  log := h'.log.trans h.log

theorem mono (h : Keeps R' s s') (hR : ∀ p ∈ R, p ∈ R') : Keeps R s s' :=
  ⟨fun p hp => h.mem p (hR p hp), h.twice, h.log⟩

/-- An address space among the pages is as before. -/
theorem owned (h : Keeps R s s') {d : Nat} (hd : ∀ p ∈ owned s.mem d, p ∈ R) :
    (∀ i, tab s'.mem d i = tab s.mem d i) ∧ (∀ k < NPAGES, ent s'.mem d k = ent s.mem d k) ∧
      Vm.owned s'.mem d = Vm.owned s.mem d := by
  refine (owned_congr fun p hp => h.mem p (hd p ?_)).2
  rcases mem_cons.mp hp with rfl | hp
  · exact mem_cons_self _ _
  · exact mem_cons_of_mem (mem_add.mpr (.inl hp))

end Keeps

theorem Pages.mono (h : Pages L A) (hle : B ≤ A) : Pages L B :=
  ⟨nodup_of_le hle h.nodup, fun p hp => h.pool p (mem_of_le hle hp)⟩

theorem Pages.disjoint (h : Pages L (A + B)) (hp : p ∈ A) : p ∉ B := fun hB =>
  (disjoint_left.mp (nodup_add.mp h.nodup).2.2) hp hB

namespace Own

variable (h : Own L R d s)

include h

theorem space : Pages L (owned s.mem d) :=
  h.mono ((le_add_left _ _).trans (le_add_right _ _))

theorem dir_pool : L.kend ≤ d ∧ d < NFRAME := h.space.pool d (mem_cons_self _ _)

theorem table_pool (ht : t ∈ tables s.mem d) : L.kend ≤ t ∧ t < NFRAME :=
  h.space.pool t (mem_cons_of_mem (mem_add.mpr (.inl ht)))

theorem frame_pool (hp : p ∈ frames s.mem d) : L.kend ≤ p ∧ p < NFRAME :=
  h.space.pool p (mem_cons_of_mem (mem_add.mpr (.inr hp)))

theorem nodup : (d ::ₘ tables s.mem d).Nodup := by
  refine nodup_of_le ?_ h.space.nodup
  exact cons_le_cons d (le_add_right _ _)

theorem frame_ne (hp : p ∈ frames s.mem d) : p ∉ d ::ₘ tables s.mem d := by
  have hsp := h.space
  rw [owned, ← cons_add] at hsp
  exact fun hmem => hsp.disjoint hmem hp

theorem free_ne (hp : p ∈ s.free) : p ∉ R ∧ p ∉ owned s.mem d := by
  constructor
  · intro hR
    exact h.disjoint (mem_add.mpr (.inl hR)) hp
  · intro hd
    exact h.disjoint (mem_add.mpr (.inr hd)) hp

theorem rest_ne (hp : p ∈ R) : p ∉ owned s.mem d := fun hd => by
  have hle : Pages L (R + owned s.mem d) := h.mono (le_add_right _ _)
  exact hle.disjoint hp hd

end Own

/-! ### Primitive operations -/

section Primitive

variable {E : Stop → Prop} (hp : L.kend ≤ p ∧ p < NFRAME)

include hp

theorem wp_frame {Q : Unit → Phys → Prop} : wp E (frame L p) Q s ↔ Q () s := by
  rw [frame, if_pos hp]
  exact wp_pure

theorem wp_load {Q : Nat → Phys → Prop} : wp E (load L p i) Q s ↔ Q (word s.mem p i) s := by
  simp only [load, wp_bind, wp_frame hp, wp_get, wp_pure]

theorem wp_store {Q : Unit → Phys → Prop} : wp E (store L p i w) Q s ↔
    Q () { s with mem := update s.mem p (putLE (s.mem p) (4 * i) 4 w) } := by
  simp only [store, wp_bind, wp_frame hp]
  exact wp_modify

theorem wp_fill {Q : Unit → Phys → Prop} {b : Block} : wp E (fill L p b) Q s ↔
    Q () { s with mem := update s.mem p b } := by
  simp only [fill, wp_bind, wp_frame hp]
  exact wp_modify

theorem wp_kfree {Q : Unit → Phys → Prop} : wp E (kfree L p) Q s ↔
    Q () { s with
      mem := update s.mem p junk
      free := p :: s.free
      twice := s.twice || decide (p ∈ s.free) } := by
  have hno : ¬(p < L.kend ∨ NFRAME ≤ p) := by omega
  simp only [kfree, if_neg hno]
  exact wp_modify

end Primitive

/-- One call of `kalloc` has passed. -/
def Phys.tick (s : Phys) : Phys := { s with deny := fun n => s.deny (n + 1) }

/-- Call `i` of `kalloc` from now on fails, if none before it does. -/
def Phys.fails (s : Phys) (i : Nat) : Bool := s.deny i || decide (s.free.length ≤ i)

theorem Phys.fails_zero : s.fails 0 = true ↔ s.deny 0 = true ∨ s.free = [] := by
  rw [fails, Bool.or_eq_true, decide_eq_true_iff, Nat.le_zero, List.length_eq_zero_iff]

theorem kalloc_none (h : s.fails 0 = true) : kalloc s = .ok (none, s.tick) := by
  rw [Phys.fails_zero] at h
  unfold kalloc
  split
  · next hd hf =>
    rw [hd, hf] at h
    rcases h with h | h <;> cases h
  · rfl

theorem kalloc_some {f : List Nat} (h : s.fails 0 = false) (hf : s.free = p :: f) :
    kalloc s = .ok (some p, { s.tick with free := f }) := by
  unfold kalloc
  split
  · next q g hd hf' =>
    obtain ⟨rfl, rfl⟩ := List.cons.inj (hf'.symm.trans hf)
    rfl
  · next hno =>
    have hd : s.deny 0 = false := (Bool.or_eq_false_iff.mp h).1
    exact (hno p f hd hf).elim

theorem kalloc_spec {E : Stop → Prop} {Q : Option Nat → Phys → Prop}
    (hnone : s.fails 0 = true → Q none s.tick)
    (hsome : ∀ p f, s.fails 0 = false → s.free = p :: f → Q (some p) { s.tick with free := f }) :
    wp E kalloc Q s := by
  cases hd : s.fails 0 with
  | true => exact (wp_of_ok (kalloc_none hd)).mpr (hnone hd)
  | false =>
    cases hf : s.free with
    | nil => rw [Phys.fails_zero.mpr (.inr hf)] at hd; cases hd
    | cons p f => exact (wp_of_ok (kalloc_some hd hf)).mpr (hsome p f hd hf)

/-! ### A change of one entry -/

def Phys.put (s : Phys) (t i w : Nat) : Phys :=
  { s with mem := update s.mem t (putLE (s.mem t) (4 * i) 4 w) }

/-- The entry of page `k` of directory `d` becomes `w`, and nothing else changes. -/
structure Changed (R : Multiset Nat) (d k w : Nat) (s s' : Phys) : Prop where
  keeps : Keeps R s s'
  tab : ∀ i, tab s'.mem d i = tab s.mem d i
  tables : tables s'.mem d = tables s.mem d
  ent : ∀ j < NPAGES, ent s'.mem d j = if j = k then w else ent s.mem d j

theorem div_lt_NENTRIES (hk : k < NPAGES) : k / NENTRIES < NENTRIES := Nat.div_lt_of_lt_mul hk

theorem Own.tab_mem (hk : k < NPAGES) (ht : tab s.mem d (k / NENTRIES) = some t) :
    t ∈ tables s.mem d :=
  mem_nodes (div_lt_NENTRIES hk) ht

theorem Own.put (h : Own L R d s) (hk : k < NPAGES) (ht : tab s.mem d (k / NENTRIES) = some t)
    (hw : w < 2 ^ 32) : Changed R d k w s (s.put t (k % NENTRIES) w) := by
  have hmem := Own.tab_mem hk ht
  have hset := word_putLE hw s.mem t (k % NENTRIES)
  have hrest : ∀ p ∈ d ::ₘ tables s.mem d, p ≠ t →
      word (s.put t (k % NENTRIES) w).mem p = word s.mem p := fun p _ hp => word_update_of_ne hp _
  have hd : word (s.put t (k % NENTRIES) w).mem d = word s.mem d := table_set h.nodup hk ht hrest
  refine ⟨⟨fun p hp => ?_, rfl, rfl⟩, fun i => congrFun (table_congr hd) i, nodes_congr hd,
    fun j hj => entry_set h.nodup hk ht hset hrest hj⟩
  refine update_of_ne ?_ ..
  rintro rfl
  exact h.rest_ne hp (mem_cons_of_mem (mem_add.mpr (.inl hmem)))

theorem Changed.owned (h : Changed R d k w s s') (hk : k < NPAGES)
    (hnone : present (Vm.ent s.mem d k) = false) :
    owned s'.mem d =
      (if k < UPAGES then (next w).elim 0 fun p => {p} else 0) + owned s.mem d := by
  rw [Vm.owned, Vm.owned, h.tables, frames_set hk hnone h.ent, add_cons,
    add_left_comm]

/-! ### A new page table -/

/-- `kalloc` has returned `p`, which becomes the page table for index `i`. -/
def Phys.install (s : Phys) (d i p : Nat) (f : List Nat) : Phys :=
  Phys.put { s.tick with free := f, mem := update s.mem p zero } d i
    (PGSIZE * p ||| PTE_P ||| PTE_W ||| PTE_U)

theorem pde_eq (p : Nat) :
    PGSIZE * p ||| PTE_P ||| PTE_W ||| PTE_U = PGSIZE * p ||| 6 ||| PTE_P := by
  rw [Nat.or_assoc, Nat.or_assoc, Nat.or_assoc]
  rfl

/-- A directory has the tables of `s` and possibly one more, and the entries of `s`. -/
structure Installed (R : Multiset Nat) (d i p : Nat) (f : List Nat) (s s' : Phys) : Prop where
  keeps : Keeps R s s'
  tab : ∀ j, tab s'.mem d j = if j = i then some p else tab s.mem d j
  ent : ∀ j < NPAGES, ent s'.mem d j = ent s.mem d j
  owned : owned s'.mem d = p ::ₘ owned s.mem d

theorem Own.install (h : Own L R d s) (hi : i < NENTRIES) (hnone : tab s.mem d i = none)
    {f : List Nat} (hf : s.free = p :: f) : Installed R d i p f s (s.install d i p f) := by
  have hp : p ∈ s.free := by rw [hf]; exact List.mem_cons_self
  obtain ⟨hR, hown⟩ := h.free_ne hp
  have hpd : d ≠ p := fun e => hown (e ▸ mem_cons_self _ _)
  have hpool : p < NFRAME := (h.pool p (mem_add.mpr (.inr hp))).2
  have hw : PGSIZE * p ||| PTE_P ||| PTE_W ||| PTE_U < 2 ^ 32 := by
    rw [pde_eq]
    exact pte_lt (by decide) (hpool.trans (by rw [NFRAME_eq]; decide))
  have hnext : next (PGSIZE * p ||| PTE_P ||| PTE_W ||| PTE_U) = some p := by
    rw [pde_eq]
    exact next_pte (by decide)
  -- the words of the directory, of the new table and of the other tables
  have hdir : word (s.install d i p f).mem d =
      update (word s.mem d) i (PGSIZE * p ||| PTE_P ||| PTE_W ||| PTE_U) := by
    have hput := word_putLE hw (update s.mem p zero) d i
    rw [word_update_of_ne hpd] at hput
    exact hput
  have hother : ∀ q ≠ d, q ≠ p → (s.install d i p f).mem q = s.mem q := fun q h1 h2 => by
    change update (update s.mem p zero) d _ q = _
    rw [update_of_ne h1, update_of_ne h2]
  have hzero : ∀ j < NENTRIES, word (s.install d i p f).mem p j = 0 := fun j _ => by
    have : word (s.install d i p f).mem p = word (update s.mem p zero) p :=
      word_update_of_ne (Ne.symm hpd) _
    rw [this, word_zero]
  have htables : ∀ q ∈ tables s.mem d, word (s.install d i p f).mem q = word s.mem q := by
    intro q hq
    have h1 : q ≠ d := fun e => (nodup_cons.mp h.nodup).1 (e ▸ hq)
    have h2 : q ≠ p := fun e =>
      hown (mem_cons_of_mem (mem_add.mpr (.inl (e ▸ hq))))
    funext j
    rw [word, hother q h1 h2, word]
  have hent : ∀ j < NPAGES, Vm.ent (s.install d i p f).mem d j = Vm.ent s.mem d j :=
    fun j hj => entry_install hnone hnext hdir hzero htables hj
  refine ⟨⟨fun q hq => hother q ?_ ?_, rfl, rfl⟩, fun j => ?_, hent, ?_⟩
  · rintro rfl
    exact h.rest_ne hq (mem_cons_self _ _)
  · rintro rfl
    exact hR hq
  · rw [Vm.tab, table_install hdir, hnext, update_apply]
  · have hframes : frames (s.install d i p f).mem d = frames s.mem d :=
      gather_congr fun j hj => by rw [hent j (hj.trans_le UPAGES_le)]
    have htabs : tables (s.install d i p f).mem d = p ::ₘ tables s.mem d :=
      nodes_install hi hnone hnext hdir
    rw [Vm.owned, Vm.owned, hframes, htabs, cons_add, cons_swap]

end Vm

end Xv6
