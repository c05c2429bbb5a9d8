import Xv6.VmGrow

/-!
# copyuvm and copyout

`copyuvm` gives a child a copy of every page of its parent. All pages are mapped writable and
accessible to the user, whatever the parent's entries say: a page that the parent may not access,
such as the one under its stack, the child may.

`copyout` stores bytes page by page. It relies on `uva2ka` to find the pages that the user may not
access, and `uva2ka` reads the entry of a page also where there is no page table, through the null
pointer.
-/

open Bytes TwoLevel StateWp Function

namespace Xv6

namespace Vm

variable {L : Link} {E : Stop → Prop} {R : Multiset Nat} {s s' s'' : Phys}
  {d pd k n p i j sz : Nat}

/-! ### Copying an address space -/

def writable (pte : Nat) : Bool := pte &&& PTE_W != 0

/-- The bits of an entry that say who may do what. -/
def flags (pte : Nat) : Bool × Bool × Bool := (present pte, writable pte, user pte)

theorem flags_upte (p : Nat) : flags (upte p) = (true, true, true) := by
  have hbit : (upte p).testBit 1 = true := by
    rw [upte, Nat.testBit_or, Nat.testBit_or, show (PTE_W ||| PTE_U).testBit 1 = true by decide,
      Bool.or_true, Bool.true_or]
  have hw : writable (upte p) = true := by
    rw [writable, PTE_W, show (2 : Nat) = 2 ^ 1 from rfl, Nat.and_two_pow, hbit]
    rfl
  rw [flags, present_pte, hw, user_pte]
  rfl

/-- The pages of `pd` up to `k` are copied to `d`. -/
structure Copied (L : Link) (R : Multiset Nat) (pd d k : Nat) (s s' : Phys) : Prop where
  own : Own L (owned s.mem pd + R) d s'
  keeps : Keeps (owned s.mem pd + R) s s'
  sub : ∀ p ∈ s'.free, p ∈ s.free
  page : ∀ j < k, ∃ p ∈ s.free, ent s'.mem d j = upte p ∧ s'.mem p = s.mem (pteAddr (ent s.mem pd j))
  other : ∀ j < UPAGES, k ≤ j → present (ent s'.mem d j) = false

namespace Copied

theorem parent (h : Copied L R pd d k s s') : Own L (R + owned s'.mem d) pd s' ∧
    (∀ i, tab s'.mem pd i = tab s.mem pd i) ∧ ∀ j < NPAGES, ent s'.mem pd j = ent s.mem pd j := by
  obtain ⟨htab, hent, howned⟩ := h.keeps.owned fun p hp => Multiset.mem_add.mpr (.inl hp)
  refine ⟨?_, htab, hent⟩
  have hsum : R + owned s'.mem d + owned s'.mem pd + s'.free
      = owned s.mem pd + R + owned s'.mem d + s'.free := by
    rw [howned]
    abel
  rw [Own, hsum]
  exact h.own

theorem frame (h : Copied L R pd d k s s') (hj : j < UPAGES) (hp : present (ent s.mem pd j) = true) :
    s'.mem (pteAddr (ent s.mem pd j)) = s.mem (pteAddr (ent s.mem pd j)) :=
  h.keeps.mem _ (Multiset.mem_add.mpr (.inl (Multiset.mem_cons_of_mem (Multiset.mem_add.mpr
    (.inr (mem_gather.mpr ⟨j, hj, next_of_present hp⟩))))))

theorem placed {f : List Nat} (h : Copied L R pd d k s s') (hf : s'.free = p :: f) (hk : k < UPAGES)
    (hp : Placed L (owned s.mem pd + R) d k (upte p)
      (s'.grab p f (s.mem (pteAddr (ent s.mem pd k)))) s'') : Copied L R pd d (k + 1) s s'' := by
  obtain ⟨-, ha⟩ := h.own.grab hf (s.mem (pteAddr (ent s.mem pd k)))
  have hkeeps := hp.keeps
  rw [held_user hk] at hkeeps
  have hpfree : p ∈ s.free := h.sub p (by rw [hf]; exact List.mem_cons_self)
  refine ⟨hp.own, h.keeps.trans (ha.keeps.trans (hkeeps.mono fun q hq => Multiset.mem_add.mpr (.inr hq))),
    fun q hq => ?_, fun j hj => ?_, fun j hj hle => ?_⟩
  · rw [hp.took.free] at hq
    exact h.sub q (by rw [hf]; exact List.mem_cons_of_mem p (List.mem_of_mem_drop hq))
  · have hjN : j < NPAGES := (by omega : j < UPAGES).trans_le UPAGES_le
    rw [hp.ent j hjN, ha.ent j hjN]
    rcases Nat.lt_succ_iff_lt_or_eq.mp hj with hlt | rfl
    · -- an earlier page: its frame is a frame of `d` already
      obtain ⟨q, hq, he, hm⟩ := h.page j hlt
      rw [if_neg (by omega)]
      refine ⟨q, hq, he, ?_⟩
      have hju : j < UPAGES := by omega
      have hq' : q ∈ frames (s'.grab p f (s.mem (pteAddr (ent s.mem pd k)))).mem d :=
        mem_frames hju ((ha.ent j hjN).trans he)
      rw [hp.frame q hq', ha.frame q (mem_frames hju he), hm]
    · rw [if_pos rfl]
      refine ⟨p, hpfree, rfl, ?_⟩
      rw [hkeeps.mem p (by simp)]
      exact update_self ..
  · have hjN := hj.trans_le UPAGES_le
    rw [hp.ent j hjN, if_neg (by omega), ha.ent j hjN]
    exact h.other j hj (by omega)

end Copied

theorem copyLoop_succ (h : Copied L R pd d k s s') (hk : k < UPAGES)
    (hpres : present (ent s.mem pd k) = true) {Q : Bool → Phys → Prop}
    (hfail : ∀ s'', s'.fails 0 = true ∨ s'.fails 1 = true → Q false s'')
    (hgo : ∀ s'', Copied L R pd d (k + 1) s s'' →
      wp E (copyLoop L pd d n (PGSIZE * (k + 1))) Q s'') :
    wp E (copyLoop L pd d (n + 1) (PGSIZE * k)) Q s' := by
  have hkN := hk.trans_le UPAGES_le
  obtain ⟨hpd, htab, hent⟩ := h.parent
  rw [copyLoop, wp_bind, wp_walk hpd hkN, htab]
  cases ht : tab s.mem pd (k / NENTRIES) with
  | none =>
    rw [ent, entry_of_none ht] at hpres
    cases hpres
  | some t =>
    have hpool := hpd.table_pool (Own.tab_mem hkN ((htab _).trans ht))
    have hword : word s'.mem t (k % NENTRIES) = ent s.mem pd k :=
      (entry_of_some ((htab _).trans ht)).symm.trans (hent k hkN)
    have hframe := hpd.frame_pool (mem_gather.mpr ⟨k, hk, by rw [hent k hkN]; exact next_of_present hpres⟩)
    change wp E (load L t (k % NENTRIES) >>= _) Q s'
    rw [wp_bind, wp_load hpool, hword, hpres, Bool.not_true, if_neg Bool.false_ne_true, wp_bind]
    refine kalloc_spec (fun hf => hfail _ (.inl hf)) fun p f _ hf => ?_
    have hpp := h.own.pool p (Multiset.mem_add.mpr (.inr (by rw [hf]; exact List.mem_cons_self)))
    change wp E (frame L (pteAddr (ent s.mem pd k)) >>= _) Q _
    rw [wp_bind, wp_frame hframe, wp_bind, wp_get, wp_bind, wp_fill hpp, wp_bind]
    change wp E (mappages L d (PGSIZE * k) PGSIZE (PGSIZE * p) (PTE_W ||| PTE_U)) _
      (s'.grab p f (s'.mem (pteAddr (ent s.mem pd k))))
    rw [h.frame hk hpres]
    obtain ⟨hown, ha⟩ := h.own.grab hf (s.mem (pteAddr (ent s.mem pd k)))
    refine mappage_spec hown hk (by rw [ha.ent k hkN]; exact h.other k hk le_rfl) (fun _ hf' => ?_)
      fun s'' _ hp => ?_
    · exact hfail _ (.inr ((took_one hf).fails 0 ▸ hf'))
    · exact hgo s'' (h.placed hf hk hp)

theorem copyLoop_spec : ∀ n k s', Copied L R pd d k s s' → k + n ≤ UPAGES →
    (∀ j, j < k + n → present (ent s.mem pd j) = true) →
    wp (fun _ => True) (copyLoop L pd d n (PGSIZE * k))
      (fun b s'' => b = true → Copied L R pd d (k + n) s s'') s' := by
  intro n
  induction n with
  | zero => exact fun k s' h _ _ _ => h
  | succ n ih =>
    intro k s' h hk hpres
    refine copyLoop_succ h (by omega) (hpres k (by omega)) (fun _ _ => nofun) fun s'' h' => ?_
    rw [show k + (n + 1) = k + 1 + n by omega] at hk hpres ⊢
    exact ih (k + 1) s'' h' hk hpres

theorem Fresh.copied (hf : Fresh L (owned s.mem pd + R) d s s') : Copied L R pd d 0 s s' where
  own := hf.own
  keeps := hf.keeps
  sub p hp := by
    rw [hf.took.free] at hp
    exact List.mem_of_mem_drop hp
  page _ hj := absurd hj (Nat.not_lt_zero _)
  other j hj _ := by
    rw [hf.ent j (hj.trans_le UPAGES_le), if_neg (Nat.not_le.mpr hj)]
    rfl

theorem lt_rounds (sz j : Nat) : j < (sz + (PGSIZE - 1)) / PGSIZE ↔ PGSIZE * j < sz := by
  simp only [PGSIZE]
  omega

theorem copyuvm_spec (h : Own L R pd s) (hsz : sz ≤ KERNBASE)
    (hpres : ∀ j, PGSIZE * j < sz → present (ent s.mem pd j) = true) :
    wp (fun _ => True) (copyuvm L pd sz)
      (fun r s' => ∀ d, r = some d → Copied L R pd d ((sz + (PGSIZE - 1)) / PGSIZE) s s') s := by
  have hpages : Pages L (owned s.mem pd + R + s.free) := by
    rw [add_comm (owned s.mem pd)]
    exact h
  rw [copyuvm, wp_bind]
  refine setupkvm_spec hpages (fun _ _ _ _ _ => nofun) fun d s₁ _ hf => ?_
  have hu : 0 + (sz + (PGSIZE - 1)) / PGSIZE ≤ UPAGES := by
    rw [UPAGES_eq]
    simp only [PGSIZE, KERNBASE] at hsz ⊢
    omega
  have hloop := copyLoop_spec _ 0 s₁ hf.copied hu fun j hj =>
    hpres j ((lt_rounds sz j).mp (by rwa [Nat.zero_add] at hj))
  rw [Nat.mul_zero, Nat.zero_add] at hloop
  change wp _ (copyLoop L pd d _ 0 >>= _) _ s₁
  rw [wp_bind]
  refine wp_mono hloop fun b s₂ hb => ?_
  cases b with
  | true =>
    rintro d' ⟨⟩
    exact hb rfl
  | false =>
    change wp _ (freevm L d >>= fun _ => pure none) _ s₂
    refine wp_bind_right fun _ _ => ?_
    nofun

/-- The address space `d` is a faithful copy of `pd`. -/
structure Faithful (pd sz d : Nat) (s s' : Phys) : Prop where
  page : ∀ j, PGSIZE * j < sz → pteAddr (ent s'.mem d j) ∈ s.free ∧
    s'.mem (pteAddr (ent s'.mem d j)) = s.mem (pteAddr (ent s.mem pd j)) ∧
    flags (ent s'.mem d j) = flags (ent s.mem pd j)
  own : ∀ i j, PGSIZE * i < sz → PGSIZE * j < sz →
    pteAddr (ent s'.mem d i) = pteAddr (ent s'.mem d j) → i = j
  other : ∀ j < UPAGES, sz ≤ PGSIZE * j → present (ent s'.mem d j) = false
  parent : ∀ p ∈ owned s.mem pd, s'.mem p = s.mem p

/-- A copy is faithful exactly if every page of the parent is writable and accessible. -/
theorem copyuvm_faithful_iff (h : Own L R pd s) (hsz : sz ≤ KERNBASE)
    (hpres : ∀ j, PGSIZE * j < sz → present (ent s.mem pd j) = true)
    (hrun : copyuvm L pd sz s = .ok (some d, s')) : Faithful pd sz d s s' ↔
      ∀ j, PGSIZE * j < sz → writable (ent s.mem pd j) = true ∧ user (ent s.mem pd j) = true := by
  have hc := wp_elim (copyuvm_spec h hsz hpres) hrun d rfl
  have hpage : ∀ j, PGSIZE * j < sz → j < UPAGES ∧ ∃ p ∈ s.free, ent s'.mem d j = upte p ∧
      s'.mem p = s.mem (pteAddr (ent s.mem pd j)) := by
    intro j hj
    refine ⟨?_, hc.page j ((lt_rounds sz j).mpr hj)⟩
    rw [UPAGES_eq]
    simp only [PGSIZE, KERNBASE] at hj hsz
    omega
  constructor
  · intro hf j hj
    obtain ⟨-, p, -, he, -⟩ := hpage j hj
    have hflags := (hf.page j hj).2.2
    rw [he, flags_upte] at hflags
    exact ⟨congrArg (·.2.1) hflags.symm, congrArg (·.2.2) hflags.symm⟩
  · intro hall
    refine ⟨fun j hj => ?_, fun i j hi hj he => ?_, fun j hj hge => ?_, fun p hp => ?_⟩
    · obtain ⟨-, p, hp, he, hm⟩ := hpage j hj
      rw [he, flags_upte, flags, hpres j hj, (hall j hj).1, (hall j hj).2, pteAddr_pte (by decide)]
      exact ⟨hp, hm, rfl⟩
    · -- the frames of `d` are distinct
      obtain ⟨hiu, p, -, hp, -⟩ := hpage i hi
      obtain ⟨hju, q, -, hq, -⟩ := hpage j hj
      have hnd : (frames s'.mem d).Nodup := Multiset.nodup_of_le
        ((Multiset.le_add_left _ _).trans (Multiset.le_cons_self _ _)) hc.own.space.nodup
      rw [hp, hq, pteAddr_pte (by decide), pteAddr_pte (by decide)] at he
      refine gather_inj (p := p) hnd hiu hju (by rw [hp, next_pte (by decide)]) ?_
      rw [hq, next_pte (by decide), he]
    · refine hc.other j hj (Nat.not_lt.mp fun hlt => ?_)
      exact absurd ((lt_rounds sz j).mp hlt) (Nat.not_lt.mpr hge)
    · exact hc.keeps.mem p (Multiset.mem_add.mpr (.inl hp))

/-- With 67 free pages a process of one page is copied. -/
theorem copy_lonePage {perm : Nat} (hperm : perm < 8) :
    Own smallKernel 0 300 (lonePage perm 0 (List.range' 303 67)) ∧
    ent (lonePage perm 0 (List.range' 303 67)).mem 300 0 = PGSIZE * 302 ||| perm ||| PTE_P ∧
    ∃ d s', copyuvm smallKernel 300 PGSIZE (lonePage perm 0 (List.range' 303 67)) = .ok (some d, s') ∧
      Copied smallKernel 0 300 d 1 (lonePage perm 0 (List.range' 303 67)) s' := by
  have hu : 0 < UPAGES := by rw [UPAGES_eq]; decide
  have hp := lonePage_placed hperm hu (f := List.range' 303 67)
    ⟨by decide +kernel, by rw [NFRAME_eq]; decide +kernel⟩
  have hent : ent (lonePage perm 0 (List.range' 303 67)).mem 300 0 = PGSIZE * 302 ||| perm ||| PTE_P := by
    rw [hp.ent 0 (hu.trans_le UPAGES_le), if_pos rfl]
  have hok : ∀ c < 67, (lonePage perm 0 (List.range' 303 67)).fails c = false := fun c hc => by
    rw [Phys.fails, show (lonePage perm 0 (List.range' 303 67)).free = List.range' 303 67 from rfl,
      List.length_range', decide_eq_false (by omega)]
    rfl
  generalize lonePage perm 0 (List.range' 303 67) = s at *
  have hpages : Pages smallKernel (owned s.mem 300 + 0 + s.free) := by
    rw [add_comm (owned s.mem 300)]
    exact hp.own
  have hpres : present (ent s.mem 300 0) = true := by
    rw [hent]
    exact present_pte
  have hwp : wp (fun _ => False) (copyuvm smallKernel 300 PGSIZE) (fun r s' =>
      ∃ d, r = some d ∧ Copied smallKernel 0 300 d 1 s s') s := by
    rw [copyuvm, wp_bind]
    refine setupkvm_spec hpages (fun c _ hc hr _ => ?_) fun d s₁ _ hf => ?_
    · have := hr.fails
      rw [hok c (by omega)] at this
      cases this
    · change wp _ (copyLoop smallKernel 300 d 1 (PGSIZE * 0) >>= _) _ s₁
      rw [wp_bind]
      refine copyLoop_succ hf.copied hu hpres (fun _ hr => ?_) fun s₂ hc => ⟨d, rfl, hc⟩
      rw [hf.took.fails, hf.took.fails, hok _ (by omega), hok _ (by omega)] at hr
      exact absurd hr (by decide)
  obtain ⟨r, s', hrun, d, rfl, hc⟩ := wp_returns hwp
  exact ⟨hp.own, hent, d, s', hrun, hc⟩

/-- A page that is writable and accessible is copied faithfully. -/
theorem copyuvm_faithful_lonePage : ∃ d s',
    copyuvm smallKernel 300 PGSIZE (lonePage 6 0 (List.range' 303 67)) = .ok (some d, s') ∧
      Faithful 300 PGSIZE d (lonePage 6 0 (List.range' 303 67)) s' := by
  obtain ⟨hown, hent, d, s', hrun, -⟩ := copy_lonePage (by decide : 6 < 8)
  have hzero : ∀ j, PGSIZE * j < PGSIZE → j = 0 := fun j hj => by
    simp only [PGSIZE] at hj
    omega
  refine ⟨d, s', hrun, (copyuvm_faithful_iff hown (by decide) (fun j hj => ?_) hrun).mpr fun j hj => ?_⟩
  · rw [hzero j hj, hent]
    exact present_pte
  · rw [hzero j hj, hent]
    exact ⟨by decide, by decide⟩

/-- A page that the parent cannot access is accessible in the copy. -/
theorem copyuvm_guard : ∃ d s',
    copyuvm smallKernel 300 PGSIZE (lonePage 2 0 (List.range' 303 67)) = .ok (some d, s') ∧
      user (ent (lonePage 2 0 (List.range' 303 67)).mem 300 0) = false ∧ user (ent s'.mem d 0) = true := by
  obtain ⟨hown, hent, d, s', hrun, hc⟩ := copy_lonePage (by decide : 2 < 8)
  obtain ⟨p, -, he, -⟩ := hc.page 0 Nat.one_pos
  refine ⟨d, s', hrun, ?_, ?_⟩
  · rw [hent, user_pte]
    rfl
  · rw [he, user_pte]
    rfl

/-! ### Copying bytes into an address space -/

variable {mem mem' : Nat → Block} {va a len : Nat} {bytes : List UInt8}

/-- The user may access address `a`. -/
def Accessible (mem : Nat → Block) (d a : Nat) : Prop :=
  present (ent mem d (a / PGSIZE)) = true ∧ user (ent mem d (a / PGSIZE)) = true

/-- The page of address `a`, and the place in it. -/
def target (mem : Nat → Block) (d a : Nat) : Nat × Nat := (pteAddr (ent mem d (a / PGSIZE)), a % PGSIZE)

/-- Addresses are counted modulo `2 ^ 32`. -/
def addr (va i : Nat) : Nat := (va + i) % 2 ^ 32

/-- A directory that the kernel can use: its tables, and what the user may access, are distinct
pages of `kalloc`. -/
structure Sane (L : Link) (d : Nat) (mem : Nat → Block) : Prop where
  dir : L.kend ≤ d ∧ d < NFRAME
  table : ∀ i < NENTRIES, ∀ t, tab mem d i = some t → L.kend ≤ t ∧ t < NFRAME
  pool : ∀ a < 2 ^ 32, Accessible mem d a → L.kend ≤ (target mem d a).1 ∧ (target mem d a).1 < NFRAME
  data : ∀ a < 2 ^ 32, Accessible mem d a → (target mem d a).1 ∉ d ::ₘ tables mem d
  inj : ∀ a < 2 ^ 32, ∀ b < 2 ^ 32, Accessible mem d a → Accessible mem d b →
    target mem d a = target mem d b → a = b

/-- Wherever the user's pages end in the range, there is a page table. -/
def Walkable (mem : Nat → Block) (d va len : Nat) : Prop :=
  ∀ i < len, (∀ i' < i, Accessible mem d (addr va i')) → ¬ Accessible mem d (addr va i) →
    tab mem d (addr va i / PGSIZE / NENTRIES) ≠ none

/-- `copyout` respects page protection. -/
structure Respects (d va : Nat) (bytes : List UInt8) (mem : Nat → Block) (r : Bool)
    (mem' : Nat → Block) : Prop where
  all : r = true → ∀ i < bytes.length, Accessible mem d (addr va i) ∧
    mem' (target mem d (addr va i)).1 (target mem d (addr va i)).2 = bytes.getD i 0
  fails : (∃ i < bytes.length, ¬ Accessible mem d (addr va i)) → r = false
  only : ∀ q o, mem' q o ≠ mem q o → ∃ i < bytes.length, (q, o) = target mem d (addr va i) ∧
    ∀ i' ≤ i, Accessible mem d (addr va i')

theorem page_lt (h : a < 2 ^ 32) : a / PGSIZE < NPAGES := by
  rw [NPAGES_eq]
  simp only [PGSIZE]
  omega

structure SameDir (d : Nat) (mem mem' : Nat → Block) : Prop where
  tab : ∀ i, tab mem' d i = tab mem d i
  ent : ∀ k < NPAGES, ent mem' d k = ent mem d k

namespace SameDir

variable (h : SameDir d mem mem')

include h

theorem accessible (ha : a < 2 ^ 32) : Accessible mem' d a ↔ Accessible mem d a := by
  rw [Accessible, Accessible, h.ent _ (page_lt ha)]

theorem target (ha : a < 2 ^ 32) : Vm.target mem' d a = Vm.target mem d a := by
  rw [Vm.target, Vm.target, h.ent _ (page_lt ha)]

theorem sane (hs : Sane L d mem) : Sane L d mem' := by
  have htables : tables mem' d = tables mem d := gather_congr fun i _ => h.tab i
  refine ⟨hs.dir, fun i hi t ht => hs.table i hi t ((h.tab i).symm.trans ht), fun a ha hacc => ?_,
    fun a ha hacc => ?_, fun a ha b hb h1 h2 he => ?_⟩
  · rw [h.target ha]
    exact hs.pool a ha ((h.accessible ha).mp hacc)
  · rw [h.target ha, htables]
    exact hs.data a ha ((h.accessible ha).mp hacc)
  · rw [h.target ha, h.target hb] at he
    exact hs.inj a ha b hb ((h.accessible ha).mp h1) ((h.accessible hb).mp h2) he

end SameDir

/-- A store to a page of the user changes nothing about the pages. -/
theorem Sane.store (h : Sane L d mem) (ha : a < 2 ^ 32) (hacc : Accessible mem d a) (b : Block) :
    SameDir d mem (update mem (target mem d a).1 b) := by
  have hold : ∀ p ∈ d ::ₘ tables mem d, update mem (target mem d a).1 b p = mem p := by
    intro p hp
    have hne : p ≠ (target mem d a).1 := fun e => h.data a ha hacc (e ▸ hp)
    exact update_of_ne hne ..
  obtain ⟨-, htab, hent, -⟩ := owned_congr hold
  exact ⟨htab, hent⟩

theorem addr_lt (va i : Nat) : addr va i < 2 ^ 32 := Nat.mod_lt _ (by decide)

theorem addr_zero (h : va < 2 ^ 32) : addr va 0 = va := Nat.mod_eq_of_lt h

theorem addr_page (h : va < 2 ^ 32) (hi : i < PGSIZE - va % PGSIZE) :
    addr va i / PGSIZE = va / PGSIZE ∧ addr va i % PGSIZE = va % PGSIZE + i := by
  simp only [addr, PGSIZE] at *
  omega

theorem addr_next (va i : Nat) : addr va (PGSIZE - va % PGSIZE + i) =
    addr ((pgrounddown va + PGSIZE) % 2 ^ 32) i := by
  simp only [addr, pgrounddown, PGSIZE]
  omega

theorem accessible_page (h : va < 2 ^ 32) (hi : i < PGSIZE - va % PGSIZE) :
    Accessible mem d (addr va i) ↔ Accessible mem d va := by
  rw [Accessible, Accessible, (addr_page h hi).1]

theorem target_page (h : va < 2 ^ 32) (hi : i < PGSIZE - va % PGSIZE) :
    target mem d (addr va i) = ((target mem d va).1, va % PGSIZE + i) := by
  rw [target, (addr_page h hi).1, (addr_page h hi).2]
  rfl

/-- The bytes up to the end of the page, and then the rest. -/
theorem Respects.page {r : Bool} {n : Nat} (h : Sane L d mem) (hva : va < 2 ^ 32)
    (hacc : Accessible mem d va) (hlen : bytes.length ≤ 2 ^ 32) (hn : n = PGSIZE - va % PGSIZE)
    (hm : mem' = update mem (target mem d va).1 (overlay (mem (target mem d va).1)
      (va % PGSIZE) (bytes.take n).length fun i => (bytes.take n).getD i 0))
    {mem'' : Nat → Block}
    (hr : Respects d ((pgrounddown va + PGSIZE) % 2 ^ 32) (bytes.drop n) mem' r mem'') :
    Respects d va bytes mem r mem'' := by
  have hsame : SameDir d mem mem' := by
    rw [hm]
    exact h.store hva hacc _
  have hfirst : ∀ i < n, Accessible mem d (addr va i) := fun i hi =>
    (accessible_page hva (hn ▸ hi)).mpr hacc
  -- the places after the page, seen from the beginning
  have hlater : ∀ i, (Accessible mem' d (addr ((pgrounddown va + PGSIZE) % 2 ^ 32) i) ↔
      Accessible mem d (addr va (n + i))) ∧
      target mem' d (addr ((pgrounddown va + PGSIZE) % 2 ^ 32) i) = target mem d (addr va (n + i)) := by
    intro i
    rw [hn, addr_next, hsame.accessible (addr_lt _ _), hsame.target (addr_lt _ _)]
    exact ⟨Iff.rfl, rfl⟩
  have hdrop : ∀ i, i < (bytes.drop n).length ↔ n + i < bytes.length := fun i => by
    rw [List.length_drop]
    omega
  have hget : ∀ i, (bytes.drop n).getD i 0 = bytes.getD (n + i) 0 := fun i => by
    rw [List.getD_eq_getElem?_getD, List.getElem?_drop, ← List.getD_eq_getElem?_getD]
  refine ⟨fun h1 i hi => ?_, fun ⟨i, hi, hno⟩ => ?_, fun q o hne => ?_⟩
  · rcases Nat.lt_or_ge i n with hlt | hge
    · refine ⟨hfirst i hlt, ?_⟩
      have hkeep : mem'' (target mem d (addr va i)).1 (target mem d (addr va i)).2
          = mem' (target mem d (addr va i)).1 (target mem d (addr va i)).2 := by
        -- another place would be at the same address
        by_contra hne
        obtain ⟨j, hj, he, hj'⟩ := hr.only _ _ hne
        rw [(hlater j).2] at he
        have := h.inj _ (addr_lt _ _) _ (addr_lt _ _) (hfirst i hlt) ((hlater j).1.mp (hj' j le_rfl)) he
        rw [hdrop] at hj
        simp only [addr] at this
        omega
      rw [hkeep, target_page hva (hn ▸ hlt), hm, update_self, overlay_of_mem (by omega) (by
        rw [List.length_take]; omega), List.getD_eq_getElem?_getD, List.getElem?_take,
        if_pos (by omega), Nat.add_sub_cancel_left, ← List.getD_eq_getElem?_getD]
    · obtain ⟨j, rfl⟩ := Nat.exists_eq_add_of_le hge
      have := hr.all h1 j ((hdrop j).mpr hi)
      rwa [(hlater j).1, (hlater j).2, hget] at this
  · rcases Nat.lt_or_ge i n with hlt | hge
    · exact absurd (hfirst i hlt) hno
    · obtain ⟨j, rfl⟩ := Nat.exists_eq_add_of_le hge
      exact hr.fails ⟨j, (hdrop j).mpr hi, fun hacc' => hno ((hlater j).1.mp hacc')⟩
  · by_cases hchanged : mem'' q o = mem' q o
    · rw [hchanged, hm] at hne
      by_cases hq : q = (target mem d va).1
      swap
      · rw [update_of_ne hq] at hne
        exact absurd rfl hne
      rw [hq, update_self] at hne
      by_cases ho : va % PGSIZE ≤ o ∧ o < va % PGSIZE + (bytes.take n).length
      swap
      · rw [overlay_of_not_mem (by omega)] at hne
        exact absurd rfl hne
      rw [List.length_take] at ho
      refine ⟨o - va % PGSIZE, by omega, ?_, fun i' hi' => hfirst i' (by omega)⟩
      rw [target_page hva (by omega), hq, Nat.add_sub_cancel' ho.1]
    · obtain ⟨j, hj, he, hj'⟩ := hr.only q o hchanged
      refine ⟨n + j, (hdrop j).mp hj, he.trans (hlater j).2, fun i' hi' => ?_⟩
      rcases Nat.lt_or_ge i' n with hlt | hge
      · exact hfirst i' hlt
      · obtain ⟨j', rfl⟩ := Nat.exists_eq_add_of_le hge
        exact (hlater j').1.mp (hj' j' (by omega))

theorem Walkable.page {n : Nat} (hsame : SameDir d mem mem') (hva : va < 2 ^ 32)
    (hacc : Accessible mem d va) (hn : n = PGSIZE - va % PGSIZE) :
    Walkable mem' d ((pgrounddown va + PGSIZE) % 2 ^ 32) (len - n) ↔ Walkable mem d va len := by
  have hlater : ∀ i, addr ((pgrounddown va + PGSIZE) % 2 ^ 32) i = addr va (n + i) := fun i => by
    rw [hn, addr_next]
  have hfirst : ∀ i < n, Accessible mem d (addr va i) := fun i hi =>
    (accessible_page hva (hn ▸ hi)).mpr hacc
  constructor
  · intro h i hi hbefore hno
    rcases Nat.lt_or_ge i n with hlt | hge
    · exact absurd (hfirst i hlt) hno
    · obtain ⟨j, rfl⟩ := Nat.exists_eq_add_of_le hge
      have := h j (by omega)
      rw [hlater, hsame.accessible (addr_lt _ _), hsame.tab] at this
      refine this (fun j' hj' => ?_) hno
      rw [hlater, hsame.accessible (addr_lt _ _)]
      exact hbefore _ (by omega)
  · intro h j hj hbefore hno
    rw [hlater, hsame.accessible (addr_lt _ _)] at hno
    rw [hlater, hsame.tab]
    refine h (n + j) (by omega) (fun i hi => ?_) hno
    rcases Nat.lt_or_ge i n with hlt | hge
    · exact hfirst i hlt
    · obtain ⟨j', rfl⟩ := Nat.exists_eq_add_of_le hge
      have := hbefore j' (by omega)
      rwa [hlater, hsame.accessible (addr_lt _ _)] at this

theorem uva2ka_spec {null : M Nat} (h : Sane L d s.mem) (hk : k < NPAGES)
    {Q : Option Nat → Phys → Prop}
    (hnull : tab s.mem d (k / NENTRIES) = none → ∀ Q' : Nat → Phys → Prop, wp E null Q' s)
    (hno : tab s.mem d (k / NENTRIES) ≠ none →
      ¬ (present (ent s.mem d k) = true ∧ user (ent s.mem d k) = true) → Q none s)
    (hyes : present (ent s.mem d k) = true → user (ent s.mem d k) = true →
      Q (some (pteAddr (ent s.mem d k))) s) : wp E (uva2ka L null d (PGSIZE * k)) Q s := by
  rw [uva2ka, wp_bind, wp_lookup h.dir hk]
  cases ht : tab s.mem d (k / NENTRIES) with
  | none =>
    change wp E (null >>= _) Q s
    exact wp_bind.mpr (hnull ht _)
  | some t =>
    have hword : word s.mem t (k % NENTRIES) = ent s.mem d k := (entry_of_some ht).symm
    change wp E (load L t (k % NENTRIES) >>= _) Q s
    rw [wp_bind, wp_load (h.table _ (div_lt_NENTRIES hk) t ht), hword]
    have htab : tab s.mem d (k / NENTRIES) ≠ none := by rw [ht]; nofun
    beta_reduce
    by_cases hp : present (ent s.mem d k) = true
    swap
    · rw [if_pos (by rw [Bool.eq_false_iff.mpr hp]; rfl)]
      exact hno (ht ▸ htab) fun hc => hp hc.1
    rw [if_neg (by rw [hp]; exact Bool.false_ne_true)]
    by_cases hu : user (ent s.mem d k) = true
    swap
    · rw [if_pos (by rw [Bool.eq_false_iff.mpr hu]; rfl)]
      exact hno (ht ▸ htab) fun hc => hu hc.2
    rw [if_neg (by rw [hu]; exact Bool.false_ne_true)]
    exact hyes hp hu

/-- `copyout`. Where the walk ends at a missing page table, it is up to `null`. -/
theorem copyout_spec (null : M Nat) : ∀ m (bytes : List UInt8) va s, bytes.length ≤ m → va < 2 ^ 32 →
    bytes.length ≤ 2 ^ 32 → Sane L d s.mem →
    (¬ Walkable s.mem d va bytes.length → ∀ s' (Q : Nat → Phys → Prop), wp E null Q s') →
    wp E (copyout L null d va bytes) (fun r s' =>
      Walkable s.mem d va bytes.length ∧ Respects d va bytes s.mem r s'.mem) s := by
  intro m
  induction m with
  | zero =>
    intro bytes va s hm _ _ _ _
    obtain rfl := List.length_eq_zero_iff.mp (Nat.le_zero.mp hm)
    rw [copyout]
    exact ⟨fun i hi => absurd hi (Nat.not_lt_zero i), fun _ i hi => absurd hi (Nat.not_lt_zero i),
      fun h => absurd h.choose_spec.1 (Nat.not_lt_zero _), fun _ _ hne => absurd rfl hne⟩
  | succ m ih =>
    intro bytes va s hm hva hlen h hnull
    cases bytes with
    | nil =>
      rw [copyout]
      exact ⟨fun i hi => absurd hi (Nat.not_lt_zero i), fun _ i hi => absurd hi (Nat.not_lt_zero i),
        fun h => absurd h.choose_spec.1 (Nat.not_lt_zero _), fun _ _ hne => absurd rfl hne⟩
    | cons b bs =>
      have hdown : pgrounddown va = PGSIZE * (va / PGSIZE) := Nat.mul_comm ..
      have hoff : va - pgrounddown va = va % PGSIZE := by
        simp only [pgrounddown, PGSIZE]
        omega
      rw [copyout, wp_bind]
      dsimp only
      rw [hoff]
      nth_rewrite 1 [hdown]
      refine uva2ka_spec h (page_lt hva) (fun ht Q' => hnull (fun hw => ?_) s Q') (fun ht hacc => ?_)
        fun hp hu => ?_
      · -- the first page has no table
        have hno : ¬ Accessible s.mem d va := fun hacc => by
          have := hacc.1
          rw [ent, entry_of_none ht] at this
          cases this
        have := hw 0 (Nat.succ_pos _) (fun i hi => absurd hi (Nat.not_lt_zero i))
        rw [addr_zero hva] at this
        exact this hno ht
      · -- it has one, but the user may not access the page
        refine ⟨fun i hi hbefore hno => ?_, by rintro ⟨⟩, fun _ => rfl,
          fun _ _ hne => absurd rfl hne⟩
        rcases Nat.eq_zero_or_pos i with rfl | hpos
        · rw [addr_zero hva]
          exact ht
        · have := hbefore 0 hpos
          rw [addr_zero hva] at this
          exact absurd this hacc
      · have hacc : Accessible s.mem d va := ⟨hp, hu⟩
        have hn : 0 < PGSIZE - va % PGSIZE := Nat.sub_pos_of_lt (Nat.mod_lt _ (by decide))
        generalize hneq : PGSIZE - va % PGSIZE = n at *
        have hne : ¬ (b :: bs).take n = [] := by
          rw [List.take_eq_nil_iff]
          simp only [Nat.ne_of_gt hn, reduceCtorEq, or_self, not_false_eq_true]
        change wp E (poke L _ (target s.mem d va).1 _ _ >>= _) _ s
        rw [wp_bind, poke, if_neg hne, wp_bind, wp_frame (h.pool va hva hacc), wp_modify]
        have hsame := h.store hva hacc (overlay (s.mem (target s.mem d va).1) (va % PGSIZE)
          ((b :: bs).take n).length fun i => ((b :: bs).take n).getD i 0)
        have hwalk : Walkable _ d _ ((b :: bs).length - n) ↔ _ :=
          Walkable.page hsame hva hacc hneq.symm
        rw [← List.length_drop] at hwalk
        have hl : ((b :: bs).drop n).length ≤ m := by
          rw [List.length_drop]
          omega
        refine wp_mono (ih ((b :: bs).drop n) _ _ hl (Nat.mod_lt _ (by decide)) ?_ (hsame.sane h) ?_)
          fun r s' hr => ⟨hwalk.mp hr.1, hr.2.page h hva hacc hlen hneq.symm rfl⟩
        · exact (List.length_drop ▸ Nat.sub_le _ _).trans hlen
        · exact fun hw => hnull fun hw' => hw (hwalk.mpr hw')

/-- A directory that owns its pages and keeps the user out of the kernel's half. -/
theorem Own.sane (h : Own L R d s)
    (hkern : ∀ k, UPAGES ≤ k → k < NPAGES → present (ent s.mem d k) = true → user (ent s.mem d k) = false) :
    Sane L d s.mem := by
  have hframe : ∀ a < 2 ^ 32, Accessible s.mem d a →
      a / PGSIZE < UPAGES ∧ next (ent s.mem d (a / PGSIZE)) = some (target s.mem d a).1 := by
    intro a ha hacc
    refine ⟨Nat.lt_of_not_le fun hle => ?_, next_of_present hacc.1⟩
    have := hacc.2
    rw [hkern _ hle (page_lt ha) hacc.1] at this
    cases this
  have hmem : ∀ a < 2 ^ 32, Accessible s.mem d a → (target s.mem d a).1 ∈ frames s.mem d :=
    fun a ha hacc => mem_gather.mpr ⟨_, hframe a ha hacc⟩
  refine ⟨h.dir_pool, fun i hi t ht => h.table_pool (mem_nodes hi ht),
    fun a ha hacc => h.frame_pool (hmem a ha hacc), fun a ha hacc => h.frame_ne (hmem a ha hacc),
    fun a ha b hb h1 h2 he => ?_⟩
  have hnd : (frames s.mem d).Nodup :=
    Multiset.nodup_of_le ((Multiset.le_add_left _ _).trans (Multiset.le_cons_self _ _)) h.space.nodup
  obtain ⟨hau, hna⟩ := hframe a ha h1
  obtain ⟨hbu, hnb⟩ := hframe b hb h2
  have hpage : a / PGSIZE = b / PGSIZE := gather_inj hnd hau hbu hna (by rw [hnb, he])
  have hoff : a % PGSIZE = b % PGSIZE := congrArg Prod.snd he
  simp only [PGSIZE] at hpage hoff
  omega

/-- `copyout` respects page protection, whatever is at address 0, exactly if the user's pages in
the range do not end at a missing page table. -/
theorem copyout_respects_iff (h : Sane L d s.mem) (hva : va < 2 ^ 32) (hlen : bytes.length < 2 ^ 32) :
    (∀ null, ∃ r s', copyout L null d va bytes s = .ok (r, s') ∧
        Respects d va bytes s.mem r s'.mem) ↔ Walkable s.mem d va bytes.length := by
  constructor
  · intro hall
    -- reading through the null pointer is a trap
    obtain ⟨r, s', hrun, -⟩ := hall (throw .trap)
    by_contra hw
    have := wp_elim (copyout_spec (E := fun _ => True) (throw .trap) _ bytes va s le_rfl hva
      hlen.le h fun _ _ _ => trivial) hrun
    exact hw this.1
  · intro hw null
    obtain ⟨r, s', hrun, -, hr⟩ := wp_returns (copyout_spec (E := fun _ => False) null _ bytes
      va s le_rfl hva hlen.le h fun hno => absurd hw hno)
    exact ⟨r, s', hrun, hr⟩

theorem sane_lonePage : Sane smallKernel 300 (lonePage 6 0 []).mem ∧
    Accessible (lonePage 6 0 []).mem 300 0 := by
  have hp := lonePage_placed (by decide : 6 < 8) lonePage_first.1 pages_alone
  refine ⟨hp.own.sane fun k hu hk hpres => ?_, ?_⟩
  · have := lonePage_first.1
    rw [hp.ent k hk, if_neg (by omega), (owned_zero rfl).2.2] at hpres
    cases hpres
  · rw [Accessible, Nat.zero_div, hp.ent 0 (lonePage_first.1.trans_le UPAGES_le), if_pos rfl]
    exact ⟨present_pte, user_pte⟩

/-- A byte in a page of the user. -/
theorem copyout_respects_lonePage : ∃ r s',
    copyout smallKernel (throw .trap) 300 0 [7] (lonePage 6 0 []) = .ok (r, s') ∧
      Respects 300 0 [7] (lonePage 6 0 []).mem r s'.mem := by
  refine (copyout_respects_iff sane_lonePage.1 (by decide) (by decide)).mpr (fun i hi _ hno => ?_) _
  obtain rfl : i = 0 := by
    simp only [List.length_singleton] at hi
    omega
  exact absurd sane_lonePage.2 hno

/-- Without any page the kernel, in the same address space, does not return. -/
theorem copyout_null : copyout smallKernel (nullWord 300) 300 0 [7] (.blank [] fun _ => false) =
    .error .trap := by
  have hown : Own smallKernel 0 300 (.blank [] fun _ => false) :=
    .blank ⟨by decide, by rw [NFRAME_eq]; decide⟩
  have hsane := hown.sane fun k _ _ hpres => by
    rw [(owned_zero rfl).2.2] at hpres
    cases hpres
  have hwp : wp (fun e => e = .trap) (copyout smallKernel (nullWord 300) 300 0 [7]) (fun _ _ => False)
      (.blank [] fun _ => false) := by
    rw [copyout, wp_bind]
    refine uva2ka_spec (k := 0) hsane (page_lt (by decide : 0 < 2 ^ 32)) (fun _ Q' => ?_)
      (fun ht _ => absurd ((owned_zero rfl).2.1 _) ht) fun hp _ => ?_
    · rw [nullWord, wp_bind, wp_get]
      rfl
    · rw [(owned_zero rfl).2.2] at hp
      cases hp
  unfold wp at hwp
  split at hwp
  · exact hwp.elim
  · next e he => rw [he, hwp]

end Vm

end Xv6
