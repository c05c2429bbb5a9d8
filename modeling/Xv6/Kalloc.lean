import Xv6.VmDealloc
import Xv6.Lib.Linked

/-!
# The page allocator

`kalloc.c`. The free pages are linked through their first words, which works because a page is in use
or in the list, and never both. `Step` is what the rest of the kernel may do: take pages, store into
those it has, and give them back. The `memset` in `kfree`, before the lock is taken, is such a store.
-/

open Bytes Linked Function Relation

namespace Xv6

namespace Kalloc

open Vm (Link PHYSTOP NFRAME pgroundup junk)

/-- `p2v` of the beginning of page `p`. -/
def addr (p : Nat) : Nat := KERNBASE + PGSIZE * p

/-- The pages of memory by their addresses, and `kmem.freelist`. -/
structure Kmem where
  mem : Nat → Block
  freelist : Nat

variable (L : Link)

/-- `none` is a panic. Above `end` the first page is page `L.kend`. -/
def kfree (v : Nat) (k : Kmem) : Option Kmem :=
  if v % PGSIZE ≠ 0 ∨ v < addr L.kend ∨ PHYSTOP ≤ v - KERNBASE then none
  else some ⟨update k.mem v (putLE junk 0 4 k.freelist), v⟩

def kalloc (k : Kmem) : Nat × Kmem :=
  let r := k.freelist
  if r ≠ 0 then (r, { k with freelist := getLE (k.mem r) 0 4 }) else (r, k)

/-- The loop of `freerange`, with the number of its rounds. -/
def freeLoop : Nat → Nat → Kmem → Option Kmem
  | 0, _, k => some k
  | n + 1, p, k => (kfree L p k).bind (freeLoop n (p + PGSIZE))

def freerange (vstart vend : Nat) : Kmem → Option Kmem :=
  let p := pgroundup vstart
  freeLoop L ((vend - p) / PGSIZE) p

def kinit1 : Kmem → Option Kmem := freerange L (addr L.kend) (KERNBASE + 4 * 1024 * 1024)

def kinit2 : Kmem → Option Kmem := freerange L (KERNBASE + 4 * 1024 * 1024) (KERNBASE + PHYSTOP)

/-- The allocator, and the pages that are in use. -/
structure State where
  kmem : Kmem
  used : List Nat

inductive Step : State → State → Prop
  | kalloc {s} : (kalloc s.kmem).1 ≠ 0 → Step s ⟨(kalloc s.kmem).2, (kalloc s.kmem).1 :: s.used⟩
  | kfree {s v k} : v ∈ s.used → kfree L v s.kmem = some k → Step s ⟨k, s.used.erase v⟩
  | store {s v} (b : Block) : v ∈ s.used → Step s { s with kmem.mem := update s.kmem.mem v b }

/-! ### The free list -/

variable {L} {s s' : State} {vs : List Nat} {v w hi n : Nat}

/-- The addresses of the pages from the end of the kernel up to page `hi`. -/
def pages (L : Link) (hi : Nat) : List Nat := (List.range' L.kend (hi - L.kend)).map addr

/-- A pointer that may be null. -/
def ptr (v : Nat) : Option Nat := if v = 0 then none else some v

/-- `r->next` -/
def next (mem : Nat → Block) (v : Nat) : Option Nat := ptr (getLE (mem v) 0 4)

theorem ptr_eq_none : ptr v = none ↔ v = 0 := by
  unfold ptr
  split <;> simp_all

theorem ptr_eq_some : ptr v = some w ↔ v = w ∧ v ≠ 0 := by
  unfold ptr
  split <;> simp_all

theorem next_update {mem : Nat → Block} {b : Block} :
    next (update mem v b) = update (next mem) v (ptr (getLE b 0 4)) := by
  funext w
  by_cases h : w = v
  · rw [h, next, update_self, update_self]
  · rw [next, update_of_ne h, update_of_ne h, next]

theorem pages_succ (h : L.kend ≤ hi) : pages L (hi + 1) = pages L hi ++ [addr hi] := by
  rw [pages, Nat.succ_sub h, List.range'_concat, List.map_append, pages]
  simp [h]

theorem nodup_pages : (pages L hi).Nodup := by
  refine List.Nodup.map (fun p q h => ?_) List.nodup_range'
  simp only [addr, PGSIZE] at h
  omega

theorem bounds (h : v ∈ pages L hi) (hhi : hi ≤ NFRAME) :
    v % PGSIZE = 0 ∧ addr L.kend ≤ v ∧ v - KERNBASE < PHYSTOP ∧ v < 256 ^ 4 ∧ v ≠ 0 := by
  obtain ⟨p, hp, rfl⟩ := List.mem_map.mp h
  rw [List.mem_range'_1] at hp
  rw [Vm.NFRAME_eq] at hhi
  simp only [addr, PGSIZE, KERNBASE, PHYSTOP]
  omega

/-- The pages up to `hi` are in use or in the free list, each once. -/
structure Inv (L : Link) (hi : Nat) (s : State) (vs : List Nat) : Prop where
  chain : Chain (next s.kmem.mem) (ptr s.kmem.freelist) vs
  perm : (s.used ++ vs).Perm (pages L hi)
  le : hi ≤ NFRAME

namespace Inv

variable (h : Inv L hi s vs)

include h

theorem notMem (hv : v ∈ s.used) : v ∉ vs :=
  (List.nodup_append'.mp (h.perm.nodup_iff.mpr nodup_pages)).2.2 hv

theorem subperm : s.used.Subperm (pages L hi) :=
  (List.sublist_append_left _ _).subperm.trans h.perm.subperm

theorem freelist_lt : s.kmem.freelist < 256 ^ 4 := by
  cases vs with
  | nil =>
    rw [ptr_eq_none.mp (Chain.nil_iff.mp h.chain)]
    decide
  | cons v vs =>
    rw [(ptr_eq_some.mp (Chain.cons_iff.mp h.chain).1).1]
    exact (bounds (h.perm.subset (by simp)) h.le).2.2.2.1

/-- `kalloc` fails if the list is empty, and otherwise takes its first page. -/
theorem kalloc_eq : (vs = [] ∧ (kalloc s.kmem).1 = 0) ∨ ((kalloc s.kmem).1 ≠ 0 ∧
    vs = (kalloc s.kmem).1 :: vs.tail ∧
    Inv L hi ⟨(kalloc s.kmem).2, (kalloc s.kmem).1 :: s.used⟩ vs.tail) := by
  cases vs with
  | nil =>
    have h0 := ptr_eq_none.mp (Chain.nil_iff.mp h.chain)
    rw [kalloc, if_neg (not_not.mpr h0)]
    exact .inl ⟨rfl, h0⟩
  | cons v vs =>
    obtain ⟨hv, hvs⟩ := Chain.cons_iff.mp h.chain
    obtain ⟨rfl, h0⟩ := ptr_eq_some.mp hv
    rw [kalloc, if_pos h0]
    exact .inr ⟨h0, rfl, hvs, List.perm_middle.symm.trans h.perm, h.le⟩

/-- `kfree` puts a page that is in use at the front. -/
theorem kfree_eq (hv : v ∈ s.used) : ∃ k, kfree L v s.kmem = some k ∧
    Inv L hi ⟨k, s.used.erase v⟩ (v :: vs) ∧ ∀ w ≠ v, k.mem w = s.kmem.mem w := by
  obtain ⟨h1, h2, h3, -, h0⟩ := bounds (h.subperm.subset hv) h.le
  have hperm : (s.used.erase v ++ v :: vs).Perm (s.used ++ vs) :=
    List.perm_middle.trans ((List.perm_cons_erase hv).symm.append_right vs)
  have hchain : Chain (next (update s.kmem.mem v (putLE junk 0 4 s.kmem.freelist))) (ptr v) (v :: vs) := by
    rw [next_update, getLE_putLE_of_lt h.freelist_lt]
    refine Chain.cons_iff.mpr ⟨ptr_eq_some.mpr ⟨rfl, h0⟩, ?_⟩
    rw [update_self]
    exact h.chain.update_of_notMem (h.notMem hv)
  exact ⟨_, if_neg (by omega), ⟨hchain, hperm.trans h.perm, h.le⟩, fun w hw => update_of_ne hw _ _⟩

theorem step (hs : Step L s s') : ∃ vs', Inv L hi s' vs' := by
  cases hs with
  | kalloc hne =>
    rcases h.kalloc_eq with ⟨-, h0⟩ | ⟨-, -, h'⟩
    · exact absurd h0 hne
    · exact ⟨_, h'⟩
  | kfree hv hk =>
    obtain ⟨k', hk', h', -⟩ := h.kfree_eq hv
    obtain rfl := Option.some.inj (hk.symm.trans hk')
    exact ⟨_, h'⟩
  | store b hv =>
    refine ⟨vs, { h with chain := ?_ }⟩
    rw [next_update]
    exact h.chain.update_of_notMem (h.notMem hv)

theorem run (hs : ReflTransGen (Step L) s s') : ∃ vs', Inv L hi s' vs' := by
  induction hs with
  | refl => exact ⟨vs, h⟩
  | tail _ hstep ih =>
    obtain ⟨vs', h'⟩ := ih
    exact h'.step hstep

end Inv

theorem freeLoop_eq : ∀ n hi s vs, Inv L hi s vs → L.kend ≤ hi → hi + n ≤ NFRAME →
    ∃ k vs', freeLoop L n (addr hi) s.kmem = some k ∧ Inv L (hi + n) ⟨k, s.used⟩ vs' := by
  intro n
  induction n with
  | zero => exact fun hi s vs h _ _ => ⟨s.kmem, vs, rfl, h⟩
  | succ n ih =>
    intro hi s vs h hk hn
    -- a new page is taken for one that is in use
    have hnew : Inv L (hi + 1) ⟨s.kmem, addr hi :: s.used⟩ vs := by
      refine ⟨h.chain, ?_, by omega⟩
      rw [pages_succ hk]
      exact (h.perm.cons _).trans (List.perm_append_singleton _ _).symm
    obtain ⟨k, hkf, h', -⟩ := hnew.kfree_eq List.mem_cons_self
    rw [List.erase_cons_head] at h'
    have hp : addr hi + PGSIZE = addr (hi + 1) := by simp only [addr, PGSIZE]; omega
    rw [freeLoop, hkf, Option.bind_some, hp, show hi + (n + 1) = hi + 1 + n by omega]
    exact ih (hi + 1) _ _ h' (by omega) (by omega)

theorem freerange_eq (h : Inv L hi s vs) (hk : L.kend ≤ hi) (hlo : hi ≤ n) (hn : n ≤ NFRAME) :
    ∃ k vs', freerange L (addr hi) (addr n) s.kmem = some k ∧ Inv L n ⟨k, s.used⟩ vs' := by
  have hup : pgroundup (addr hi) = addr hi := by
    rw [Vm.NFRAME_eq] at hn
    simp only [pgroundup, addr, PGSIZE, KERNBASE]
    omega
  have hrounds : (addr n - addr hi) / PGSIZE = n - hi := by
    simp only [addr, PGSIZE]
    omega
  have hloop := freeLoop_eq (n - hi) hi s vs h hk (by omega)
  rwa [Nat.add_sub_cancel' hlo, ← hrounds, ← hup] at hloop

/-! ### What the callers rely on -/

/-- The pages in use are distinct; `kalloc` adds one, unless all are in use; `kfree` takes any of
them, and touches no other. -/
structure Sound (L : Link) (hi : Nat) (s : State) : Prop where
  used : s.used.Subperm (pages L hi)
  kalloc : if (kalloc s.kmem).1 = 0 then s.used.Perm (pages L hi)
    else ((kalloc s.kmem).1 :: s.used).Subperm (pages L hi)
  kfree : ∀ v ∈ s.used, ∃ k, kfree L v s.kmem = some k ∧ ∀ w ≠ v, k.mem w = s.kmem.mem w

theorem Inv.sound (h : Inv L hi s vs) : Sound L hi s := by
  refine ⟨h.subperm, ?_, fun v hv => ?_⟩
  · rcases h.kalloc_eq with ⟨rfl, h0⟩ | ⟨h0, -, h'⟩
    · rw [if_pos h0, ← List.append_nil s.used]
      exact h.perm
    · rw [if_neg h0]
      exact h'.subperm
  · obtain ⟨k, hk, -, hother⟩ := h.kfree_eq hv
    exact ⟨k, hk, hother⟩

/-- **The page allocator.** If the kernel ends below 4 MB then `kinit1` and `kinit2` return, whatever
is done with the first pages in between, and in every state after that `kalloc` and `kfree` work for
all pages up to `PHYSTOP`. -/
theorem pages_once (hk : L.kend ≤ 1024) (mem : Nat → Block) : ∃ k₁, kinit1 L ⟨mem, 0⟩ = some k₁ ∧
    ∀ s₁, ReflTransGen (Step L) ⟨k₁, []⟩ s₁ → Sound L 1024 s₁ ∧ ∃ k₂, kinit2 L s₁.kmem = some k₂ ∧
      ∀ s, ReflTransGen (Step L) ⟨k₂, s₁.used⟩ s → Sound L NFRAME s := by
  have h₀ : Inv L L.kend ⟨⟨mem, 0⟩, []⟩ [] := by
    refine ⟨Chain.nil_iff.mpr rfl, ?_, L.kend_le⟩
    rw [pages, Nat.sub_self]
    rfl
  have hn : 1024 ≤ NFRAME := by rw [Vm.NFRAME_eq]; decide
  have htop : KERNBASE + PHYSTOP = addr NFRAME := by rw [Vm.NFRAME_eq]; rfl
  obtain ⟨k₁, vs₁, hrun₁, h₁⟩ := freerange_eq h₀ le_rfl hk hn
  refine ⟨k₁, hrun₁, fun s₁ hs₁ => ?_⟩
  obtain ⟨vs, h⟩ := h₁.run hs₁
  obtain ⟨k₂, vs₂, hrun₂, h₂⟩ := freerange_eq h hk hn le_rfl
  rw [kinit2, htop]
  refine ⟨h.sound, k₂, hrun₂, fun s hs => ?_⟩
  obtain ⟨vs', h'⟩ := h₂.run hs
  exact h'.sound

theorem pages_once_smallKernel : ∃ k₁, kinit1 Vm.smallKernel ⟨fun _ => zero, 0⟩ = some k₁ ∧
    Sound Vm.smallKernel 1024 ⟨k₁, []⟩ := by
  obtain ⟨k₁, hrun, h⟩ := pages_once (L := Vm.smallKernel) (by decide) fun _ => zero
  exact ⟨k₁, hrun, (h _ .refl).1⟩

end Kalloc

end Xv6
