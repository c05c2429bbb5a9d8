import Xv6.Lib.Linked
import Xv6.Lib.Tiling

/-!
# `malloc` and `free`

`umalloc.c`. The heap is what `sbrk` has given, cut into blocks that begin with a header. The free
blocks are a circular list in the order of their addresses, to which `base`, a header of size 0 below
the heap, belongs. `malloc` cuts blocks off the ends of free ones.

What the heap stands for is a list of blocks that tiles the memory (`Rep`). `free` and `malloc` end,
and keep that (`Rep.free`, `Rep.malloc`), whatever the program writes into its blocks.
-/

open Function List

namespace Xv6

namespace Umalloc

open Tiling Linked

/-- `union header`. -/
structure Header where
  ptr : Nat
  size : Nat
  deriving Repr, DecidableEq

/-- The memory in cells of the size of a header, `freep` (0 is the null pointer) and the break.
`grants i` says whether `sbrk` succeeds when it is called for the `i`-th time; `calls`, `refused` and
`backward` count the calls, those that failed and those whose increment was not positive. -/
structure Heap where
  mem : Nat → Header
  freep : Nat
  brk : Nat
  grants : Nat → Bool
  calls : Nat
  refused : Nat
  backward : Nat

namespace Heap

/-- `p->s.ptr`. -/
def ptr (s : Heap) (p : Nat) : Nat := (s.mem p).ptr

/-- `p->s.size`. -/
def size (s : Heap) (p : Nat) : Nat := (s.mem p).size

def setPtr (s : Heap) (p q : Nat) : Heap :=
  { s with mem := update s.mem p { s.mem p with ptr := q } }

def setSize (s : Heap) (p n : Nat) : Heap :=
  { s with mem := update s.mem p { s.mem p with size := n } }

end Heap

/-- The loop of `free`, for `k` rounds. -/
def freeLoop (s : Heap) (bp : Nat) : Nat → Nat → Option Nat
  | 0, _ => none
  | k + 1, p =>
    if bp > p ∧ bp < s.ptr p then some p
    else if p ≥ s.ptr p ∧ (bp > p ∨ bp < s.ptr p) then some p
    else freeLoop s bp k (s.ptr p)

/-- The block `bp` is joined with the free block behind it, or linked to it. -/
def joinUp (s : Heap) (bp p : Nat) : Heap :=
  if bp + 8 * s.size bp = s.ptr p then
    let s := s.setSize bp (s.size bp + s.size (s.ptr p))
    s.setPtr bp (s.ptr (s.ptr p))
  else s.setPtr bp (s.ptr p)

/-- The free block `p` before `bp` is joined with it, or linked to it. -/
def joinDown (s : Heap) (bp p : Nat) : Heap :=
  if p + 8 * s.size p = bp then
    let s := s.setSize p (s.size p + s.size bp)
    s.setPtr p (s.ptr bp)
  else s.setPtr p bp

/-- `free`. -/
def free (k : Nat) (s : Heap) (ap : Nat) : Option Heap :=
  let bp := ap - 8
  (freeLoop s bp k s.freep).map fun p => { joinDown (joinUp s bp p) bp p with freep := p }

/-- The conversion of a `uint` to an `int`. -/
def toInt (x : Nat) : Int := if x < 2 ^ 31 then x else x - 0x100000000

/-- `sbrk(n)`: the old break. The address space ends at `2 ^ 32`. With an `n` that is not positive
it shrinks the memory as `growproc` does: a break below 0 wraps around and changes nothing, and the
break 0 counts as a failure. -/
def sbrk (s : Heap) (n : Int) : Option Nat × Heap :=
  if 0 < n then
    if s.grants s.calls ∧ s.brk + n.toNat < 2 ^ 32 then
      (some s.brk, { s with brk := s.brk + n.toNat, calls := s.calls + 1 })
    else (none, { s with calls := s.calls + 1, refused := s.refused + 1 })
  else
    let s' := { s with calls := s.calls + 1, backward := s.backward + 1 }
    if n < 0 ∧ s.brk + n = 0 then (none, { s' with refused := s.refused + 1 })
    else if 0 ≤ s.brk + n then (some s.brk, { s' with brk := (s.brk + n).toNat })
    else (some s.brk, s')

/-- The number of cells that `morecore` asks for. -/
def morecoreUnits (nu : Nat) : Nat := if nu < 4096 then 4096 else nu

/-- `morecore`: a null pointer, or `freep`. -/
def morecore (k : Nat) (s : Heap) (nu : Nat) : Option (Nat × Heap) :=
  let nu := morecoreUnits nu
  match sbrk s (toInt (nu * 8 % 2 ^ 32)) with
  | (none, s) => some (0, s)
  | (some hp, s) => (free k (s.setSize hp nu) (hp + 8)).map fun s => (s.freep, s)

/-- `malloc` has found the block `p`, behind `prevp` in the list. -/
def take (s : Heap) (prevp p nunits : Nat) : Nat × Heap :=
  if s.size p = nunits then (p + 8, { s.setPtr prevp (s.ptr p) with freep := prevp })
  else
    let s := s.setSize p (s.size p - nunits)
    let p := p + 8 * s.size p
    let s := s.setSize p nunits
    (p + 8, { s with freep := prevp })

/-- The loop of `malloc`, for `k` rounds. -/
def mallocLoop (fuel nunits : Nat) : Nat → Heap → Nat → Nat → Option (Nat × Heap)
  | 0, _, _, _ => none
  | k + 1, s, prevp, p =>
    if s.size p ≥ nunits then some (take s prevp p nunits)
    else if p = s.freep then
      (morecore fuel s nunits).bind fun r =>
        if r.1 = 0 then some (0, r.2) else mallocLoop fuel nunits k r.2 r.1 (r.2.ptr r.1)
    else mallocLoop fuel nunits k s p (s.ptr p)

/-- The number of cells for `nbytes` bytes and a header. -/
def nunits (nbytes : Nat) : Nat := (nbytes + 8 - 1) % 2 ^ 32 / 8 + 1

/-- The list before the first call of `malloc`. -/
def firstInit (base : Nat) (s : Heap) : Heap :=
  if s.freep = 0 then { s with mem := update s.mem base ⟨base, 0⟩, freep := base } else s

/-- `malloc`, where `base` is the address of the variable of this name. -/
def malloc (base k : Nat) (s : Heap) (nbytes : Nat) : Option (Nat × Heap) :=
  let s := firstInit base s
  mallocLoop k (nunits nbytes) k s s.freep (s.ptr s.freep)

/-! ### What a heap stands for -/

/-- The heap is cut into the blocks `bs`, from `lo` to the break. -/
structure Rep (base lo : Nat) (s : Heap) (bs : List Block) : Prop where
  tiles : Tiles 8 lo bs s.brk
  merged : Merged bs
  size : ∀ b ∈ bs, s.size b.addr = b.size
  base_size : s.size base = 0
  /-- The circular list: `base` and the free blocks. -/
  ring : Run s.ptr base (base :: frees bs) base
  freep : s.freep ∈ base :: frees bs

variable {base lo k p x n : Nat} {s s' : Heap} {b c : Block} {bs l r : List Block}

@[simp] theorem setPtr_ptr_self (q : Nat) : (s.setPtr p q).ptr p = q := by
  simp [Heap.setPtr, Heap.ptr]

theorem setPtr_ptr_of_ne (h : x ≠ p) (q : Nat) : (s.setPtr p q).ptr x = s.ptr x := by
  simp [Heap.setPtr, Heap.ptr, update_of_ne h]

@[simp] theorem setPtr_size (q : Nat) : (s.setPtr p q).size x = s.size x := by
  by_cases h : x = p
  · subst h
    simp [Heap.setPtr, Heap.size]
  · simp [Heap.setPtr, Heap.size, update_of_ne h]

@[simp] theorem setSize_ptr (q : Nat) : (s.setSize p q).ptr x = s.ptr x := by
  by_cases h : x = p
  · subst h
    simp [Heap.setSize, Heap.ptr]
  · simp [Heap.setSize, Heap.ptr, update_of_ne h]

@[simp] theorem setSize_size_self (q : Nat) : (s.setSize p q).size p = q := by
  simp [Heap.setSize, Heap.size]

theorem setSize_size_of_ne (h : x ≠ p) (q : Nat) : (s.setSize p q).size x = s.size x := by
  simp [Heap.setSize, Heap.size, update_of_ne h]

namespace Rep

theorem sorted (h : Rep base lo s bs) (hbase : base < lo) :
    (base :: frees bs).Pairwise (· < ·) :=
  pairwise_cons.mpr ⟨fun x hx => hbase.trans_le (h.tiles.frees_bounds hx).1,
    h.tiles.frees_sorted (by decide)⟩

theorem nodup (h : Rep base lo s bs) (hbase : base < lo) : (base :: frees bs).Nodup :=
  (h.sorted hbase).imp Nat.ne_of_lt

end Rep

/-! ### The place of a block in the list -/

/-- Where the loop of `free` stops. -/
def Stops (s : Heap) (bp p : Nat) : Prop :=
  (bp > p ∧ bp < s.ptr p) ∨ (p ≥ s.ptr p ∧ (bp > p ∨ bp < s.ptr p))

instance (s : Heap) (bp : Nat) : DecidablePred (Stops s bp) := fun p => by
  unfold Stops
  infer_instance

theorem freeLoop_eq (s : Heap) (bp : Nat) : ∀ k p, freeLoop s bp k p = walk s.ptr (Stops s bp) k p
  | 0, _ => rfl
  | k + 1, p => by
    rw [freeLoop, walk, freeLoop_eq s bp k]
    by_cases h1 : bp > p ∧ bp < s.ptr p
    · rw [if_pos h1, if_pos (.inl h1)]
    by_cases h2 : p ≥ s.ptr p ∧ (bp > p ∨ bp < s.ptr p)
    · rw [if_neg h1, if_pos h2, if_pos (.inr h2)]
    · rw [if_neg h1, if_neg h2, if_neg fun h => h.elim h1 h2]

/-- The node behind the node `x` of a sorted ring is greater, unless `x` is the last one. -/
theorem next_cases {next : Nat → Nat} {a m : List Nat} {z c : Nat}
    (h : Run next z (a ++ x :: m) c) (hs : (a ++ x :: m).Pairwise (· < ·)) :
    (m = [] ∧ next x = c) ∨ (next x ∈ m ∧ x < next x) := by
  have hrest := h.split.2
  have hlt := (pairwise_cons.mp (pairwise_append.mp hs).2.1).1
  cases m with
  | nil => exact .inl ⟨rfl, hrest⟩
  | cons y m =>
    have hy : next x = y := hrest.1
    exact .inr ⟨hy ▸ mem_cons_self, hy ▸ hlt y mem_cons_self⟩

/-- The loop of `free` stops at the last node below the block, and nowhere else. -/
theorem stops_iff (hbase : base < lo) (h : Rep base lo s (l ++ b :: r)) (hb : b.live = true)
    {pre : List Nat} (hp : base :: frees l = pre ++ [p]) :
    ∀ x ∈ base :: frees (l ++ b :: r), Stops s b.addr x ↔ x = p := by
  have hsorted := h.sorted hbase
  have hring := h.ring
  obtain ⟨ht1, -, ht2⟩ := h.tiles.split
  have hpos : 0 < 8 * b.size := Nat.mul_pos (by decide) h.tiles.split.2.1
  rw [frees_append, frees_cons_live hb, ← cons_append, hp] at hsorted hring ⊢
  -- the nodes before `b` and those behind it
  have hlow : ∀ y ∈ pre ++ [p], y < b.addr := fun y hy => by
    rw [← hp] at hy
    rcases mem_cons.mp hy with rfl | hy
    · exact hbase.trans_le ht1.le
    · exact ht1.frees_lt (by decide) hy
  have hhigh : ∀ y ∈ frees r, b.addr < y := fun y hy =>
    (Nat.lt_add_of_pos_right hpos).trans_le (ht2.frees_bounds hy).1
  have hbaseb : base < b.addr := hbase.trans_le ht1.le
  intro x hx
  have hx' : x ∈ pre ∨ x = p ∨ x ∈ frees r := by simpa [or_assoc] using hx
  rcases hx' with hx | rfl | hx
  · -- a node before `p`: the next one is below the block, too
    have hxp : x < p := by
      have := pairwise_append.mp (pairwise_append.mp hsorted).1
      exact this.2.2 x hx p (mem_singleton_self p)
    obtain ⟨a, m, rfl⟩ := append_of_mem hx
    have hring' : Run s.ptr base (a ++ x :: (m ++ [p] ++ frees r)) base := by simpa using hring
    have hsorted' : (a ++ x :: (m ++ [p] ++ frees r)).Pairwise (· < ·) := by simpa using hsorted
    have hnext : x < s.ptr x ∧ s.ptr x ∈ m ++ [p] := by
      have hrest := hring'.split.2
      cases m with
      | nil =>
        obtain ⟨he, -⟩ : s.ptr x = p ∧ _ := hrest
        exact ⟨he ▸ hxp, by simp [he]⟩
      | cons y m =>
        obtain ⟨he, -⟩ : s.ptr x = y ∧ _ := hrest
        refine ⟨?_, by simp [he]⟩
        exact ((next_cases hring' hsorted').resolve_left (by simp)).2
    have := hlow (s.ptr x) (by
      rw [append_assoc]
      exact mem_append_right a (mem_cons_of_mem x hnext.2))
    refine iff_of_false ?_ hxp.ne
    rintro (⟨-, h2⟩ | ⟨h1, -⟩)
    · omega
    · omega
  · -- the next node is above the block, or `base`
    have hring' : Run s.ptr base (pre ++ x :: frees r) base := by simpa using hring
    have hsorted' : (pre ++ x :: frees r).Pairwise (· < ·) := by simpa using hsorted
    have hxlow := hlow x (by simp)
    refine iff_of_true ?_ rfl
    rcases next_cases hring' hsorted' with ⟨-, he⟩ | ⟨hmem, -⟩
    · refine .inr ⟨?_, .inl hxlow⟩
      rw [he]
      have hx : x ∈ base :: frees l := hp ▸ by simp
      rcases mem_cons.mp hx with rfl | hx
      · exact le_refl x
      · exact (hbase.trans_le (ht1.frees_bounds hx).1).le
    · exact .inl ⟨hxlow, hhigh _ hmem⟩
  · -- a node above the block: the next one is greater, or `base`
    have hxhigh := hhigh x hx
    have hxp : x ≠ p := fun he => absurd (hlow p (by simp)) (he ▸ hxhigh).asymm
    obtain ⟨a, m, hr⟩ := append_of_mem hx
    rw [hr] at hring hsorted
    have hring' : Run s.ptr base ((pre ++ [p] ++ a) ++ x :: m) base := by simpa using hring
    have hsorted' : ((pre ++ [p] ++ a) ++ x :: m).Pairwise (· < ·) := by simpa using hsorted
    refine iff_of_false ?_ hxp
    rintro (⟨h1, -⟩ | ⟨h1, h2⟩)
    · omega
    · rcases next_cases hring' hsorted' with ⟨-, he⟩ | ⟨-, hlt⟩
      · rw [he] at h2
        omega
      · omega

/-! ### Freeing a block -/

/-- The cell at `bp` is written. -/
def Heap.put (s : Heap) (bp : Nat) (h : Header) : Heap :=
  { s with mem := update s.mem bp h }

@[simp] theorem put_ptr_self (h : Header) : (s.put p h).ptr p = h.ptr := by
  simp [Heap.put, Heap.ptr]

theorem put_ptr_of_ne (hx : x ≠ p) (h : Header) : (s.put p h).ptr x = s.ptr x := by
  simp [Heap.put, Heap.ptr, update_of_ne hx]

@[simp] theorem put_size_self (h : Header) : (s.put p h).size p = h.size := by
  simp [Heap.put, Heap.size]

theorem put_size_of_ne (hx : x ≠ p) (h : Header) : (s.put p h).size x = s.size x := by
  simp [Heap.put, Heap.size, update_of_ne hx]

theorem setPtr_eq (q : Nat) : s.setPtr p q = s.put p ⟨q, s.size p⟩ := rfl

theorem setSize_setPtr (m q : Nat) : (s.setSize p m).setPtr p q = s.put p ⟨q, m⟩ := by
  simp [Heap.setSize, Heap.setPtr, Heap.put]

/-- A block of `z` cells at `bp`, which is not in the list yet, has the blocks `l` before it and `r`
behind it. The free blocks among `r` are a run from `nxt`, and the first block of `r` is in use. -/
structure Gap (base lo : Nat) (s : Heap) (l r : List Block) (bp z nxt : Nat) : Prop where
  before : Tiles 8 lo l bp
  behind : Tiles 8 (bp + 8 * z) r s.brk
  merged : Merged l ∧ Merged r
  head : ∀ c ∈ r.head?, c.live = true
  size : ∀ c ∈ l ++ r, s.size c.addr = c.size
  base_size : s.size base = 0
  list : ∃ m, Run s.ptr base (base :: frees l) m
  rest : Run s.ptr nxt (frees r) base

theorem merged_append (h : Merged (l ++ r)) : Merged l ∧ Merged r :=
  ⟨(isChain_append.mp h).1, (isChain_append.mp h).2.1⟩

/-- The pointer from the list into the blocks behind `b`. -/
theorem Rep.run_behind (h : Rep base lo s (l ++ b :: r)) (hb : b.live = true) {pre : List Nat}
    (hp : base :: frees l = pre ++ [p]) :
    Run s.ptr base (base :: frees l) (s.ptr p) ∧ Run s.ptr (s.ptr p) (frees r) base := by
  have hring := h.ring
  rw [frees_append, frees_cons_live hb, ← cons_append] at hring
  obtain ⟨m, h1, h2⟩ := Run.append_iff.mp hring
  have hm : s.ptr p = m := (hp ▸ h1).last
  exact ⟨hm ▸ h1, hm ▸ h2⟩

/-- The first part of `free`: what is free right behind the block is joined with it. -/
theorem Rep.joinUp (hbase : base < lo) (h : Rep base lo s (l ++ b :: r)) (hb : b.live = true)
    {pre : List Nat} (hp : base :: frees l = pre ++ [p]) :
    ∃ z nxt r', joinUp s b.addr p = s.put b.addr ⟨nxt, z⟩ ∧ b.size ≤ z ∧
      lives r' = lives r ∧ r'.length ≤ r.length ∧ Gap base lo s l r' b.addr z nxt := by
  obtain ⟨ht1, hpos, ht2⟩ := h.tiles.split
  have hbsize : s.size b.addr = b.size := h.size b (by simp)
  obtain ⟨hrun1, hrun2⟩ := h.run_behind hb hp
  have hml := merged_append h.merged
  have hmr : Merged r := (merged_append (l := [b]) hml.2).2
  have hsize : ∀ c ∈ l ++ r, s.size c.addr = c.size := fun c hc => h.size c (by
    rcases mem_append.mp hc with hc | hc <;> simp [hc])
  -- nothing is joined unless the block behind is free
  have hkeep : s.ptr p ≠ b.addr + 8 * b.size → (∀ c ∈ r.head?, c.live = true) →
      ∃ z nxt r', Umalloc.joinUp s b.addr p = s.put b.addr ⟨nxt, z⟩ ∧ b.size ≤ z ∧
        lives r' = lives r ∧ r'.length ≤ r.length ∧ Gap base lo s l r' b.addr z nxt := by
    intro hne hhead
    refine ⟨b.size, s.ptr p, r, ?_, le_rfl, rfl, le_rfl, ?_⟩
    · rw [Umalloc.joinUp, hbsize, if_neg hne.symm, setPtr_eq, hbsize]
    · exact ⟨ht1, ht2, ⟨hml.1, hmr⟩, hhead, hsize, h.base_size, ⟨_, hrun1⟩, hrun2⟩
  cases r with
  | nil =>
    refine hkeep (fun he => ?_) nofun
    have : s.ptr p = base := hrun2
    have := ht1.le
    omega
  | cons c r =>
    cases hc : c.live with
    | true =>
      refine hkeep (fun he => ?_) (by simp [hc])
      -- the pointer is to `base` below or to a block behind `c`
      obtain ⟨hcaddr, hcpos, ht3⟩ := ht2
      rw [frees_cons_live hc] at hrun2
      cases hfr : frees r with
      | nil =>
        rw [hfr] at hrun2
        have : s.ptr p = base := hrun2
        have := ht1.le
        omega
      | cons y ys =>
        rw [hfr] at hrun2
        have hy : s.ptr p = y := hrun2.1
        have := (ht3.frees_bounds (x := y) (hfr ▸ mem_cons_self)).1
        omega
    | false =>
      obtain ⟨hcaddr, hcpos, ht3⟩ := ht2
      rw [frees_cons_free hc] at hrun2
      obtain ⟨hpc, hrun3⟩ : s.ptr p = c.addr ∧ _ := hrun2
      have hcsize : s.size c.addr = c.size := hsize c (by simp)
      have hne : c.addr ≠ b.addr := by omega
      refine ⟨b.size + c.size, s.ptr c.addr, r, ?_, Nat.le_add_right _ _,
        (lives_cons_free hc).symm, Nat.le_succ _, ?_⟩
      · rw [Umalloc.joinUp, hbsize, hpc, if_pos hcaddr.symm]
        simp only [setSize_ptr, hpc, hcsize]
        exact setSize_setPtr _ _
      · have hmc := isChain_cons.mp hmr
        refine ⟨ht1, ?_, ⟨hml.1, hmc.2⟩, fun d hd => ?_, fun d hd => ?_, h.base_size, ⟨_, hrun1⟩,
          hrun3⟩
        · rwa [Nat.mul_add, ← Nat.add_assoc]
        · have hchain := hmc.1 d hd
          simpa [hc] using hchain
        · rcases mem_append.mp hd with hd | hd
          · exact hsize d (by simp [hd])
          · exact hsize d (by simp [hd])

/-- Nothing but the list has changed. -/
structure Same (s s' : Heap) : Prop where
  brk : s'.brk = s.brk
  grants : s'.grants = s.grants
  calls : s'.calls = s.calls
  refused : s'.refused = s.refused
  backward : s'.backward = s.backward

namespace Gap

variable {bp z nxt : Nat}

theorem addr_ne (h : Gap base lo s l r bp z nxt) (hz : 0 < z) (hc : c ∈ l ++ r) : c.addr ≠ bp := by
  rcases mem_append.mp hc with hc | hc
  · obtain ⟨-, h1, h2⟩ := h.before.bounds hc
    omega
  · have := (h.behind.bounds hc).1
    omega

theorem link (h : Gap base lo s l r bp z nxt) (hbase : base < lo) (hz : 0 < z)
    (hlast : ∀ c ∈ l.getLast?, c.live = true) {pre : List Nat}
    (hp : base :: frees l = pre ++ [p]) :
    Rep base lo { ((s.put bp ⟨nxt, z⟩).setPtr p bp) with freep := p }
      (l ++ ⟨bp, z, false⟩ :: r) := by
  have hbp : base ≠ bp := by
    have := h.before.le
    omega
  -- the nodes of the list are other cells than `bp`
  have hlow : ∀ y ∈ base :: frees l, y < bp := fun y hy => by
    rcases mem_cons.mp hy with rfl | hy
    · exact hbase.trans_le h.before.le
    · exact h.before.frees_lt (by decide) hy
  have hhigh : ∀ y ∈ frees r, bp < y := fun y hy => by
    have := (h.behind.frees_bounds hy).1
    omega
  have hplow := hlow p (hp ▸ by simp)
  have hsizes : ∀ y, y ≠ bp → ((s.put bp ⟨nxt, z⟩).setPtr p bp).size y = s.size y := fun y hy => by
    rw [setPtr_size, put_size_of_ne hy]
  obtain ⟨m, hm⟩ := h.list
  have hsorted : (base :: frees l).Pairwise (· < ·) :=
    pairwise_cons.mpr ⟨fun x hx => hbase.trans_le (h.before.frees_bounds hx).1,
      h.before.frees_sorted (by decide)⟩
  have hpre : ∀ y ∈ pre, y ≠ p := fun y hy => by
    rw [hp] at hsorted
    exact ((pairwise_append.mp hsorted).2.2 y hy p (mem_singleton_self p)).ne
  refine {
    tiles := h.before.join hz h.behind
    merged := ?_
    size := fun c hc => ?_
    base_size := (hsizes base hbp).trans h.base_size
    ring := ?_
    freep := ?_ }
  · refine isChain_append.mpr ⟨h.merged.1, isChain_cons.mpr ⟨fun c hc => ?_, h.merged.2⟩,
      fun c hc d _ => .inl (hlast c hc)⟩
    exact .inr (h.head c hc)
  · change ((s.put bp ⟨nxt, z⟩).setPtr p bp).size c.addr = c.size
    by_cases hcb : c = ⟨bp, z, false⟩
    · subst hcb
      rw [setPtr_size, put_size_self]
    · have hmem : c ∈ l ++ r := by simpa [hcb] using hc
      rw [hsizes _ (h.addr_ne hz hmem), h.size c hmem]
  · change Run ((s.put bp ⟨nxt, z⟩).setPtr p bp).ptr base _ base
    rw [frees_append, frees_cons_free rfl, ← cons_append]
    refine Run.join ?_ ?_
    · -- `p` now points to the block
      rw [hp] at hm hlow ⊢
      refine hm.set_last (fun y hy => ?_) (setPtr_ptr_self bp)
      rw [setPtr_ptr_of_ne (hpre y hy), put_ptr_of_ne (hlow y (by simp [hy])).ne]
    · rw [setPtr_ptr_of_ne hplow.ne', put_ptr_self]
      refine h.rest.congr fun y hy => ?_
      rw [setPtr_ptr_of_ne (hplow.trans (hhigh y hy)).ne', put_ptr_of_ne (hhigh y hy).ne']
  · have : p ∈ base :: frees l := hp ▸ by simp
    rw [frees_append, ← cons_append]
    exact mem_append_left _ this

theorem absorb (h : Gap base lo s (l ++ [c]) r bp z nxt) (hbase : base < lo) (hz : 0 < z)
    (hc : c.live = false) :
    Rep base lo { ((s.put bp ⟨nxt, z⟩).put c.addr ⟨nxt, c.size + z⟩) with freep := c.addr }
      (l ++ ⟨c.addr, c.size + z, false⟩ :: r) := by
  obtain ⟨hl, hcpos, hend⟩ := h.before.split
  have hend : c.addr + 8 * c.size = bp := hend
  have hcb : c.addr < bp := by omega
  have hbc : base < c.addr := hbase.trans_le hl.le
  -- other cells than the two are as they were
  have hother : ∀ y, y ≠ bp → y ≠ c.addr →
      ((s.put bp ⟨nxt, z⟩).put c.addr ⟨nxt, c.size + z⟩).mem y = s.mem y := fun y h1 h2 => by
    simp [Heap.put, update_of_ne h1, update_of_ne h2]
  have hlow : ∀ y ∈ base :: frees l, y < c.addr := fun y hy => by
    rcases mem_cons.mp hy with rfl | hy
    · exact hbc
    · exact hl.frees_lt (by decide) hy
  have hhigh : ∀ y ∈ frees r, bp < y := fun y hy => by
    have := (h.behind.frees_bounds hy).1
    omega
  obtain ⟨m, hm⟩ := h.list
  rw [frees_append, frees_cons_free hc, ← cons_append] at hm
  have hchain := isChain_append.mp h.merged.1
  refine {
    tiles := Tiles.join (b := ⟨c.addr, c.size + z, false⟩) hl (Nat.add_pos_left hcpos z) ?_
    merged := ?_
    size := fun d hd => ?_
    base_size := ?_
    ring := ?_
    freep := ?_ }
  · have := h.behind
    rwa [← hend, Nat.add_assoc, ← Nat.mul_add] at this
  · refine isChain_append.mpr ⟨hchain.1, isChain_cons.mpr ⟨fun d hd => ?_, h.merged.2⟩,
      fun d hd e he => .inl ?_⟩
    · exact .inr (h.head d hd)
    · -- the block before a free block is in use
      have := hchain.2.2 d hd c rfl
      simpa [hc] using this
  · change ((s.put bp ⟨nxt, z⟩).put c.addr ⟨nxt, c.size + z⟩).size d.addr = d.size
    by_cases hdc : d = ⟨c.addr, c.size + z, false⟩
    · subst hdc
      rw [put_size_self]
    · have hmem : d ∈ l ∨ d ∈ r := by simpa [hdc] using hd
      have hmem' : d ∈ (l ++ [c]) ++ r := by
        rcases hmem with hmem | hmem <;> simp [hmem]
      have hne : d.addr ≠ c.addr := by
        rcases hmem with hmem | hmem
        · obtain ⟨-, h1, h2⟩ := hl.bounds hmem
          omega
        · have := (h.behind.bounds hmem).1
          omega
      rw [Heap.size, hother _ (h.addr_ne hz hmem') hne]
      exact h.size d hmem'
  · change ((s.put bp ⟨nxt, z⟩).put c.addr ⟨nxt, c.size + z⟩).size base = 0
    rw [Heap.size, hother base (hbc.trans hcb).ne hbc.ne]
    exact h.base_size
  · change Run ((s.put bp ⟨nxt, z⟩).put c.addr ⟨nxt, c.size + z⟩).ptr base _ base
    rw [frees_append, frees_cons_free rfl, ← cons_append]
    refine Run.join (hm.split.1.congr fun y hy => ?_) ?_
    · rw [Heap.ptr, hother y ((hlow y hy).trans hcb).ne (hlow y hy).ne]
      rfl
    · rw [put_ptr_self]
      refine h.rest.congr fun y hy => ?_
      rw [Heap.ptr, hother y (hhigh y hy).ne' (hcb.trans (hhigh y hy)).ne']
      rfl
  · rw [frees_append, frees_cons_free rfl]
    simp

theorem joinDown (h : Gap base lo s l r bp z nxt) (hbase : base < lo) (hz : 0 < z)
    {pre : List Nat} (hp : base :: frees l = pre ++ [p]) :
    ∃ bs', Rep base lo { joinDown (s.put bp ⟨nxt, z⟩) bp p with freep := p } bs' ∧
      lives bs' = lives l ++ lives r ∧ (∃ c ∈ bs', c.live = false ∧ z ≤ c.size) ∧
      bs'.length ≤ l.length + r.length + 1 ∧
      Same s { Umalloc.joinDown (s.put bp ⟨nxt, z⟩) bp p with freep := p } := by
  -- nothing is joined unless the block before is free
  have hkeep : p + 8 * s.size p ≠ bp → p ≠ bp → (∀ c ∈ l.getLast?, c.live = true) → ∃ bs',
      Rep base lo { Umalloc.joinDown (s.put bp ⟨nxt, z⟩) bp p with freep := p } bs' ∧
      lives bs' = lives l ++ lives r ∧ (∃ c ∈ bs', c.live = false ∧ z ≤ c.size) ∧
      bs'.length ≤ l.length + r.length + 1 ∧
      Same s { Umalloc.joinDown (s.put bp ⟨nxt, z⟩) bp p with freep := p } := by
    intro hne hpb hlast
    rw [Umalloc.joinDown, put_size_of_ne hpb, if_neg hne]
    refine ⟨_, h.link hbase hz hlast hp, ?_, ⟨⟨bp, z, false⟩, by simp, rfl, le_rfl⟩, ?_,
      ⟨rfl, rfl, rfl, rfl, rfl⟩⟩
    · rw [lives_append, lives_cons_free rfl]
    · simp
      omega
  have hbp : base < bp := hbase.trans_le h.before.le
  rcases eq_nil_or_concat l with rfl | ⟨l', c, rfl⟩
  · obtain rfl : base = p := by
      have := append_inj' (show [] ++ [base] = _ ++ [p] from hp) rfl
      simpa using this.2
    exact hkeep (by rw [h.base_size]; omega) hbp.ne nofun
  · rw [concat_eq_append] at *
    obtain ⟨hl, hcpos, hend⟩ := h.before.split
    have hend : c.addr + 8 * c.size = bp := hend
    cases hc : c.live with
    | true =>
      rw [frees_append, frees_cons_live hc, frees_nil, append_nil] at hp
      -- `p` is before `c`
      have hpmem : p ∈ base :: frees l' := hp ▸ by simp
      refine hkeep ?_ ?_ (by simp [hc])
      · rcases mem_cons.mp hpmem with rfl | hpmem
        · rw [h.base_size]
          omega
        · obtain ⟨d, hd, -, rfl⟩ := mem_frees.mp hpmem
          rw [h.size d (by simp [hd])]
          have := (hl.bounds hd).2.2
          omega
      · rcases mem_cons.mp hpmem with rfl | hpmem
        · exact hbp.ne
        · have := hl.frees_lt (by decide) hpmem
          omega
    | false =>
      rw [frees_append, frees_cons_free hc, frees_nil, ← cons_append] at hp
      obtain rfl : c.addr = p := by
        have := append_inj' hp rfl
        simpa using this.2
      have hcsize : s.size c.addr = c.size := h.size c (by simp)
      have hne : c.addr ≠ bp := by omega
      have hjoin : Umalloc.joinDown (s.put bp ⟨nxt, z⟩) bp c.addr =
          (s.put bp ⟨nxt, z⟩).put c.addr ⟨nxt, c.size + z⟩ := by
        rw [Umalloc.joinDown, put_size_of_ne hne, hcsize, if_pos hend, put_size_self]
        simp only [setSize_ptr, put_ptr_self]
        exact setSize_setPtr _ _
      rw [hjoin]
      refine ⟨_, h.absorb hbase hz hc, ?_, ⟨⟨c.addr, c.size + z, false⟩, by simp, rfl,
        Nat.le_add_left z c.size⟩, ?_, ⟨rfl, rfl, rfl, rfl, rfl⟩⟩
      · rw [lives_append, lives_cons_free rfl, lives_append, lives_cons_free hc, lives_nil,
          append_nil]
      · simp
        omega

end Gap

/-- **`free`** ends, and leaves the heap without the block. -/
theorem Rep.free (hbase : base < lo) (h : Rep base lo s (l ++ b :: r)) (hb : b.live = true) :
    ∃ s' bs', (∀ k, (l ++ b :: r).length < k → free k s (b.addr + 8) = some s') ∧
      Rep base lo s' bs' ∧ lives bs' = lives l ++ lives r ∧
      (∃ c ∈ bs', c.live = false ∧ b.size ≤ c.size) ∧
      bs'.length ≤ (l ++ b :: r).length ∧ Same s s' := by
  obtain ⟨pre, p, hp⟩ : ∃ pre p, base :: frees l = pre ++ [p] :=
    ⟨_, _, (dropLast_append_getLast (cons_ne_nil base _)).symm⟩
  have hpmem : p ∈ base :: frees (l ++ b :: r) := by
    rw [frees_append, ← cons_append, hp]
    simp
  have hlen : (base :: frees (l ++ b :: r)).length ≤ (l ++ b :: r).length + 1 := by
    rw [length_cons, frees, length_map]
    exact Nat.succ_le_succ (length_filter_le _ _)
  obtain ⟨z, nxt, r', hup, hz, hlives, hlenr, hgap⟩ := h.joinUp hbase hb hp
  have hzpos : 0 < z := h.tiles.split.2.1.trans_le hz
  obtain ⟨bs', hrep, hlives', ⟨c, hc, hcf, hcz⟩, hlen', hsame⟩ := hgap.joinDown hbase hzpos hp
  refine ⟨_, bs', fun k hk => ?_, hrep, hlives'.trans (by rw [hlives]), ⟨c, hc, hcf, hz.trans hcz⟩,
    ?_, hsame⟩
  · -- the loop finds `p`
    rw [Umalloc.free, Nat.add_sub_cancel, freeLoop_eq,
      h.ring.walk_ring h.freep hpmem (stops_iff hbase h hb hp) (hlen.trans hk), Option.map_some, hup]
  · simp at hlen' ⊢
    omega

/-! ### Allocating a block -/

/-- `malloc` has taken the block `c` out of the heap. -/
structure Took (base lo : Nat) (s : Heap) (bs : List Block) (c : Block) (s' : Heap)
    (bs' : List Block) : Prop where
  rep : Rep base lo s' bs'
  live : c.live = true
  perm : (lives bs').Perm (c :: lives bs)
  same : Same s s'

theorem Rep.take_whole (hbase : base < lo) (h : Rep base lo s (l ++ b :: r)) (hb : b.live = false)
    {pre : List Nat} (hp : base :: frees l = pre ++ [p]) :
    Took base lo s (l ++ b :: r) ⟨b.addr, b.size, true⟩
      { s.setPtr p (s.ptr b.addr) with freep := p } (l ++ ⟨b.addr, b.size, true⟩ :: r) := by
  have hml := isChain_append.mp h.merged
  have hnd := h.nodup hbase
  have hring := h.ring
  obtain ⟨ht1, hpos, ht2⟩ := h.tiles.split
  rw [frees_append, frees_cons_free hb, ← cons_append, hp] at hnd hring
  have hpmem : p ∈ base :: frees l := hp ▸ by simp
  refine ⟨?_, rfl, ?_, rfl, rfl, rfl, rfl, rfl⟩
  · refine
      { tiles := ht1.join (b := ⟨b.addr, b.size, true⟩) hpos ht2
        merged := ?_
        size := fun c hc => ?_
        base_size := (setPtr_size _).trans h.base_size
        ring := ?_
        freep := ?_ }
    · exact isChain_append.mpr ⟨hml.1, isChain_cons.mpr ⟨fun _ _ => .inl rfl,
        (isChain_cons.mp hml.2.1).2⟩, fun _ _ d hd => .inr (by cases hd; rfl)⟩
    · refine (setPtr_size _).trans ?_
      by_cases hcb : c = ⟨b.addr, b.size, true⟩
      · subst hcb
        exact h.size b (by simp)
      · have hmem : c ∈ l ∨ c ∈ r := by simpa [hcb] using hc
        exact h.size c (by rcases hmem with hmem | hmem <;> simp [hmem])
    · -- `p` points to what `b` pointed to
      obtain ⟨h1, h2⟩ := hring.split
      rw [frees_append, frees_cons_live rfl, ← cons_append, hp]
      refine Run.append_iff.mpr ⟨s.ptr b.addr, h1.set_last (fun y hy => ?_) (setPtr_ptr_self _), ?_⟩
      · refine setPtr_ptr_of_ne (fun he => ?_) _
        exact (nodup_append.mp (nodup_append.mp hnd).1).2.2 y hy p
          (mem_singleton_self p) he
      · refine h2.congr fun y hy => setPtr_ptr_of_ne (fun he => ?_) _
        exact (nodup_append.mp hnd).2.2 p (by simp) y (mem_cons_of_mem _ hy) he.symm
    · rw [frees_append, ← cons_append]
      exact mem_append_left _ hpmem
  · rw [lives_append, lives_append, lives_cons_live rfl, lives_cons_free hb]
    exact perm_middle

theorem Rep.take_end (h : Rep base lo s (l ++ b :: r)) (hbase : base < lo) (hb : b.live = false)
    (hn : 0 < n) (hlt : n < b.size) {pre : List Nat} (hp : base :: frees l = pre ++ [p]) :
    Took base lo s (l ++ b :: r) ⟨b.addr + 8 * (b.size - n), n, true⟩
      { (s.setSize b.addr (b.size - n)).setSize (b.addr + 8 * (b.size - n)) n with freep := p }
      (l ++ ⟨b.addr, b.size - n, false⟩ :: ⟨b.addr + 8 * (b.size - n), n, true⟩ :: r) := by
  have hml := isChain_append.mp h.merged
  obtain ⟨ht1, hpos, ht2⟩ := h.tiles.split
  have hpmem : p ∈ base :: frees l := hp ▸ by simp
  have hbb : base < b.addr := hbase.trans_le ht1.le
  -- only the headers of the two parts are written
  have hother : ∀ y, y ≠ b.addr → y ≠ b.addr + 8 * (b.size - n) →
      ((s.setSize b.addr (b.size - n)).setSize (b.addr + 8 * (b.size - n)) n).size y = s.size y :=
    fun y h1 h2 => by rw [setSize_size_of_ne h2, setSize_size_of_ne h1]
  refine ⟨?_, rfl, ?_, rfl, rfl, rfl, rfl, rfl⟩
  · refine
      { tiles := ht1.join (b := ⟨b.addr, b.size - n, false⟩) (Nat.sub_pos_of_lt hlt) ⟨rfl, hn, ?_⟩
        merged := ?_
        size := fun c hc => ?_
        base_size := (hother base (by omega) (by omega)).trans h.base_size
        ring := ?_
        freep := ?_ }
    · have he : b.addr + 8 * (b.size - n) + 8 * n = b.addr + 8 * b.size := by omega
      exact he ▸ ht2
    · refine isChain_append.mpr ⟨hml.1, isChain_cons.mpr ⟨fun d hd => ?_,
        isChain_cons.mpr ⟨fun _ _ => .inl rfl, (isChain_cons.mp hml.2.1).2⟩⟩,
        fun d hd e he => .inl ?_⟩
      · cases hd
        exact .inr rfl
      · have := hml.2.2 d hd b rfl
        simpa [hb] using this
    · change ((s.setSize b.addr (b.size - n)).setSize (b.addr + 8 * (b.size - n)) n).size c.addr =
        c.size
      rcases mem_append.mp hc with hc | hc
      · obtain ⟨-, h1, h2⟩ := ht1.bounds hc
        rw [hother _ (by omega) (by omega)]
        exact h.size c (by simp [hc])
      · rcases mem_cons.mp hc with rfl | hc
        · dsimp only
          rw [setSize_size_of_ne (by omega), setSize_size_self]
        · rcases mem_cons.mp hc with rfl | hc
          · exact setSize_size_self n
          · have := (ht2.bounds hc).1
            rw [hother _ (by omega) (by omega)]
            exact h.size c (by simp [hc])
    · have hring := h.ring
      rw [frees_append, frees_cons_free hb] at hring
      rw [frees_append, frees_cons_free rfl, frees_cons_live rfl]
      refine hring.congr fun y _ => ?_
      change ((s.setSize b.addr (b.size - n)).setSize (b.addr + 8 * (b.size - n)) n).ptr y = s.ptr y
      rw [setSize_ptr, setSize_ptr]
    · rw [frees_append, ← cons_append]
      exact mem_append_left _ hpmem
  · rw [lives_append, lives_append, lives_cons_free rfl, lives_cons_live rfl, lives_cons_free hb]
    exact perm_middle

/-- `malloc` takes what it needs out of a block that is large enough. -/
theorem Rep.take (h : Rep base lo s (l ++ b :: r)) (hbase : base < lo) (hb : b.live = false)
    (hn : 0 < n) (hle : n ≤ b.size) {pre : List Nat} (hp : base :: frees l = pre ++ [p]) :
    ∃ c s' bs', take s p b.addr n = (c.addr + 8, s') ∧ c.size = n ∧
      Took base lo s (l ++ b :: r) c s' bs' := by
  have hbsize : s.size b.addr = b.size := h.size b (by simp)
  by_cases he : b.size = n
  · refine ⟨⟨b.addr, b.size, true⟩, _, _, ?_, he, h.take_whole hbase hb hp⟩
    rw [Umalloc.take, hbsize, if_pos he]
  · refine ⟨_, _, _, ?_, rfl, h.take_end hbase hb hn (lt_of_le_of_ne hle (Ne.symm he)) hp⟩
    rw [Umalloc.take, hbsize, if_neg he]
    simp only [setSize_size_self]

/-! ### The scan for a block -/

/-- The loop of `malloc` passes small blocks, and takes the first one that is large enough. -/
theorem mallocLoop_found (fuel : Nat) {L R : List Nat} {e prevp : Nat}
    (h : Run s.ptr p (L ++ x :: R) e) (hL : ∀ y ∈ L, s.size y < n ∧ y ≠ s.freep)
    (hx : n ≤ s.size x) (hprev : s.ptr prevp = p) (hk : L.length < k) :
    ∃ q ∈ prevp :: L, s.ptr q = x ∧ mallocLoop fuel n k s prevp p = some (take s q x n) := by
  induction L generalizing k p prevp with
  | nil =>
    obtain ⟨k, rfl⟩ := Nat.exists_eq_add_one_of_ne_zero (Nat.ne_of_gt hk)
    obtain rfl : p = x := h.1
    exact ⟨prevp, mem_cons_self, hprev, by rw [mallocLoop, if_pos hx]⟩
  | cons y L ih =>
    obtain ⟨k, rfl⟩ := Nat.exists_eq_add_one_of_ne_zero (Nat.ne_of_gt (Nat.zero_lt_of_lt hk))
    obtain ⟨rfl, h⟩ : p = y ∧ Run s.ptr (s.ptr y) (L ++ x :: R) e := h
    obtain ⟨hsmall, hne⟩ := hL p mem_cons_self
    obtain ⟨q, hq, hqx, he⟩ := ih h (fun z hz => hL z (mem_cons_of_mem p hz)) rfl
      (Nat.lt_of_succ_lt_succ hk)
    refine ⟨q, mem_cons_of_mem prevp hq, hqx, ?_⟩
    rw [mallocLoop, if_neg (not_le.mpr hsmall), if_neg hne, he]

/-- If all blocks are too small then it comes to `freep` and asks for more memory. -/
theorem mallocLoop_more (fuel : Nat) {L : List Nat} {e : Nat} (prevp : Nat)
    (h : Run s.ptr p (L ++ [s.freep]) e) (hL : ∀ y ∈ L, s.size y < n ∧ y ≠ s.freep)
    (hf : s.size s.freep < n) :
    mallocLoop fuel n (k + L.length + 1) s prevp p =
      (morecore fuel s n).bind fun r =>
        if r.1 = 0 then some (0, r.2) else mallocLoop fuel n k r.2 r.1 (r.2.ptr r.1) := by
  induction L generalizing p prevp with
  | nil =>
    obtain rfl : p = s.freep := h.1
    rw [length_nil, Nat.add_zero, mallocLoop, if_neg (not_le.mpr hf), if_pos rfl]
  | cons y L ih =>
    obtain ⟨rfl, h⟩ : p = y ∧ Run s.ptr (s.ptr y) (L ++ [s.freep]) e := h
    obtain ⟨hsmall, hne⟩ := hL p mem_cons_self
    rw [length_cons, ← Nat.add_assoc, mallocLoop, if_neg (not_le.mpr hsmall), if_neg hne]
    exact ih p h fun z hz => hL z (mem_cons_of_mem p hz)

/-- The nodes in the order in which `malloc` looks at them: `freep` is the last one. -/
theorem Rep.order (h : Rep base lo s bs) (hbase : base < lo) :
    ∃ L, (L ++ [s.freep]).Perm (base :: frees bs) ∧ s.freep ∉ L ∧
      Run s.ptr (s.ptr s.freep) (L ++ [s.freep]) (s.ptr s.freep) := by
  obtain ⟨A, B, he⟩ := append_of_mem h.freep
  have hring := h.ring
  have hnd := h.nodup hbase
  rw [he] at hring hnd ⊢
  have hperm : (B ++ A ++ [s.freep]).Perm (A ++ s.freep :: B) := by
    calc (B ++ A ++ [s.freep]).Perm (s.freep :: (B ++ A)) := perm_append_singleton ..
      _ |>.Perm (s.freep :: (A ++ B)) := perm_append_comm.cons s.freep
      _ |>.Perm (A ++ s.freep :: B) := perm_middle.symm
  refine ⟨B ++ A, hperm, ?_, ?_⟩
  · have := (nodup_append.mp (hperm.nodup_iff.mpr hnd)).2.2
    exact fun hm => this _ hm _ (mem_singleton_self _) rfl
  · exact Run.join hring.rotate.2 rfl

theorem Rep.find (h : Rep base lo s bs) (hbase : base < lo) (hn : 0 < n)
    (hbig : ∃ c ∈ bs, c.live = false ∧ n ≤ c.size) :
    ∃ c s' bs', (∀ fuel k, bs.length + 1 < k →
        mallocLoop fuel n k s s.freep (s.ptr s.freep) = some (c.addr + 8, s')) ∧
      c.size = n ∧ Took base lo s bs c s' bs' := by
  obtain ⟨L, hperm, hnot, hrun⟩ := h.order hbase
  obtain ⟨c, hc, hcf, hcn⟩ := hbig
  -- the first node that is large enough
  have hex : ((L ++ [s.freep]).find? fun y => n ≤ s.size y).isSome := by
    rw [List.find?_isSome]
    refine ⟨c.addr, hperm.mem_iff.mpr (mem_cons_of_mem _ (mem_frees.mpr ⟨c, hc, hcf, rfl⟩)), ?_⟩
    simpa [h.size c hc] using hcn
  obtain ⟨x, hx⟩ := Option.isSome_iff_exists.mp hex
  obtain ⟨hxn, L1, R, hsplit, hsmall⟩ := List.find?_eq_some_iff_append.mp hx
  have hxn : n ≤ s.size x := by simpa using hxn
  have hnd := hperm.nodup_iff.mpr (h.nodup hbase)
  have hL1 : ∀ y ∈ L1, s.size y < n ∧ y ≠ s.freep := fun y hy => by
    refine ⟨by simpa using hsmall y hy, fun he => ?_⟩
    -- `freep` is the last node, so it is not before `x`
    have hlast : s.freep ∈ x :: R := by
      have h1 : (L ++ [s.freep]).getLast? = some s.freep := by simp
      rw [hsplit, List.getLast?_append_of_ne_nil _ (cons_ne_nil x R)] at h1
      exact mem_of_getLast? h1
    rw [hsplit] at hnd
    exact (nodup_append.mp hnd).2.2 y hy s.freep hlast he
  rw [hsplit] at hrun
  have hmem : ∀ y ∈ L1 ++ x :: R, y ∈ base :: frees bs := fun y hy =>
    hperm.mem_iff.mp (hsplit ▸ hy)
  -- it is a block, since `base` is empty
  have hxf : x ∈ frees bs := by
    refine (mem_cons.mp (hmem x (by simp))).resolve_left fun he => ?_
    rw [he, h.base_size] at hxn
    omega
  obtain ⟨b, hb, hbf, rfl⟩ := mem_frees.mp hxf
  obtain ⟨l, r, rfl⟩ := append_of_mem hb
  have hbsize := h.size b hb
  have hring := h.ring
  have hnd' := h.nodup hbase
  rw [frees_append, frees_cons_free hbf, ← cons_append] at hring hnd'
  -- which node is before it does not depend on the fuel
  have hprev : ∀ q ∈ s.freep :: L1, s.ptr q = b.addr → ∃ pre, base :: frees l = pre ++ [q] := by
    intro q hq hqx
    refine hring.before hnd' ?_ hqx
    rw [cons_append, ← frees_cons_free hbf, ← frees_append]
    rcases mem_cons.mp hq with rfl | hq
    · exact h.freep
    · exact hmem q (mem_append_left _ hq)
  obtain ⟨q, hq, hqx, -⟩ := mallocLoop_found 0 (k := L1.length + 1) hrun hL1 hxn rfl
    (Nat.lt_succ_self _)
  obtain ⟨pre, hp⟩ := hprev q hq hqx
  obtain ⟨c', s', bs', htake, hc', htook⟩ := h.take hbase hbf hn (hbsize ▸ hxn) hp
  refine ⟨c', s', bs', fun fuel k hk => ?_, hc', htook⟩
  have hlen : L1.length < k := by
    have h1 := hperm.length_eq
    rw [hsplit] at h1
    have h2 : (frees (l ++ b :: r)).length ≤ (l ++ b :: r).length := by
      rw [frees, length_map]
      exact length_filter_le _ _
    simp only [length_append, length_cons] at h1 h2 hk
    omega
  obtain ⟨q', hq', hqx', he⟩ := mallocLoop_found fuel hrun hL1 hxn rfl hlen
  obtain ⟨pre', hp'⟩ := hprev q' hq' hqx'
  have hqq : q' = q := by
    have := append_inj' (hp'.symm.trans hp) rfl
    simpa using this.2
  rw [he, hqq, htake]

/-- What `morecore` asks for, as long as it fits into a positive `int`. -/
theorem toInt_units (hn : n < 2 ^ 28) :
    0 < toInt (morecoreUnits n * 8 % 2 ^ 32) ∧
      (toInt (morecoreUnits n * 8 % 2 ^ 32)).toNat = morecoreUnits n * 8 := by
  have hnu : 0 < morecoreUnits n ∧ morecoreUnits n < 2 ^ 28 := by
    unfold morecoreUnits
    split <;> omega
  rw [toInt, Nat.mod_eq_of_lt (by omega), if_pos (by omega)]
  omega

/-- There is no memory for `n` cells: no free block is large enough, and `sbrk` fails. -/
def NoRoom (s : Heap) (bs : List Block) (n : Nat) : Prop :=
  (∀ c ∈ bs, c.live = false → c.size < n) ∧ (sbrk s (toInt (morecoreUnits n * 8 % 2 ^ 32))).1 = none

/-- `morecore` fails with `sbrk`, or adds a free block that is large enough. -/
theorem Rep.morecore (h : Rep base lo s bs) (hbase : base < lo) (hn : n < 2 ^ 28) :
    (∃ s', (sbrk s (toInt (morecoreUnits n * 8 % 2 ^ 32))).1 = none ∧
      (∀ k, morecore k s n = some (0, s')) ∧ Rep base lo s' bs ∧ s'.refused = s.refused + 1 ∧
      s'.backward = s.backward) ∨
    ∃ s' bs', (sbrk s (toInt (morecoreUnits n * 8 % 2 ^ 32))).1 ≠ none ∧
      (∀ k, bs.length + 1 < k → morecore k s n = some (s'.freep, s')) ∧
      Rep base lo s' bs' ∧ lives bs' = lives bs ∧ (∃ c ∈ bs', c.live = false ∧ n ≤ c.size) ∧
      bs'.length ≤ bs.length + 1 ∧ s'.refused = s.refused ∧ s'.backward = s.backward := by
  obtain ⟨hpos, hnat⟩ := toInt_units hn
  obtain ⟨nu, hnu⟩ : ∃ nu, nu = morecoreUnits n := ⟨_, rfl⟩
  have hle : n ≤ nu ∧ 0 < nu := by
    rw [hnu, morecoreUnits]
    split <;> omega
  rw [← hnu] at hpos hnat ⊢
  by_cases hgrant : s.grants s.calls = true ∧ s.brk + nu * 8 < 2 ^ 32
  · right
    -- the new memory is a block in use until it is freed
    have hrep : Rep base lo
        ({ s with brk := s.brk + nu * 8, calls := s.calls + 1 }.setSize s.brk nu)
        (bs ++ [⟨s.brk, nu, true⟩]) := by
      have hbrk := h.tiles.le
      have hne : ∀ c ∈ bs, c.addr ≠ s.brk := fun c hc => by
        obtain ⟨-, h1, h2⟩ := h.tiles.bounds hc
        omega
      refine {
        tiles := h.tiles.join (b := ⟨s.brk, nu, true⟩) hle.2 ?_
        merged := ?_
        size := fun c hc => ?_
        base_size := (setSize_size_of_ne (by omega) nu).trans h.base_size
        ring := ?_
        freep := ?_ }
      · exact congrArg (s.brk + ·) (Nat.mul_comm 8 nu)
      · exact isChain_append.mpr ⟨h.merged, isChain_singleton _,
          fun _ _ d hd => .inr (by cases hd; rfl)⟩
      · rcases mem_append.mp hc with hc | hc
        · exact (setSize_size_of_ne (hne c hc) nu).trans (h.size c hc)
        · cases mem_singleton.mp hc
          exact setSize_size_self nu
      · rw [frees_append, frees_cons_live rfl, frees_nil, append_nil]
        exact h.ring.congr fun y _ => setSize_ptr nu
      · rw [frees_append, frees_cons_live rfl, frees_nil, append_nil]
        exact h.freep
    obtain ⟨s', bs', hfree, hrep', hlives, ⟨c, hc, hcf, hcn⟩, hlen, hsame⟩ := hrep.free hbase rfl
    have hsbrk : sbrk s (toInt (nu * 8 % 2 ^ 32)) =
        (some s.brk, { s with brk := s.brk + nu * 8, calls := s.calls + 1 }) := by
      rw [sbrk, if_pos hpos, hnat, if_pos hgrant]
    refine ⟨s', bs', by rw [hsbrk]; exact nofun, fun k hk => ?_, hrep', by rw [hlives]; simp,
      ⟨c, hc, hcf, hle.1.trans hcn⟩, ?_, hsame.refused, hsame.backward⟩
    · have hfree' := hfree k (by simpa using hk)
      rw [Umalloc.morecore, ← hnu]
      simp only [hsbrk]
      rw [hfree', Option.map_some]
    · simpa using hlen
  · left
    have hsbrk : sbrk s (toInt (nu * 8 % 2 ^ 32)) =
        (none, { s with calls := s.calls + 1, refused := s.refused + 1 }) := by
      rw [sbrk, if_pos hpos, hnat, if_neg hgrant]
    refine ⟨{ s with calls := s.calls + 1, refused := s.refused + 1 }, by rw [hsbrk], fun k => ?_, ?_,
      rfl, rfl⟩
    · rw [Umalloc.morecore, ← hnu]
      simp only [hsbrk]
    · exact ⟨h.tiles, h.merged, h.size, h.base_size, h.ring, h.freep⟩

theorem Same.sbrk (h : Same s s') (i : Int) : (sbrk s' i).1 = (sbrk s i).1 := by
  unfold Umalloc.sbrk
  rw [h.brk, h.grants, h.calls]
  split
  · split <;> rfl
  · split
    · rfl
    · split <;> rfl

/-- What `malloc` returns: a null pointer after a failure of `sbrk`, or a block. -/
def Returns (base lo : Nat) (s : Heap) (bs : List Block) (n p : Nat) (s' : Heap)
    (bs' : List Block) : Prop :=
  Rep base lo s' bs' ∧
    ((p = 0 ∧ s'.refused = s.refused + 1 ∧ lives bs' = lives bs) ∨
      ∃ c : Block, c.live = true ∧ c.size = n ∧ p = c.addr + 8 ∧
        (lives bs').Perm (c :: lives bs) ∧ s'.refused = s.refused)

/-- If all blocks are too small then the loop of `malloc` comes to `morecore`. -/
theorem Rep.scan (h : Rep base lo s bs) (hbase : base < lo) (hn : 0 < n)
    (hbig : ∀ c ∈ bs, c.live = false → c.size < n) :
    ∃ L : List Nat, ∀ fuel k, mallocLoop fuel n (k + L.length + 1) s s.freep (s.ptr s.freep) =
      (Umalloc.morecore fuel s n).bind fun r =>
        if r.1 = 0 then some (0, r.2) else mallocLoop fuel n k r.2 r.1 (r.2.ptr r.1) := by
  obtain ⟨L, hperm, hnot, hrun⟩ := h.order hbase
  have hsmall : ∀ y ∈ L ++ [s.freep], s.size y < n := fun y hy => by
    rcases mem_cons.mp (hperm.mem_iff.mp hy) with rfl | hy
    · rw [h.base_size]
      exact hn
    · obtain ⟨c, hc, hcf, rfl⟩ := mem_frees.mp hy
      rw [h.size c hc]
      exact hbig c hc hcf
  have hL : ∀ y ∈ L, s.size y < n ∧ y ≠ s.freep := fun y hy =>
    ⟨hsmall y (mem_append_left _ hy), fun he => hnot (he ▸ hy)⟩
  exact ⟨L, fun fuel k => mallocLoop_more fuel s.freep hrun hL (hsmall s.freep (by simp))⟩

/-- The loop of `malloc` ends: after a call of `morecore` there is a block that is large enough. -/
theorem Rep.mallocLoop (h : Rep base lo s bs) (hbase : base < lo) (hbase0 : 0 < base) (hn : 0 < n)
    (hmax : n < 2 ^ 28) :
    ∃ N p s' bs', (∀ k, N ≤ k → mallocLoop k n k s s.freep (s.ptr s.freep) = some (p, s')) ∧
      Returns base lo s bs n p s' bs' ∧ s'.backward = s.backward ∧ (p = 0 → bs' = bs) ∧
      (p = 0 ↔ NoRoom s bs n) := by
  by_cases hbig : ∃ c ∈ bs, c.live = false ∧ n ≤ c.size
  · obtain ⟨c, s', bs', hfind, hc, htook⟩ := h.find hbase hn hbig
    obtain ⟨d, hd, hdf, hdn⟩ := hbig
    exact ⟨bs.length + 2, c.addr + 8, s', bs', fun k hk => hfind k k hk,
      ⟨htook.rep, .inr ⟨c, htook.live, hc, rfl, htook.perm, htook.same.refused⟩⟩,
      htook.same.backward, nofun, iff_of_false (Nat.succ_ne_zero _) fun hno =>
        absurd (hno.1 d hd hdf) (not_lt.mpr hdn)⟩
  push Not at hbig
  obtain ⟨L, hmore⟩ := h.scan hbase hn hbig
  rcases h.morecore hbase hmax with ⟨s', hfail, hmc, hrep, href, hback⟩ |
    ⟨s1, bs1, hok, hmc, hrep, hlives, hbig1, hlen, href, hback⟩
  · refine ⟨L.length + 1, 0, s', bs, fun k hk => ?_, ⟨hrep, .inl ⟨rfl, href, rfl⟩⟩, hback,
      fun _ => rfl, iff_of_true rfl ⟨hbig, hfail⟩⟩
    obtain ⟨k', rfl⟩ := Nat.exists_eq_add_of_le' hk
    rw [← Nat.add_assoc, hmore, hmc]
    rfl
  · obtain ⟨c, s', bs', hfind, hc, htook⟩ := hrep.find hbase hn hbig1
    have hfreep : s1.freep ≠ 0 := by
      rcases mem_cons.mp hrep.freep with he | hm
      · omega
      · have := (hrep.tiles.frees_bounds hm).1
        omega
    refine ⟨L.length + 1 + (bs.length + 3), c.addr + 8, s', bs', fun k hk => ?_, ⟨htook.rep,
      .inr ⟨c, htook.live, hc, rfl, hlives ▸ htook.perm, htook.same.refused.trans href⟩⟩,
      htook.same.backward.trans hback, nofun, iff_of_false (Nat.succ_ne_zero _) fun hno =>
        hok hno.2⟩
    obtain ⟨k', rfl⟩ := Nat.exists_eq_add_of_le' hk
    have hk' : k' + (L.length + 1 + (bs.length + 3)) = (k' + bs.length + 3) + L.length + 1 := by
      omega
    rw [hk', hmore, hmc _ (by omega), Option.bind_some, if_neg hfreep]
    exact hfind _ _ (by omega)

/-- Before the first call of `malloc`, and after it. -/
def Stands (base lo : Nat) (s : Heap) (bs : List Block) : Prop :=
  (s.freep = 0 ∧ s.brk = lo ∧ bs = []) ∨ Rep base lo s bs

theorem rep_firstInit (hbase : base < lo) (hbase0 : 0 < base) (h : Stands base lo s bs) :
    Rep base lo (firstInit base s) bs ∧ Same s (firstInit base s) := by
  rcases h with ⟨h1, h2, rfl⟩ | h
  · rw [firstInit, if_pos h1]
    have hmem : update s.mem base ⟨base, 0⟩ base = ⟨base, 0⟩ := update_self ..
    refine ⟨⟨h2.symm, List.IsChain.nil, nofun, ?_, ⟨rfl, ?_⟩, mem_singleton_self base⟩,
      ⟨rfl, rfl, rfl, rfl, rfl⟩⟩
    · exact congrArg Header.size hmem
    · exact congrArg Header.ptr hmem
  · have hfreep : s.freep ≠ 0 := by
      rcases mem_cons.mp h.freep with he | hm
      · omega
      · have := (h.tiles.frees_bounds hm).1
        omega
    rw [firstInit, if_neg hfreep]
    exact ⟨h, rfl, rfl, rfl, rfl, rfl⟩

theorem nunits_pos (nbytes : Nat) : 0 < nunits nbytes := Nat.succ_pos _

/-- **`malloc`** ends, and returns a null pointer only if `sbrk` has failed. -/
theorem malloc_spec (hbase : base < lo) (hbase0 : 0 < base) (h : Stands base lo s bs) {nbytes : Nat}
    (hmax : nunits nbytes < 2 ^ 28) :
    ∃ N p s' bs', (∀ k, N ≤ k → malloc base k s nbytes = some (p, s')) ∧
      Returns base lo s bs (nunits nbytes) p s' bs' ∧ s'.backward = s.backward ∧
      (p = 0 → bs' = bs) ∧ (p = 0 ↔ NoRoom s bs (nunits nbytes)) := by
  obtain ⟨hrep, hsame⟩ := rep_firstInit hbase hbase0 h
  obtain ⟨N, p, s', bs', hloop, ⟨hrep', hret⟩, hback, hp, hno⟩ :=
    hrep.mallocLoop hbase hbase0 (nunits_pos nbytes) hmax
  refine ⟨N, p, s', bs', hloop, ⟨hrep', by rwa [hsame.refused] at hret⟩,
    hback.trans hsame.backward, hp, hno.trans ?_⟩
  rw [NoRoom, NoRoom, hsame.sbrk]

theorem nunits_eq {nbytes : Nat} (h : nbytes + 7 < 2 ^ 32) : nunits nbytes = (nbytes + 7) / 8 + 1 := by
  rw [nunits, Nat.mod_eq_of_lt (by omega)]
  rfl

/-- A block of `nunits nbytes` cells has room for `nbytes` bytes behind its header. -/
theorem nunits_room {nbytes : Nat} (h : nbytes + 7 < 2 ^ 32) : nbytes ≤ 8 * (nunits nbytes - 1) := by
  rw [nunits_eq h]
  omega

theorem nunits_lt {nbytes : Nat} (h : nbytes ≤ 2 ^ 30) : nunits nbytes < 2 ^ 28 := by
  rw [nunits_eq (by omega)]
  omega

/-! ### Programs that use the heap -/

/-- What a program does: calls, and stores into the blocks that it has. -/
inductive Op where
  | malloc (nbytes : Nat)
  | free (ap : Nat)
  | store (a : Nat) (h : Header)
  deriving Repr, DecidableEq

/-- The heap, and the pointers that the program has got and not yet freed, each with the number of
bytes that it asked for. -/
structure St where
  heap : Heap
  live : List (Nat × Nat)

/-- One operation. A program only frees pointers that it has, and stores only into the bytes that it
has asked for; anything else is not done. -/
def step (base k : Nat) (st : St) : Op → Option St
  | .malloc nbytes => (malloc base k st.heap nbytes).map fun r =>
      ⟨r.2, if r.1 = 0 then st.live else (r.1, nbytes) :: st.live⟩
  | .free ap =>
    if st.live.any (·.1 = ap) then
      (free k st.heap ap).map (⟨·, st.live.eraseP (·.1 = ap)⟩)
    else some st
  | .store a h =>
    if st.live.any fun q => q.1 ≤ a ∧ a < q.1 + q.2 ∧ (a - q.1) % 8 = 0 then
      some { st with heap := st.heap.put a h }
    else some st

def run (base k : Nat) : List Op → St → Option St
  | [], st => some st
  | op :: ops, st => (step base k st op).bind (run base k ops)

/-- The program has exactly the blocks in use, and each has room for what it asked for. -/
structure Ok (base lo : Nat) (st : St) (bs : List Block) : Prop where
  stands : Stands base lo st.heap bs
  owns : (st.live.map Prod.fst).Perm ((lives bs).map (·.addr + 8))
  room : ∀ q ∈ st.live, ∀ c ∈ lives bs, q.1 = c.addr + 8 → q.2 ≤ 8 * (c.size - 1)

theorem Stands.tiles (h : Stands base lo s bs) : Tiles 8 lo bs s.brk := by
  rcases h with ⟨-, h2, rfl⟩ | h
  · exact h2.symm
  · exact h.tiles

/-- A store into a block leaves the headers. -/
theorem Rep.store (h : Rep base lo s bs) (hbase : base < lo) (hc : c ∈ bs) {a : Nat}
    (h1 : c.addr < a) (h2 : a < c.addr + 8 * c.size) (v : Header) :
    Rep base lo (s.put a v) bs := by
  have haddr : ∀ d ∈ bs, d.addr ≠ a := fun d hd =>
    h.tiles.not_inside (by decide) hc hd h1 h2
  have hb : base ≠ a := by
    have := (h.tiles.bounds hc).1
    omega
  refine { h with
    size := fun d hd => (put_size_of_ne (haddr d hd) v).trans (h.size d hd)
    base_size := (put_size_of_ne hb v).trans h.base_size
    ring := h.ring.congr fun y hy => put_ptr_of_ne ?_ v }
  rcases mem_cons.mp hy with rfl | hy
  · exact hb
  · obtain ⟨d, hd, -, rfl⟩ := mem_frees.mp hy
    exact haddr d hd

namespace Ok

variable {st st' : St}

theorem block (h : Ok base lo st bs) {q : Nat × Nat} (hq : q ∈ st.live) :
    Rep base lo st.heap bs ∧ ∃ c ∈ bs, c.live = true ∧ q.1 = c.addr + 8 ∧
      q.2 ≤ 8 * (c.size - 1) := by
  obtain ⟨c, hc, he⟩ := mem_map.mp (h.owns.mem_iff.mp (mem_map_of_mem (f := Prod.fst) hq))
  obtain ⟨hcb, hcl⟩ := mem_lives.mp hc
  refine ⟨h.stands.resolve_left fun h0 => ?_, c, hcb, hcl, he.symm, h.room q hq c hc he.symm⟩
  rw [h0.2.2] at hcb
  cases hcb

theorem malloc (h : Ok base lo st bs) (hbase : base < lo) (hbase0 : 0 < base) {nbytes : Nat}
    (hmax : nbytes ≤ 2 ^ 30) :
    ∃ N st' bs', (∀ k, N ≤ k → step base k st (.malloc nbytes) = some st') ∧
      Ok base lo st' bs' := by
  obtain ⟨N, p, s', bs', hmalloc, ⟨hrep, hret⟩, -⟩ := malloc_spec hbase hbase0 h.stands (nunits_lt hmax)
  refine ⟨N, ⟨s', if p = 0 then st.live else (p, nbytes) :: st.live⟩, bs', fun k hk => ?_, .inr hrep,
    ?_, ?_⟩
  · rw [step, hmalloc k hk, Option.map_some]
  · rcases hret with ⟨rfl, -, hlives⟩ | ⟨c, -, -, rfl, hperm, -⟩
    · rw [if_pos rfl, hlives]
      exact h.owns
    · rw [if_neg (Nat.succ_ne_zero _)]
      exact (h.owns.cons (c.addr + 8)).trans (hperm.map fun d : Block => d.addr + 8).symm
  · -- the new block has room, and the old ones are the same
    rcases hret with ⟨rfl, -, hlives⟩ | ⟨c, hcl, hcn, rfl, hperm, -⟩
    · dsimp only
      rw [if_pos rfl, hlives]
      exact h.room
    · dsimp only
      rw [if_neg (Nat.succ_ne_zero _)]
      have hinj : ∀ d ∈ lives bs', ∀ e ∈ lives bs', d.addr = e.addr → d = e := fun d hd e he =>
        hrep.tiles.addr_inj (by decide) (mem_lives.mp hd).1 (mem_lives.mp he).1
      have hc : c ∈ lives bs' := hperm.mem_iff.mpr mem_cons_self
      intro q hq d hd he
      rcases mem_cons.mp hq with rfl | hq
      · -- the pointer determines the block
        obtain rfl : c = d := hinj c hc d hd (Nat.add_right_cancel he)
        rw [hcn]
        exact nunits_room (by omega)
      · obtain ⟨-, e, heb, hel, hqe, hroom⟩ := h.block hq
        have he' : e ∈ lives bs' :=
          hperm.mem_iff.mpr (mem_cons_of_mem c (mem_lives.mpr ⟨heb, hel⟩))
        obtain rfl : e = d := hinj e he' d hd (Nat.add_right_cancel (hqe.symm.trans he))
        exact hroom

theorem free (h : Ok base lo st bs) (hbase : base < lo) (ap : Nat) :
    ∃ N st' bs', (∀ k, N ≤ k → step base k st (.free ap) = some st') ∧ Ok base lo st' bs' := by
  by_cases hap : st.live.any (·.1 = ap) = true
  · obtain ⟨q, hq, hqap⟩ := any_eq_true.mp hap
    obtain rfl : q.1 = ap := of_decide_eq_true hqap
    obtain ⟨hrep, c, hcb, hcl, hqc, -⟩ := h.block hq
    obtain ⟨l, r, rfl⟩ := append_of_mem hcb
    obtain ⟨s', bs', hfree, hrep', hlives, -, -, -⟩ := hrep.free hbase hcl
    refine ⟨(l ++ c :: r).length + 1, ⟨s', st.live.eraseP (·.1 = q.1)⟩, bs', fun k hk => ?_,
      .inr hrep', ?_, ?_⟩
    · rw [step, if_pos hap, hqc, hfree k hk, Option.map_some]
    · -- the pointer and the block go
      have hmap : (st.live.eraseP (·.1 = q.1)).map Prod.fst = (st.live.map Prod.fst).erase q.1 := by
        rw [erase_eq_eraseP', eraseP_map]
        rfl
      have herase := h.owns.erase q.1
      rw [lives_append, lives_cons_live hcl, hqc] at herase
      dsimp only
      rw [hmap, hlives, hqc]
      refine herase.trans ?_
      refine (List.Perm.erase _ (perm_middle.map fun d : Block => d.addr + 8)).trans ?_
      rw [map_cons, erase_cons_head]
    · intro q' hq' d hd
      refine h.room q' (mem_of_mem_eraseP hq') d ?_
      rw [hlives] at hd
      rw [lives_append, lives_cons_live hcl]
      rcases mem_append.mp hd with hd | hd
      · exact mem_append_left _ hd
      · exact mem_append_right _ (mem_cons_of_mem c hd)
  · exact ⟨0, st, bs, fun k _ => by rw [step, if_neg hap], h⟩

theorem store (h : Ok base lo st bs) (hbase : base < lo) (a : Nat) (v : Header) (k : Nat) :
    ∃ st', step base k st (.store a v) = some st' ∧ Ok base lo st' bs := by
  rw [step]
  split
  · next hany =>
    obtain ⟨q, hq, hin⟩ := any_eq_true.mp hany
    obtain ⟨h1, h2, -⟩ := of_decide_eq_true hin
    obtain ⟨hrep, c, hcb, -, hqc, hroom⟩ := h.block hq
    refine ⟨_, rfl, .inr (hrep.store hbase hcb ?_ ?_ v), h.owns, h.room⟩
    · omega
    · have := (hrep.tiles.bounds hcb).2.1
      omega
  · exact ⟨st, rfl, h⟩

/-- Every operation ends, and keeps the heap right. -/
theorem step (h : Ok base lo st bs) (hbase : base < lo) (hbase0 : 0 < base) (op : Op)
    (hop : ∀ n, op = .malloc n → n ≤ 2 ^ 30) :
    ∃ N st' bs', (∀ k, N ≤ k → step base k st op = some st') ∧ Ok base lo st' bs' := by
  cases op with
  | malloc n => exact h.malloc hbase hbase0 (hop n rfl)
  | free ap => exact h.free hbase ap
  | store a v =>
    obtain ⟨st', hst', hok⟩ := h.store hbase a v 0
    exact ⟨0, st', bs, fun k _ => hst', hok⟩

theorem run (h : Ok base lo st bs) (hbase : base < lo) (hbase0 : 0 < base) {ops : List Op}
    (hops : ∀ n, .malloc n ∈ ops → n ≤ 2 ^ 30) :
    ∃ N st' bs', (∀ k, N ≤ k → run base k ops st = some st') ∧ Ok base lo st' bs' := by
  induction ops generalizing st bs with
  | nil => exact ⟨0, st, bs, fun _ _ => rfl, h⟩
  | cons op ops ih =>
    obtain ⟨N1, st1, bs1, h1, hok1⟩ := h.step hbase hbase0 op
      fun n he => hops n (he ▸ mem_cons_self)
    obtain ⟨N2, st2, bs2, h2, hok2⟩ := ih hok1 fun n hn => hops n (mem_cons_of_mem op hn)
    refine ⟨max N1 N2, st2, bs2, fun k hk => ?_, hok2⟩
    rw [Umalloc.run, h1 k ((le_max_left _ _).trans hk), Option.bind_some]
    exact h2 k ((le_max_right _ _).trans hk)

end Ok

/-- What holds of the heap at any time, in terms of the blocks `bs` that it is cut into. -/
structure HeapOk (base lo : Nat) (st : St) (bs : List Block) : Prop where
  /-- The blocks tile the memory that `sbrk` has given, so no two of them overlap. -/
  tiles : Tiles 8 lo bs st.heap.brk
  disjoint : bs.Pairwise fun a b => a.addr + 8 * a.size ≤ b.addr
  /-- From the first `malloc` on: the list is circular, `base` and the free blocks in the order of
  their addresses, and `freep` points into it. -/
  ring : st.heap.freep ≠ 0 → Run st.heap.ptr base (base :: frees bs) base ∧
    (base :: frees bs).Pairwise (· < ·) ∧ st.heap.freep ∈ base :: frees bs
  sizes : ∀ b ∈ bs, st.heap.size b.addr = b.size
  /-- No two free blocks touch. -/
  apart : ∀ a ∈ bs, ∀ b ∈ bs, a.live = false → b.live = false → a.addr + 8 * a.size ≠ b.addr
  /-- The other blocks are those that the program has. -/
  owns : (st.live.map Prod.fst).Perm ((lives bs).map (·.addr + 8))
  room : ∀ q ∈ st.live, ∀ c ∈ lives bs, q.1 = c.addr + 8 → q.2 ≤ 8 * (c.size - 1)

theorem Ok.heapOk {st : St} (h : Ok base lo st bs) (hbase : base < lo) : HeapOk base lo st bs where
  tiles := h.stands.tiles
  disjoint := h.stands.tiles.pairwise
  ring hf := by
    have hrep := h.stands.resolve_left fun h0 => hf h0.1
    exact ⟨hrep.ring, hrep.sorted hbase, hrep.freep⟩
  sizes b hb := by
    rcases h.stands with ⟨-, -, rfl⟩ | hrep
    · cases hb
    · exact hrep.size b hb
  apart a ha b hb haf hbf := by
    rcases h.stands with ⟨-, -, rfl⟩ | hrep
    · cases ha
    · exact hrep.tiles.apart (by decide) hrep.merged ha hb haf hbf
  owns := h.owns
  room := h.room

/-- **The heap.** A program starts with a break `lo` above the variable `base` and a null pointer in
`freep`. Whatever it allocates (up to `2 ^ 30` bytes at a time), frees and stores, whenever `sbrk`
fails: all its calls end, and the heap is right then. The next call of `malloc` ends, too, with a
null pointer only if `sbrk` fails in it, and else with a pointer to as many bytes as it was asked
for, which do not overlap those of any other pointer that the program has. -/
theorem heap_ok (base lo : Nat) (s : Heap) (ops : List Op) (hbase0 : 0 < base)
    (hbase : base + 8 ≤ lo) (hfreep : s.freep = 0) (hbrk : s.brk = lo)
    (hops : ∀ n, .malloc n ∈ ops → n ≤ 2 ^ 30) :
    ∃ N st bs, (∀ k, N ≤ k → run base k ops ⟨s, []⟩ = some st) ∧ HeapOk base lo st bs ∧
      ∀ n ≤ 2 ^ 30, ∃ M p s', (∀ k, M ≤ k → malloc base k st.heap n = some (p, s')) ∧
        (p = 0 ∧ s'.refused = st.heap.refused + 1 ∨
          p ≠ 0 ∧ s'.refused = st.heap.refused ∧ lo + 8 ≤ p ∧ p + n ≤ s'.brk ∧
            ∀ q ∈ st.live, q.1 + q.2 ≤ p ∨ p + n ≤ q.1) := by
  have hlt : base < lo := by omega
  have hinit : Ok base lo ⟨s, []⟩ [] := ⟨.inl ⟨hfreep, hbrk, rfl⟩, .refl _, nofun⟩
  obtain ⟨N, st, bs, hrun, hok⟩ := hinit.run hlt hbase0 hops
  refine ⟨N, st, bs, hrun, hok.heapOk hlt, fun n hn => ?_⟩
  obtain ⟨M, p, s', bs', hmalloc, ⟨hrep, hret⟩, -⟩ :=
    malloc_spec hlt hbase0 hok.stands (nunits_lt hn)
  refine ⟨M, p, s', hmalloc, hret.imp (fun h => ⟨h.1, h.2.1⟩) ?_⟩
  rintro ⟨c, hcl, hcn, rfl, hperm, href⟩
  have hc : c ∈ lives bs' := hperm.mem_iff.mpr mem_cons_self
  have hroom : n ≤ 8 * (nunits n - 1) := nunits_room (by omega)
  obtain ⟨hlo, hpos, hhi⟩ := hrep.tiles.bounds (mem_lives.mp hc).1
  refine ⟨Nat.succ_ne_zero _, href, by omega, by omega, fun q hq => ?_⟩
  -- the other block is in the new tiling, and is not `c`
  obtain ⟨-, d, hdb, hdl, hqd, hqroom⟩ := hok.block hq
  have hd : d ∈ lives bs' := hperm.mem_iff.mpr (mem_cons_of_mem c (mem_lives.mpr ⟨hdb, hdl⟩))
  have hdpos := (hrep.tiles.bounds (mem_lives.mp hd).1).2.1
  have hne : c ≠ d := by
    rintro rfl
    have hnd : (lives bs').Nodup := (hrep.tiles.nodup (by decide)).filter _
    exact (nodup_cons.mp (hperm.nodup_iff.mp hnd)).1 (mem_lives.mpr ⟨hdb, hdl⟩)
  have := hrep.tiles.disjoint (mem_lives.mp hc).1 (mem_lives.mp hd).1 hne
  omega

/-- A program that gets two blocks, stores into one and frees the other; the first `sbrk` gives
32768 bytes. -/
def twoBlocks : List Op := [.malloc 100, .malloc 20, .store 36768 ⟨7, 7⟩, .free 36728, .malloc 8]

/-- An empty heap behind a break of 4096, where `sbrk` never fails. -/
def emptyHeap : Heap := ⟨fun _ => ⟨0, 0⟩, 0, 4096, fun _ => true, 0, 0, 0⟩

theorem heap_ok_twoBlocks :
    (run 1000 9 twoBlocks ⟨emptyHeap, []⟩).map (fun st => (st.live, st.heap.freep)) =
      some ([(36744, 8), (36760, 100)], 1000) ∧
    ∃ N st bs, (∀ k, N ≤ k → run 1000 k twoBlocks ⟨emptyHeap, []⟩ = some st) ∧
      HeapOk 1000 4096 st bs := by
  refine ⟨by decide +kernel, ?_⟩
  obtain ⟨N, st, bs, hrun, hok, -⟩ := heap_ok 1000 4096 emptyHeap twoBlocks (by decide) (by decide)
    rfl rfl (by simp [twoBlocks])
  exact ⟨N, st, bs, hrun, hok⟩

/-! ### Requests of any size -/

section Backward

variable {fuel nu ap q : Nat}

theorem free_backward (h : free fuel s ap = some s') : s'.backward = s.backward := by
  obtain ⟨p, -, rfl⟩ := Option.map_eq_some_iff.mp h
  -- only headers and `freep` are written
  show (joinDown (joinUp s _ p) _ p).backward = s.backward
  unfold joinDown joinUp
  split <;> split <;> rfl

theorem sbrk_backward (i : Int) : (sbrk s i).2.backward = s.backward + if 0 < i then 0 else 1 := by
  unfold sbrk
  split
  · split <;> rfl
  · split
    · rfl
    · split <;> rfl

theorem morecore_backward (h : morecore fuel s nu = some (q, s')) :
    s'.backward = s.backward + if 0 < toInt (morecoreUnits nu * 8 % 2 ^ 32) then 0 else 1 := by
  rw [← sbrk_backward]
  unfold morecore at h
  dsimp only at h
  split at h
  · next he =>
    cases h
    rw [he]
  · next he =>
    obtain ⟨s1, hfree, h1⟩ := Option.map_eq_some_iff.mp h
    cases h1
    rw [he, free_backward hfree, Heap.setSize]

/-- Calls with a wrong increment are never undone. -/
theorem mallocLoop_backward : ∀ k s prevp p, mallocLoop fuel n k s prevp p = some (q, s') →
    s.backward ≤ s'.backward
  | 0, _, _, _, h => nomatch h
  | k + 1, s, prevp, p, h => by
    rw [mallocLoop] at h
    split at h
    · -- a block is taken
      have htake : (take s prevp p n).2.backward = s.backward := by
        unfold take
        split <;> rfl
      rw [← htake, Option.some.inj h]
    · split at h
      · obtain ⟨r, hr, h⟩ := Option.bind_eq_some_iff.mp h
        have hmore : s.backward ≤ r.2.backward := by
          rw [morecore_backward hr]
          exact Nat.le_add_right ..
        split at h
        · cases h
          exact hmore
        · exact hmore.trans (mallocLoop_backward k _ _ _ h)
      · exact mallocLoop_backward k _ _ _ h

/-- From `2 ^ 28` cells on, the increment is negative or 0. -/
theorem toInt_units_le {nbytes : Nat} (hn : 2 ^ 28 ≤ nunits nbytes) :
    ¬ 0 < toInt (morecoreUnits (nunits nbytes) * 8 % 2 ^ 32) := by
  have hle : nunits nbytes ≤ 2 ^ 29 := by
    unfold nunits
    omega
  rw [morecoreUnits, if_neg (by omega), toInt]
  split <;> omega

end Backward

/-- What `malloc(nbytes)` should do to a heap with the blocks `bs`: it ends, all calls of `sbrk` have
a positive increment, and it returns a null pointer and leaves the blocks, or a new block in the
memory from `lo` to the break with `nbytes` bytes behind its header. -/
def Safe (base lo : Nat) (s : Heap) (bs : List Block) (nbytes : Nat) (r : Option (Nat × Heap)) :
    Prop :=
  ∃ p s' bs', r = some (p, s') ∧ s'.backward = s.backward ∧ Rep base lo s' bs' ∧
    ((p = 0 ∧ bs' = bs) ∨ ∃ c ∈ bs', (lives bs').Perm (c :: lives bs) ∧ p = c.addr + 8 ∧
      lo ≤ c.addr ∧ c.addr + 8 * c.size ≤ s'.brk ∧ nbytes ≤ 8 * (c.size - 1))

/-- When it does: the number of cells does not wrap, and the memory for them can be asked for in one
positive `int` unless there is a free block for them; or it wraps to 1, but there is no memory even
for that. -/
def Fits (s : Heap) (bs : List Block) (nbytes : Nat) : Prop :=
  (nbytes + 7 < 2 ^ 32 ∧ (nunits nbytes < 2 ^ 28 ∨
    ∃ c ∈ bs, c.live = false ∧ nunits nbytes ≤ c.size)) ∨
  (2 ^ 32 ≤ nbytes + 7 ∧ NoRoom s bs 1)

section Safe

variable {bs' : List Block} {nbytes : Nat}

theorem safe_of_perm (hback : s'.backward = s.backward) (hrep : Rep base lo s' bs')
    (hperm : (lives bs').Perm (c :: lives bs)) (hc : nbytes ≤ 8 * (c.size - 1)) :
    Safe base lo s bs nbytes (some (c.addr + 8, s')) := by
  have hmem : c ∈ bs' := (mem_lives.mp (hperm.mem_iff.mpr mem_cons_self)).1
  obtain ⟨hlo, -, hhi⟩ := hrep.tiles.bounds hmem
  exact ⟨_, s', bs', rfl, hback, hrep, .inr ⟨c, hmem, hperm, rfl, hlo, hhi, hc⟩⟩

/-- Where the number of cells wraps to 1, only a null pointer is safe. -/
theorem safe_wrap (hret : Returns base lo s bs 1 p s' bs') (hback : s'.backward = s.backward)
    (hp : p = 0 → bs' = bs) (hb : 0 < nbytes) :
    Safe base lo s bs nbytes (some (p, s')) ↔ p = 0 := by
  refine ⟨?_, fun h0 => ⟨p, s', bs', rfl, hback, hret.1, .inl ⟨h0, hp h0⟩⟩⟩
  rintro ⟨q, t, bs1, he, -, hrep1, hq | ⟨d, hd, -, hqd, -, -, hroom⟩⟩
  · cases he
    exact hq.1
  · cases he
    rcases hret.2 with ⟨h0, -⟩ | ⟨c, -, hc1, hpc, hperm, -⟩
    · exact h0
    · -- both descriptions of the heap read the size in the header
      have hc : c ∈ bs' := (mem_lives.mp (hperm.mem_iff.mpr mem_cons_self)).1
      have hsize := hret.1.size c hc
      have hsize1 := hrep1.size d hd
      rw [show c.addr = d.addr by omega, hsize1] at hsize
      omega

end Safe

/-- **`malloc` for requests of any size.** For every heap and every `uint` it is safe if and only if
the request fits. -/
theorem malloc_safe_iff (base lo : Nat) (s : Heap) (bs : List Block) (hbase0 : 0 < base)
    (hbase : base < lo) (h : Stands base lo s bs) (nbytes : Nat) (hb : nbytes < 2 ^ 32) :
    ∃ N, ∀ k, N ≤ k → (Safe base lo s bs nbytes (malloc base k s nbytes) ↔ Fits s bs nbytes) := by
  by_cases hn : nunits nbytes < 2 ^ 28
  · obtain ⟨N, p, s', bs', hmalloc, hret, hback, hp, hno⟩ := malloc_spec hbase hbase0 h hn
    refine ⟨N, fun k hk => ?_⟩
    rw [hmalloc k hk]
    by_cases hwrap : nbytes + 7 < 2 ^ 32
    · -- the usual case
      refine iff_of_true ?_ (.inl ⟨hwrap, .inl hn⟩)
      rcases hret.2 with ⟨h0, -⟩ | ⟨c, -, hcn, rfl, hperm, -⟩
      · exact ⟨p, s', bs', rfl, hback, hret.1, .inl ⟨h0, hp h0⟩⟩
      · exact safe_of_perm hback hret.1 hperm (hcn ▸ nunits_room hwrap)
    · have hone : nunits nbytes = 1 := by
        unfold nunits
        omega
      rw [hone] at hret hno
      rw [safe_wrap hret hback hp (by omega), hno, Fits]
      simp only [hwrap, false_and, false_or, not_lt.mp hwrap, true_and]
  have hwrap : nbytes + 7 < 2 ^ 32 := by
    unfold nunits at hn
    omega
  obtain ⟨hrep, hsame⟩ := rep_firstInit hbase hbase0 h
  by_cases hbig : ∃ c ∈ bs, c.live = false ∧ nunits nbytes ≤ c.size
  · -- the memory is there already
    obtain ⟨c, s', bs', hfind, hc, htook⟩ := hrep.find hbase (nunits_pos nbytes) hbig
    refine ⟨bs.length + 2, fun k hk => iff_of_true ?_ (.inl ⟨hwrap, .inr hbig⟩)⟩
    rw [malloc, hfind k k hk]
    exact safe_of_perm (htook.same.backward.trans hsame.backward) htook.rep htook.perm
      (hc ▸ nunits_room hwrap)
  · -- `morecore` calls `sbrk` with the wrong increment, whatever happens after that
    obtain ⟨L, hscan⟩ := hrep.scan hbase (nunits_pos nbytes) fun c hc hcf =>
      not_le.mp fun hle => hbig ⟨c, hc, hcf, hle⟩
    refine ⟨L.length + 1, fun k hk => iff_of_false ?_ ?_⟩
    · rintro ⟨p, s', bs', hmalloc, hback, -⟩
      obtain ⟨k', rfl⟩ := Nat.exists_eq_add_of_le' hk
      rw [malloc, ← Nat.add_assoc, hscan] at hmalloc
      obtain ⟨r, hr, hloop⟩ := Option.bind_eq_some_iff.mp hmalloc
      have hmore := morecore_backward hr
      rw [if_neg (toInt_units_le (not_lt.mp hn)), hsame.backward] at hmore
      have hle : r.2.backward ≤ s'.backward := by
        split at hloop
        · cases hloop
          exact le_rfl
        · exact mallocLoop_backward _ _ _ _ hloop
      omega
    · rintro (⟨-, hlt | hfree⟩ | ⟨hle, -⟩)
      · exact hn hlt
      · exact hbig hfree
      · omega

theorem malloc_safe_hundred : ∃ N, ∀ k, N ≤ k →
    Safe 1000 4096 emptyHeap [] 100 (malloc 1000 k emptyHeap 100) := by
  obtain ⟨N, hN⟩ := malloc_safe_iff 1000 4096 emptyHeap [] (by decide) (by decide)
    (.inl ⟨rfl, rfl, rfl⟩) 100 (by decide)
  exact ⟨N, fun k hk => (hN k hk).mpr (.inl ⟨by decide, .inl (by decide)⟩)⟩

/-- With `2 ^ 31` bytes the increment is negative, and the block is not in the memory; with
`2 ^ 32 - 1` bytes the block has no bytes at all. -/
theorem malloc_unsafe :
    (malloc 1000 9 emptyHeap 0x80000000).map (fun r => (r.1, r.2.brk, r.2.backward)) =
      some (4104, 4096, 1) ∧
    (malloc 1000 9 emptyHeap 0xffffffff).map (fun r => (r.1, r.2.brk, r.2.size (r.1 - 8))) =
      some (36864, 36864, 1) := by
  decide +kernel

end Umalloc

end Xv6
