import Mathlib

/-!
# Blocks that tile a stretch of memory

A stretch of memory that is cut into blocks, some of them free: the blocks are a list in the order of
their addresses, each one begins where the one before ends. Sizes are counted in units of `u` bytes.
What an allocator does to such a list is to cut a block in two, to join neighbours, and to add a
block at the end.
-/

namespace Tiling

structure Block where
  addr : Nat
  size : Nat
  live : Bool
  deriving Repr, DecidableEq

/-- The blocks lie one after the other from `lo` to `hi`. -/
def Tiles (u : Nat) : Nat → List Block → Nat → Prop
  | lo, [], hi => lo = hi
  | lo, b :: bs, hi => b.addr = lo ∧ 0 < b.size ∧ Tiles u (lo + u * b.size) bs hi

def frees (bs : List Block) : List Nat := (bs.filter fun b => !b.live).map (·.addr)

def lives (bs : List Block) : List Block := bs.filter (·.live)

/-- No two free blocks touch. -/
def Merged (bs : List Block) : Prop :=
  bs.IsChain fun a b => a.live = true ∨ b.live = true

variable {u lo mid hi x : Nat} {b c : Block} {bs l r : List Block}

@[simp] theorem frees_nil : frees [] = [] := rfl

@[simp] theorem frees_append : frees (l ++ r) = frees l ++ frees r := by
  simp [frees]

theorem frees_cons_live (h : b.live = true) : frees (b :: bs) = frees bs := by
  simp [frees, h]

theorem frees_cons_free (h : b.live = false) : frees (b :: bs) = b.addr :: frees bs := by
  simp [frees, h]

@[simp] theorem lives_nil : lives [] = [] := rfl

@[simp] theorem lives_append : lives (l ++ r) = lives l ++ lives r := by
  simp [lives]

theorem lives_cons_live (h : b.live = true) : lives (b :: bs) = b :: lives bs := by
  simp [lives, h]

theorem lives_cons_free (h : b.live = false) : lives (b :: bs) = lives bs := by
  simp [lives, h]

theorem mem_frees : x ∈ frees bs ↔ ∃ b ∈ bs, b.live = false ∧ b.addr = x := by
  simp [frees, and_assoc]

theorem mem_lives : b ∈ lives bs ↔ b ∈ bs ∧ b.live = true := by
  simp [lives]

namespace Tiles

theorem append_iff :
    Tiles u lo (l ++ r) hi ↔ ∃ mid, Tiles u lo l mid ∧ Tiles u mid r hi := by
  induction l generalizing lo with
  | nil => exact ⟨fun h => ⟨lo, rfl, h⟩, fun ⟨m, hm, h⟩ => hm ▸ h⟩
  | cons b l ih =>
    change (_ ∧ _ ∧ Tiles u _ (l ++ r) hi) ↔ ∃ m, (_ ∧ _ ∧ _) ∧ _
    rw [ih]
    constructor
    · rintro ⟨h1, h2, m, h3, h4⟩
      exact ⟨m, ⟨h1, h2, h3⟩, h4⟩
    · rintro ⟨m, ⟨h1, h2, h3⟩, h4⟩
      exact ⟨h1, h2, m, h3, h4⟩

/-- The parts before and behind a block. -/
theorem split (h : Tiles u lo (l ++ b :: r) hi) :
    Tiles u lo l b.addr ∧ 0 < b.size ∧ Tiles u (b.addr + u * b.size) r hi := by
  obtain ⟨m, h1, rfl, h2, h3⟩ := append_iff.mp h
  exact ⟨h1, h2, h3⟩

theorem join (h1 : Tiles u lo l b.addr) (hb : 0 < b.size)
    (h2 : Tiles u (b.addr + u * b.size) r hi) : Tiles u lo (l ++ b :: r) hi :=
  append_iff.mpr ⟨b.addr, h1, rfl, hb, h2⟩

theorem le (h : Tiles u lo bs hi) : lo ≤ hi := by
  induction bs generalizing lo with
  | nil => exact le_of_eq h
  | cons b bs ih => exact (Nat.le_add_right lo _).trans (ih h.2.2)

theorem bounds (h : Tiles u lo bs hi) (hb : b ∈ bs) :
    lo ≤ b.addr ∧ 0 < b.size ∧ b.addr + u * b.size ≤ hi := by
  obtain ⟨l, r, rfl⟩ := List.append_of_mem hb
  obtain ⟨h1, h2, h3⟩ := h.split
  exact ⟨h1.le, h2, h3.le⟩

theorem pairwise (h : Tiles u lo bs hi) :
    bs.Pairwise fun a b => a.addr + u * a.size ≤ b.addr := by
  induction bs generalizing lo with
  | nil => exact List.Pairwise.nil
  | cons b bs ih =>
    obtain ⟨rfl, -, h⟩ := h
    exact List.pairwise_cons.mpr ⟨fun c hc => (h.bounds hc).1, ih h⟩

theorem frees_bounds (h : Tiles u lo bs hi) (hx : x ∈ frees bs) : lo ≤ x ∧ x ≤ hi := by
  obtain ⟨b, hb, -, rfl⟩ := mem_frees.mp hx
  obtain ⟨h1, -, h2⟩ := h.bounds hb
  exact ⟨h1, (Nat.le_add_right _ _).trans h2⟩

theorem frees_lt (hu : 0 < u) (h : Tiles u lo bs hi) (hx : x ∈ frees bs) : x < hi := by
  obtain ⟨b, hb, -, rfl⟩ := mem_frees.mp hx
  obtain ⟨-, h1, h2⟩ := h.bounds hb
  exact (Nat.lt_add_of_pos_right (Nat.mul_pos hu h1)).trans_le h2

theorem frees_sorted (hu : 0 < u) (h : Tiles u lo bs hi) : (frees bs).Pairwise (· < ·) := by
  induction bs generalizing lo with
  | nil => exact List.Pairwise.nil
  | cons b bs ih =>
    obtain ⟨rfl, hpos, h⟩ := h
    cases hb : b.live with
    | true =>
      rw [frees_cons_live hb]
      exact ih h
    | false =>
      rw [frees_cons_free hb]
      refine List.pairwise_cons.mpr ⟨fun x hx => ?_, ih h⟩
      exact (Nat.lt_add_of_pos_right (Nat.mul_pos hu hpos)).trans_le (h.frees_bounds hx).1

theorem addr_inj (hu : 0 < u) (h : Tiles u lo bs hi) (hb : b ∈ bs) (hc : c ∈ bs)
    (he : b.addr = c.addr) : b = c := by
  obtain ⟨l, r, rfl⟩ := List.append_of_mem hb
  obtain ⟨h1, h2, h3⟩ := h.split
  have hpos := Nat.mul_pos hu h2
  rcases List.mem_append.mp hc with hc | hc
  · obtain ⟨-, hc1, hc2⟩ := h1.bounds hc
    have := Nat.mul_pos hu hc1
    omega
  · rcases List.mem_cons.mp hc with rfl | hc
    · rfl
    · have := (h3.bounds hc).1
      omega

theorem disjoint (h : Tiles u lo bs hi) (hb : b ∈ bs) (hc : c ∈ bs) (hne : b ≠ c) :
    b.addr + u * b.size ≤ c.addr ∨ c.addr + u * c.size ≤ b.addr := by
  obtain ⟨l, r, rfl⟩ := List.append_of_mem hb
  obtain ⟨hl, -, hr⟩ := h.split
  rcases List.mem_append.mp hc with hc | hc
  · exact .inr (hl.bounds hc).2.2
  · rcases List.mem_cons.mp hc with rfl | hc
    · exact absurd rfl hne
    · exact .inl (hr.bounds hc).1

theorem nodup (hu : 0 < u) (h : Tiles u lo bs hi) : bs.Nodup := by
  refine h.pairwise.imp_of_mem fun {a b} ha _ hab he => ?_
  have := Nat.mul_pos hu (h.bounds ha).2.1
  subst he
  omega

theorem not_inside (hu : 0 < u) (h : Tiles u lo bs hi) (hb : b ∈ bs) (hc : c ∈ bs)
    (h1 : b.addr < x) (h2 : x < b.addr + u * b.size) : c.addr ≠ x := by
  obtain ⟨l, r, rfl⟩ := List.append_of_mem hb
  obtain ⟨hl, -, hr⟩ := h.split
  rcases List.mem_append.mp hc with hc | hc
  · obtain ⟨-, hc1, hc2⟩ := hl.bounds hc
    have := Nat.mul_pos hu hc1
    omega
  · rcases List.mem_cons.mp hc with rfl | hc
    · exact h1.ne
    · have := (hr.bounds hc).1
      omega

theorem apart (hu : 0 < u) (h : Tiles u lo bs hi) (hm : Merged bs) (hb : b ∈ bs) (hc : c ∈ bs)
    (hbf : b.live = false) (hcf : c.live = false) : b.addr + u * b.size ≠ c.addr := by
  intro he
  obtain ⟨l, r, rfl⟩ := List.append_of_mem hb
  obtain ⟨h1, h2, h3⟩ := h.split
  have hpos := Nat.mul_pos hu h2
  rcases List.mem_append.mp hc with hc | hc
  · obtain ⟨-, hc1, hc2⟩ := h1.bounds hc
    have := Nat.mul_pos hu hc1
    omega
  rcases List.mem_cons.mp hc with rfl | hc
  · omega
  -- the block behind `b` has the address of `c`, so it is `c`
  cases r with
  | nil => cases hc
  | cons d r =>
    have hd : c = d := h3.addr_inj hu hc List.mem_cons_self (he.symm.trans h3.1.symm)
    have hchain := (List.isChain_cons_cons.mp (List.isChain_append.mp hm).2.1).1
    rw [hbf, ← hd, hcf] at hchain
    simp at hchain

end Tiles

end Tiling
