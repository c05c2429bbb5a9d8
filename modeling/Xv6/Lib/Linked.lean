import Mathlib

/-!
# Linked lists in a heap of pointers

Predicates that relate pointers to the list of nodes they stand for: a chain of `next` pointers that
ends in a null pointer (`Chain`), a circular
doubly linked list (`Ring`), which is a `Segment` whose two ends are the same node, and a singly
linked one, which is a `Run` that ends where it began. `walk` is the loop that follows the pointers
until it finds a node.

Pointers are functions from nodes, of an arbitrary type; an assignment to a field is
`update`. The lemmas say what the assignments do that code makes to such lists.
-/

open Function List

namespace Linked

variable {ν : Type} [DecidableEq ν]

/-! ### Chains -/

/-- Following `next` from `o` visits the nodes of the list, in this order, and ends. -/
def Chain (next : ν → Option ν) : Option ν → List ν → Prop
  | none, [] => True
  | some a, b :: l => a = b ∧ Chain next (next b) l
  | _, _ => False

namespace Chain

variable {next : ν → Option ν} {o o' : Option ν} {a b : ν} {l l' : List ν}

omit [DecidableEq ν]

@[simp] theorem nil_iff : Chain next o [] ↔ o = none := by
  cases o <;> simp [Chain]

@[simp] theorem cons_iff : Chain next o (b :: l) ↔ o = some b ∧ Chain next (next b) l := by
  cases o with
  | none => simp [Chain]
  | some a => simp [Chain]

theorem head? (h : Chain next o l) : o = l.head? := by
  cases l with
  | nil => exact nil_iff.mp h
  | cons b l => exact (cons_iff.mp h).1

theorem append_iff : Chain next o (l ++ l') ↔ ∃ o', Chain next o' l' ∧
    (∀ r, Chain next o' r → Chain next o (l ++ r)) := by
  constructor
  · induction l generalizing o with
    | nil => exact fun h => ⟨o, h, fun _ hr => hr⟩
    | cons b l ih =>
      intro h
      obtain ⟨rfl, hl⟩ := cons_iff.mp h
      obtain ⟨o', h1, h2⟩ := ih hl
      exact ⟨o', h1, fun r hr => cons_iff.mpr ⟨rfl, h2 r hr⟩⟩
  · rintro ⟨o', h1, h2⟩
    exact h2 l' h1

theorem next_eq (h : Chain next o (l ++ b :: l')) : next b = l'.head? := by
  obtain ⟨o', h', -⟩ := append_iff.mp h
  exact (cons_iff.mp h').2.head?

end Chain

theorem Chain.update_of_notMem {next : ν → Option ν} {o x : Option ν} {a : ν} {l : List ν}
    (h : Chain next o l) (ha : a ∉ l) : Chain (update next a x) o l := by
  induction l generalizing o with
  | nil => exact Chain.nil_iff.mpr (Chain.nil_iff.mp h)
  | cons b l ih =>
    obtain ⟨rfl, hl⟩ := Chain.cons_iff.mp h
    have hb : b ≠ a := fun e => ha (e ▸ mem_cons_self)
    refine Chain.cons_iff.mpr ⟨rfl, ?_⟩
    rw [update_of_ne hb]
    exact ih hl fun hm => ha (mem_cons_of_mem _ hm)

/-- The last node of a chain is linked to a new one. -/
theorem Chain.snoc {next : ν → Option ν} {o : Option ν} {a b : ν} {l : List ν}
    (h : Chain next o (l ++ [b])) (hnd : (l ++ [b]).Nodup) (ha : a ∉ l ++ [b])
    (hnext : next a = none) : Chain (update next b (some a)) o (l ++ [b, a]) := by
  have hba : a ≠ b := fun e => ha (e ▸ by simp)
  induction l generalizing o with
  | nil =>
    obtain ⟨rfl, -⟩ := Chain.cons_iff.mp h
    refine Chain.cons_iff.mpr ⟨rfl, ?_⟩
    rw [update_self]
    refine Chain.cons_iff.mpr ⟨rfl, ?_⟩
    rw [update_of_ne hba, hnext]
    exact Chain.nil_iff.mpr rfl
  | cons c l ih =>
    obtain ⟨rfl, hl⟩ := Chain.cons_iff.mp h
    obtain ⟨hc, hnd'⟩ := nodup_cons.mp hnd
    have hcb : c ≠ b := fun e => hc (by simp [e])
    refine Chain.cons_iff.mpr ⟨rfl, ?_⟩
    rw [update_of_ne hcb]
    exact ih hl hnd' fun hm => ha (mem_cons_of_mem _ hm)

/-! ### Circular doubly linked lists -/

/-- Following `next` from `a` visits the nodes of the list and then `b`, and `prev` leads back. -/
def Segment (next prev : ν → ν) : ν → List ν → ν → Prop
  | a, [], b => next a = b ∧ prev b = a
  | a, x :: l, b => next a = x ∧ prev x = a ∧ Segment next prev x l b

namespace Segment

variable {next prev : ν → ν} {a b x y : ν} {l r : List ν}

omit [DecidableEq ν] in
theorem append_iff :
    Segment next prev a (l ++ x :: r) b ↔ Segment next prev a l x ∧ Segment next prev x r b := by
  induction l generalizing a with
  | nil => exact and_assoc.symm
  | cons y l ih =>
    change (_ ∧ _ ∧ Segment next prev y (l ++ x :: r) b) ↔ (_ ∧ _ ∧ _) ∧ _
    rw [ih, and_assoc, and_assoc]

omit [DecidableEq ν] in
theorem next_eq (h : Segment next prev a l b) : next a = l.head?.getD b := by
  cases l with
  | nil => exact h.1
  | cons x l => exact h.1

omit [DecidableEq ν] in
theorem prev_mem (h : Segment next prev a l b) : prev b ∈ a :: l := by
  induction l generalizing a with
  | nil => exact h.2 ▸ mem_cons_self
  | cons x l ih => exact mem_cons_of_mem _ (ih h.2.2)

theorem update_next (h : Segment next prev a l b) (hy : y ∉ a :: l) (v : ν) :
    Segment (update next y v) prev a l b := by
  induction l generalizing a with
  | nil =>
    have hya : a ≠ y := fun e => hy (e ▸ mem_cons_self)
    exact ⟨by rw [update_of_ne hya, h.1], h.2⟩
  | cons x l ih =>
    obtain ⟨h1, h2, h3⟩ := h
    have hya : a ≠ y := fun e => hy (e ▸ mem_cons_self)
    exact ⟨by rw [update_of_ne hya, h1], h2, ih h3 fun hm => hy (mem_cons_of_mem _ hm)⟩

theorem update_prev (h : Segment next prev a l b) (hy : y ∉ l) (hb : b ≠ y) (v : ν) :
    Segment next (update prev y v) a l b := by
  induction l generalizing a with
  | nil => exact ⟨h.1, by rw [update_of_ne hb, h.2]⟩
  | cons x l ih =>
    obtain ⟨h1, h2, h3⟩ := h
    have hyx : x ≠ y := fun e => hy (e ▸ mem_cons_self)
    exact ⟨h1, by rw [update_of_ne hyx, h2], ih h3 fun hm => hy (mem_cons_of_mem _ hm)⟩

theorem set_end (h : Segment next prev a l x) (hnd : (a :: l).Nodup) (hy : y ∉ l) :
    Segment (update next (prev x) y) (update prev y (prev x)) a l y := by
  induction l generalizing a with
  | nil =>
    rw [h.2]
    exact ⟨update_self .., update_self ..⟩
  | cons z l ih =>
    obtain ⟨h1, h2, h3⟩ := h
    obtain ⟨ha, hnd⟩ := nodup_cons.mp hnd
    have hax : a ≠ prev x := fun e => ha (e ▸ h3.prev_mem)
    have hyz : z ≠ y := fun e => hy (e ▸ mem_cons_self)
    exact ⟨by rw [update_of_ne hax, h1], by rw [update_of_ne hyz, h2],
      ih h3 hnd fun hm => hy (mem_cons_of_mem _ hm)⟩

end Segment

/-- A circular list through `head`, with each node once. -/
structure Ring (next prev : ν → ν) (head : ν) (l : List ν) : Prop where
  segment : Segment next prev head l head
  nodup : (head :: l).Nodup

namespace Ring

variable {next prev : ν → ν} {head x : ν} {l r : List ν}

omit [DecidableEq ν] in
theorem next_head (h : Ring next prev head l) : next head = l.head?.getD head := h.segment.next_eq

omit [DecidableEq ν] in
theorem next_eq (h : Ring next prev head (l ++ x :: r)) : next x = r.head?.getD head :=
  (Segment.append_iff.mp h.segment).2.next_eq

/-- A node is taken out: `x->next->prev = x->prev; x->prev->next = x->next`. -/
theorem remove (h : Ring next prev head (l ++ x :: r)) :
    Ring (update next (prev x) (next x)) (update prev (next x) (prev x)) head
      (l ++ r) := by
  obtain ⟨h1, h2⟩ := Segment.append_iff.mp h.segment
  have hnd : (head :: (l ++ r)).Nodup :=
    h.nodup.sublist (((List.Sublist.refl l).append (sublist_cons_self x r)).cons_cons _)
  have hmem : prev x ∈ head :: l := h1.prev_mem
  have hl : (head :: l).Nodup := hnd.sublist ((sublist_append_left l r).cons_cons _)
  refine ⟨?_, hnd⟩
  cases r with
  | nil =>
    rw [append_nil, h2.1]
    exact h1.set_end hl (nodup_cons.mp hl).1
  | cons y r =>
    obtain ⟨h3, h4, h5⟩ := h2
    rw [h3]
    have hsplit := nodup_append.mp (nodup_cons.mp hnd).2
    have hy : y ∉ l := fun hm => hsplit.2.2 y hm y mem_cons_self rfl
    have hyr : y ∉ r := (nodup_cons.mp hsplit.2.1).1
    have hhead : head ∉ l ++ y :: r := (nodup_cons.mp hnd).1
    refine Segment.append_iff.mpr ⟨h1.set_end hl hy, ?_⟩
    -- the rest of the list is not touched
    refine (h5.update_next (fun hm => ?_) _).update_prev hyr (fun e => hhead (by simp [e])) _
    rcases mem_cons.mp hmem with e | hml
    · exact hhead (e ▸ mem_append_right _ hm)
    · exact hsplit.2.2 _ hml _ hm rfl

/-- A node is put at the front: `x->next = head.next; x->prev = head; head.next->prev = x;
head.next = x`. -/
theorem insert (h : Ring next prev head l) (hx : x ∉ head :: l) :
    Ring (update (update next x (next head)) head x)
      (update (update prev x head) (next head) x) head (x :: l) := by
  obtain ⟨hhead, hnd⟩ := nodup_cons.mp h.nodup
  have hxh : x ≠ head := fun e => hx (e ▸ mem_cons_self)
  have hxl : x ∉ l := fun hm => hx (mem_cons_of_mem _ hm)
  have hnext : x ≠ next head := by
    intro e
    rw [h.next_head] at e
    cases l with
    | nil => exact hxh e
    | cons y l => exact hxl (e ▸ mem_cons_self)
  have hxn : update (update next x (next head)) head x x = next head := by
    rw [update_of_ne hxh, update_self]
  have hpn : update (update prev x head) (next head) x (next head) = x :=
    update_self ..
  refine ⟨⟨update_self .., ?_, ?_⟩, ?_⟩
  · rw [update_of_ne hnext, update_self]
  · have hseg := h.segment
    cases l with
    | nil =>
      rw [hseg.1] at hxn hpn ⊢
      exact ⟨hxn, hpn⟩
    | cons y l =>
      obtain ⟨h1, -, h3⟩ := hseg
      rw [h1] at hxn hpn ⊢
      obtain ⟨hy, -⟩ := nodup_cons.mp hnd
      exact ⟨hxn, hpn, (((h3.update_next hxl _).update_next hhead _).update_prev
        (fun hm => hxl (mem_cons_of_mem _ hm)) hxh.symm _).update_prev hy
        (fun e => hhead (e ▸ mem_cons_self)) _⟩
  · exact nodup_cons.mpr ⟨fun hm => (mem_cons.mp hm).elim (fun e => hxh e.symm) hhead,
      nodup_cons.mpr ⟨hxl, hnd⟩⟩

end Ring

/-! ### Runs -/

/-- Following `next` from `a` visits the nodes of the list, in this order, and comes to `b`. -/
def Run (next : ν → ν) : ν → List ν → ν → Prop
  | a, [], b => a = b
  | a, x :: l, b => a = x ∧ Run next (next x) l b

/-- The loop that follows `next` until it finds a node with `S`, for `k` rounds. -/
def walk (next : ν → ν) (S : ν → Prop) [DecidablePred S] : Nat → ν → Option ν
  | 0, _ => none
  | k + 1, a => if S a then some a else walk next S k (next a)

namespace Run

omit [DecidableEq ν]

variable {next next' : ν → ν} {a b c p t v x : ν} {l r : List ν} {S : ν → Prop} {k : Nat}

theorem append_iff :
    Run next a (l ++ r) b ↔ ∃ m, Run next a l m ∧ Run next m r b := by
  induction l generalizing a with
  | nil => exact ⟨fun h => ⟨a, rfl, h⟩, fun ⟨m, hm, h⟩ => hm ▸ h⟩
  | cons y l ih =>
    change (_ ∧ Run next (next y) (l ++ r) b) ↔ ∃ m, (_ ∧ _) ∧ _
    rw [ih]
    exact ⟨fun ⟨h, m, h1, h2⟩ => ⟨m, ⟨h, h1⟩, h2⟩, fun ⟨m, ⟨h, h1⟩, h2⟩ => ⟨h, m, h1, h2⟩⟩

theorem split (h : Run next a (l ++ x :: r) b) : Run next a l x ∧ Run next (next x) r b := by
  obtain ⟨m, h1, rfl, h2⟩ := append_iff.mp h
  exact ⟨h1, h2⟩

theorem join (h1 : Run next a l x) (h2 : Run next (next x) r b) : Run next a (l ++ x :: r) b :=
  append_iff.mpr ⟨x, h1, rfl, h2⟩

theorem congr (h : Run next a l b) (heq : ∀ x ∈ l, next' x = next x) : Run next' a l b := by
  induction l generalizing a with
  | nil => exact h
  | cons y l ih =>
    refine ⟨h.1, heq y mem_cons_self ▸ ih h.2 fun x hx => ?_⟩
    exact heq x (mem_cons_of_mem y hx)

theorem set_last (h : Run next a (l ++ [x]) b) (heq : ∀ y ∈ l, next' y = next y)
    (hx : next' x = v) : Run next' a (l ++ [x]) v :=
  join (h.split.1.congr heq) hx

theorem last (h : Run next a (l ++ [x]) b) : next x = b := h.split.2

/-- A ring may be begun at any of its nodes. -/
theorem rotate (h : Run next c (l ++ x :: r) c) : Run next x (x :: r ++ l) x := by
  obtain ⟨h1, h2⟩ := h.split
  exact append_iff.mpr ⟨c, ⟨rfl, h2⟩, h1⟩

/-- The node before `x` is known by its pointer. -/
theorem before (h : Run next c (c :: l ++ x :: r) c) (hnd : (c :: l ++ x :: r).Nodup)
    (hp : p ∈ c :: l ++ x :: r) (hpx : next p = x) : ∃ pre, c :: l = pre ++ [p] := by
  obtain ⟨l1, l2, he⟩ := append_of_mem hp
  rw [he] at h
  have hrest := h.split.2
  rw [hpx] at hrest
  cases l2 with
  | nil =>
    -- `p` would be the last node, and `x` the first one
    rw [show x = c from hrest] at hnd
    simp at hnd
  | cons y l2 =>
    obtain rfl : x = y := hrest.1
    refine ⟨l1, ?_⟩
    have hx1 : x ∉ c :: l := fun hm => by
      have := nodup_append.mp hnd
      exact this.2.2 x hm x mem_cons_self rfl
    have hr : x ∉ r := (nodup_cons.mp (nodup_append.mp hnd).2.1).1
    rw [show l1 ++ p :: x :: l2 = (l1 ++ [p]) ++ x :: l2 by simp] at he
    exact ((append_cons_inj_of_notMem hx1 hr).mp he).1

section Walk

variable [DecidablePred S]

/-- The loop passes nodes that it does not look for, and stops at the first one that it does. -/
theorem walk_eq (h : Run next a (l ++ x :: r) b) (hl : ∀ y ∈ l, ¬ S y) (hx : S x)
    (hk : l.length < k) : walk next S k a = some x := by
  induction l generalizing a k with
  | nil =>
    obtain ⟨k, rfl⟩ := Nat.exists_eq_add_one_of_ne_zero (Nat.ne_of_gt hk)
    obtain rfl : a = x := h.1
    rw [walk, if_pos hx]
  | cons y l ih =>
    obtain ⟨k, rfl⟩ := Nat.exists_eq_add_one_of_ne_zero (Nat.ne_of_gt (Nat.zero_lt_of_lt hk))
    obtain ⟨rfl, h⟩ : a = y ∧ Run next (next y) (l ++ x :: r) b := h
    rw [walk, if_neg (hl a mem_cons_self)]
    exact ih h (fun z hz => hl z (mem_cons_of_mem a hz)) (Nat.lt_of_succ_lt_succ hk)

/-- In a ring the loop finds the only node that it looks for, wherever it starts. -/
theorem walk_ring (h : Run next c l c) (ha : a ∈ l) (ht : t ∈ l) (hS : ∀ x ∈ l, S x ↔ x = t)
    (hk : l.length ≤ k) : walk next S k a = some t := by
  obtain ⟨l1, l2, rfl⟩ := append_of_mem ha
  have hrot := h.rotate
  have hperm : (a :: l2 ++ l1).Perm (l1 ++ a :: l2) := perm_append_comm
  obtain ⟨pre, post, hsplit, hnot⟩ := eq_append_cons_of_mem (hperm.mem_iff.mpr ht)
  have hlen : pre.length < (l1 ++ a :: l2).length := by
    rw [← hperm.length_eq, hsplit]
    simp
  have hmem : ∀ y, y ∈ pre ++ t :: post → y ∈ l1 ++ a :: l2 := fun y hy =>
    hperm.mem_iff.mp (hsplit ▸ hy)
  rw [hsplit] at hrot
  refine hrot.walk_eq (fun y hy hSy => hnot ?_) ((hS t ht).mpr rfl) (Nat.lt_of_lt_of_le hlen hk)
  have hyt := (hS y (hmem y (mem_append_left _ hy))).mp hSy
  exact hyt ▸ hy

end Walk

end Run

end Linked
