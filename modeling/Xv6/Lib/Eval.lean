import Xv6.Lib.Prog

/-!
# Evaluating programs

`run` is a specification: its sets of buffers are finite sets, which are slow to compute
with. `eval` runs a program on a `Compact` machine, whose sets are bit masks, and
`run_machine` says that the two agree. With it a statement about a concrete run is
decided by evaluation.

`force` makes a number a numeral before it is stored, so that a long run does not pile up
unevaluated terms.
-/

open Bytes

namespace Device

/-- Continue with the value of `n`. -/
def force {α : Type} (n : Nat) (k : Nat → α) : α :=
  match n with
  | 0 => k 0
  | m + 1 => k (m + 1)

theorem force_eq {α : Type} (n : Nat) (k : Nat → α) : force n k = k n := by
  cases n <;> rfl

/-! ### Bit masks -/

/-- The numbers below `2 ^ n` bits of a mask. -/
def maskList : Nat → Nat → List Nat
  | 0, _ => []
  | n + 1, m => if m.testBit n then n :: maskList n m else maskList n m

theorem mem_maskList {n m x : Nat} : x ∈ maskList n m ↔ x < n ∧ m.testBit x = true := by
  induction n with
  | zero => simp [maskList]
  | succ n ih =>
    rw [maskList]
    by_cases hn : m.testBit n = true
    · rw [if_pos hn, List.mem_cons, ih]
      constructor
      · rintro (rfl | ⟨h1, h2⟩)
        · exact ⟨Nat.lt_succ_self _, hn⟩
        · exact ⟨by omega, h2⟩
      · rintro ⟨h1, h2⟩
        by_cases hx : x = n
        · exact Or.inl hx
        · exact Or.inr ⟨by omega, h2⟩
    · rw [if_neg hn, ih]
      refine ⟨fun ⟨h1, h2⟩ => ⟨by omega, h2⟩, fun ⟨h1, h2⟩ => ⟨?_, h2⟩⟩
      have : x ≠ n := fun hx => hn (hx ▸ h2)
      omega

theorem nodup_maskList {n m : Nat} : (maskList n m).Nodup := by
  induction n with
  | zero => exact List.nodup_nil
  | succ n ih =>
    rw [maskList]
    split
    · refine List.nodup_cons.mpr ⟨fun h => ?_, ih⟩
      have := (mem_maskList.mp h).1
      omega
    · exact ih

/-- The set of the bits of a mask. -/
def maskSet (m : Nat) : Finset Nat := ⟨maskList m m, nodup_maskList⟩

theorem mem_maskSet {m x : Nat} : x ∈ maskSet m ↔ m.testBit x = true := by
  change x ∈ maskList m m ↔ _
  rw [mem_maskList]
  exact ⟨And.right, fun h => ⟨Nat.lt_two_pow_self.trans_le (Nat.ge_two_pow_of_testBit h), h⟩⟩

theorem maskSet_zero : maskSet 0 = ∅ := by
  ext x
  simp [mem_maskSet]

/-- The mask with bit `x` set. -/
def maskInsert (m x : Nat) : Nat := m ||| 2 ^ x

/-- The mask with bit `x` cleared. -/
def maskErase (m x : Nat) : Nat := if m.testBit x then m ^^^ 2 ^ x else m

theorem maskSet_insert (m x : Nat) : maskSet (maskInsert m x) = insert x (maskSet m) := by
  ext y
  rw [Finset.mem_insert, mem_maskSet, mem_maskSet, maskInsert, Nat.testBit_or, Bool.or_eq_true,
    Nat.testBit_two_pow, decide_eq_true_eq, eq_comm (a := x), or_comm]

theorem maskSet_erase (m x : Nat) : maskSet (maskErase m x) = (maskSet m).erase x := by
  ext y
  rw [Finset.mem_erase, mem_maskSet, mem_maskSet, maskErase]
  by_cases hx : m.testBit x = true
  · rw [if_pos hx, Nat.testBit_xor, Nat.testBit_two_pow]
    by_cases hy : y = x
    · subst hy
      simp [hx]
    · simp [hy, Ne.symm hy]
  · rw [if_neg hx]
    refine ⟨fun h => ⟨?_, h⟩, And.right⟩
    rintro rfl
    exact hx h

theorem maskSet_union (m m' : Nat) : maskSet (m ||| m') = maskSet m ∪ maskSet m' := by
  ext y
  rw [Finset.mem_union, mem_maskSet, mem_maskSet, mem_maskSet, Nat.testBit_or, Bool.or_eq_true]

/-- The number of bits of a mask. -/
def maskCard (m : Nat) : Nat := (maskList (m.log2 + 1) m).length

theorem card_maskSet (m : Nat) : (maskSet m).card = maskCard m := by
  have hset : maskSet m = (maskList (m.log2 + 1) m).toFinset := by
    ext x
    rw [mem_maskSet, List.mem_toFinset, mem_maskList]
    refine ⟨fun h => ⟨?_, h⟩, And.right⟩
    have h2 := Nat.ge_two_pow_of_testBit h
    have hm : m ≠ 0 := fun h0 => by
      rw [h0, Nat.zero_testBit] at h
      cases h
    exact Nat.lt_succ_iff.mpr ((Nat.le_log2 hm).mpr h2)
  rw [hset, List.toFinset_card_of_nodup nodup_maskList, maskCard]

/-! ### The compact machine -/

/-- A `Machine` with its sets of buffers as masks. -/
structure Compact (μ ε : Type) where
  disk : Nat → Block
  buf : Nat → Block
  busy : Nat
  dirty : Nat
  writes : List (Nat × Block)
  events : List ε
  passed : Bool
  mem : μ

variable {μ ε α : Type} (L : Limits)

/-- The machine a compact machine stands for. -/
def Compact.machine (c : Compact μ ε) : Machine μ ε where
  disk := c.disk
  buf := c.buf
  busy := maskSet c.busy
  dirty := maskSet c.dirty
  writes := c.writes
  events := c.events
  passed := c.passed
  mem := c.mem

/-- A map with one entry changed. -/
def set (f : Nat → Block) (a : Nat) (v : Block) : Nat → Block := fun x => if x = a then v else f x

theorem set_eq (f : Nat → Block) (a : Nat) (v : Block) : set f a v = Function.update f a v := by
  funext x
  rw [Function.update_apply]
  rfl

/-- One operation under the limits. -/
def evalOp : (o : Op μ ε) → Compact μ ε → Outcome (Compact μ ε) o.Ret
  | .bread sec, c => force sec fun sec => force (maskInsert c.busy sec) fun b =>
    if c.busy.testBit sec then .stop .deadlock c
    else if L.nbuf < maskCard (b ||| c.dirty) then .stop (.exhausted L.full) c
    else .ok (c.buf sec) { c with busy := b }
  | .store sec data, c => force sec fun sec => .ok () { c with buf := set c.buf sec data }
  | .bwrite sec, c => force sec fun sec => force (maskErase c.dirty sec) fun d =>
    if c.busy.testBit sec then
      .ok () { c with
        disk := set c.disk sec (c.buf sec)
        dirty := d
        writes := (sec, c.buf sec) :: c.writes }
    else .stop (.panic "bwrite") c
  | .brelse sec, c => force sec fun sec => force (maskErase c.busy sec) fun b =>
    if c.busy.testBit sec then .ok () { c with busy := b } else .stop (.panic "brelse") c
  | .pin sec, c => force (maskInsert c.dirty sec) fun d => .ok () { c with dirty := d }
  | .mem f, c => .ok c.mem { c with mem := f c.mem }
  | .wait g f, c => if g c.mem then .ok () { c with mem := f c.mem } else .stop .deadlock c
  | .limit g msg, c => if g c.mem then .ok () c else .stop (.exhausted msg) c
  | .emit e, c => .ok () { c with events := e c.machine :: c.events }
  | .panic msg, c => .stop (.panic msg) c
  | .yield, c => .ok () c

/-- A program from start to end, under the limits. -/
def eval : Prog μ ε α → Compact μ ε → Outcome (Compact μ ε) α
  | .ret a, c => .ok a c
  | .op o k, c => (evalOp L o c).bind fun r c' => eval (k r) c'

/-- The outcome on machines. -/
def Outcome.machine : Outcome (Compact μ ε) α → Outcome (Machine μ ε) α
  | .ok a c => .ok a c.machine
  | .stop e c => .stop e c.machine

theorem mem_busy_machine {c : Compact μ ε} {sec : Nat} :
    sec ∈ c.machine.busy ↔ c.busy.testBit sec = true := mem_maskSet

theorem need_machine (c : Compact μ ε) (sec : Nat) :
    c.machine.need sec = maskCard (maskInsert c.busy sec ||| c.dirty) := by
  rw [← card_maskSet, maskSet_union, maskSet_insert, Finset.insert_union]
  rfl

theorem exec_machine (o : Op μ ε) (c : Compact μ ε) :
    exec L true o c.machine = (evalOp L o c).machine := by
  cases o with
  | bread sec =>
    simp only [evalOp, force_eq, exec, mem_busy_machine, need_machine]
    split_ifs with hb hn
    · rfl
    · rfl
    · simp only [Outcome.machine, Compact.machine, maskSet_insert]
  | store sec data =>
    simp only [evalOp, force_eq, exec, set_eq]
    rfl
  | bwrite sec =>
    simp only [evalOp, force_eq, exec, set_eq, mem_busy_machine]
    split_ifs with hb
    · simp only [Outcome.machine, Compact.machine, maskSet_erase]
    · rfl
  | brelse sec =>
    simp only [evalOp, force_eq, exec, mem_busy_machine]
    split_ifs with hb
    · simp only [Outcome.machine, Compact.machine, maskSet_erase]
    · rfl
  | pin sec =>
    simp only [evalOp, force_eq, exec, Outcome.machine, Compact.machine, maskSet_insert]
  | mem f => rfl
  | wait g f =>
    simp only [evalOp, exec]
    change (if g c.mem then _ else _) = _
    split_ifs <;> rfl
  | limit g msg =>
    simp only [evalOp, exec]
    change (if g c.mem then _ else _) = _
    split_ifs <;> rfl
  | emit e => rfl
  | panic msg => rfl
  | yield => rfl

/-- **Evaluation is correct**: it gives the run of the machine. -/
theorem run_machine (p : Prog μ ε α) (c : Compact μ ε) :
    run L true p c.machine = (eval L p c).machine := by
  induction p generalizing c with
  | ret a => rfl
  | op o k ih =>
    rw [run, eval, exec_machine]
    cases evalOp L o c with
    | ok r c' => exact ih r c'
    | stop e c' => rfl

/-- What an evaluation stopped with. -/
def Outcome.stopped {σ : Type} : Outcome σ α → Option Stop
  | .ok _ _ => none
  | .stop e _ => some e

theorem run_stop_of_eval {p : Prog μ ε α} {c : Compact μ ε} {e : Stop}
    (h : (eval L p c).stopped = some e) : ∃ s, run L true p c.machine = .stop e s := by
  rw [run_machine]
  cases hr : eval L p c with
  | ok a c' => rw [hr] at h; cases h
  | stop e' c' =>
    rw [hr] at h
    cases h
    exact ⟨c'.machine, rfl⟩

/-- Whether an evaluation returned with a state that satisfies `f`. -/
def Outcome.returned {σ : Type} (f : σ → Bool) : Outcome σ α → Bool
  | .ok _ s => f s
  | .stop _ _ => false

theorem run_ok_of_eval {p : Prog μ ε α} {c : Compact μ ε} {f : Compact μ ε → Bool}
    (h : (eval L p c).returned f = true) :
    ∃ a c', run L true p c.machine = .ok a c'.machine ∧ f c' = true := by
  rw [run_machine]
  cases hr : eval L p c with
  | ok a c' =>
    rw [hr] at h
    exact ⟨a, c', rfl, h⟩
  | stop e c' => rw [hr] at h; cases h

end Device
