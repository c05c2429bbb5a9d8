import Xv6.Lib.Bytes

/-!
# The multiprocessor tables

`mp.c`: the search for the configuration table that the firmware left in memory, and the loop of
`mpinit` over its entries. Memory is what the firmware left, by virtual address; pointers wrap
around.

An entry of an unknown type clears `ismp` but does not move the pointer, so the loop sees it again,
and again (`scan_unknown`); and nothing keeps the number of processors below `NCPU`. Otherwise the
loop ends: `mpinit_ends_iff` says exactly when.
-/

open Bytes

namespace Xv6

namespace Mp

def NCPU : Nat := 8

def MPPROC : UInt8 := 0x00
def MPBUS : UInt8 := 0x01
def MPIOAPIC : UInt8 := 0x02
def MPIOINTR : UInt8 := 0x03
def MPLINTR : UInt8 := 0x04

/-- This processor is the bootstrap processor. -/
def MPBOOT : UInt8 := 0x02

/-! ### The search -/

/-- `p + k`, for a pointer `p` -/
def skip (p k : Nat) : Nat := (p + k) % 2 ^ 32

def p2v (a : Nat) : Nat := skip a 0x80000000

/-- `sum(addr, len)` -/
def sum (mem : Block) (addr len : Nat) : Nat :=
  (List.range len).foldl (fun n i => n + (mem (addr + i)).toNat) 0 % 256

/-- `memcmp` with a string finds no difference. -/
def same (mem : Block) (addr : Nat) (s : List UInt8) : Bool :=
  (List.range s.length).all fun i => mem (addr + i) == s.getD i 0

/-- `mpsearch1`: a `struct mp`, of 16 bytes, in the `len` bytes at `a`. -/
def mpsearch1 (mem : Block) (a len : Nat) : Option Nat :=
  ((List.range (len / 16)).map fun i => p2v a + 16 * i).find? fun p =>
    same mem p [0x5F, 0x4D, 0x50, 0x5F] && sum mem p 16 == 0

/-- `mpsearch` -/
def mpsearch (mem : Block) : Option Nat :=
  let bda := p2v 0x400
  let p := getLE mem (bda + 0x0E) 2 * 16
  let first :=
    if p ≠ 0 then mpsearch1 mem p 1024
    else mpsearch1 mem ((getLE mem (bda + 0x13) 2 * 1024 + 2 ^ 32 - 1024) % 2 ^ 32) 1024
  match first with
  | some mp => some mp
  | none => mpsearch1 mem 0xF0000 0x10000

/-- `conf->length` -/
def length (mem : Block) (conf : Nat) : Nat := getLE mem (conf + 4) 2

/-- `mpconfig`: the addresses of the `struct mp` and of the `struct mpconf`. -/
def mpconfig (mem : Block) : Option (Nat × Nat) :=
  match mpsearch mem with
  | none => none
  | some mp =>
    let physaddr := getLE mem (mp + 4) 4
    let conf := p2v physaddr
    if physaddr = 0 then none
    else if !same mem conf [0x50, 0x43, 0x4D, 0x50] then none
    else if mem (conf + 6) ≠ 1 ∧ mem (conf + 6) ≠ 4 then none
    else if sum mem conf (length mem conf) ≠ 0 then none
    else some (mp, conf)

/-! ### The loop of `mpinit` -/

structure State where
  ismp : Bool
  ncpu : Nat
  ioapicid : UInt8
  lapic : Nat
  /-- The index of `bcpu` in `cpus`. -/
  bcpu : Nat
  /-- `cpus[i].id` -/
  id : Nat → Nat
  /-- The interrupt mode register has been written. -/
  imcr : Bool

/-- An access to `cpus[NCPU]` or behind it. -/
inductive Stop where
  | outside
  deriving DecidableEq, Repr

/-- The `switch` on the entry at `p`: where the pointer is afterwards. -/
def entry (mem : Block) (p : Nat) (s : State) : Except Stop (Nat × State) :=
  if mem p = MPPROC then
    let ismp := s.ismp && s.ncpu == (mem (p + 1)).toNat
    let bcpu := if mem (p + 3) &&& MPBOOT ≠ 0 then s.ncpu else s.bcpu
    if s.ncpu < NCPU then
      .ok (skip p 20, { s with
        ismp, bcpu, id := Function.update s.id s.ncpu s.ncpu, ncpu := s.ncpu + 1 })
    else .error .outside
  else if mem p = MPIOAPIC then .ok (skip p 8, { s with ioapicid := mem (p + 1) })
  else if mem p = MPBUS ∨ mem p = MPIOINTR ∨ mem p = MPLINTR then .ok (skip p 8, s)
  else .ok (p, { s with ismp := false })

/-- The first rounds of the loop from `p` to `e`; `none` if it is not over then. -/
def scan (mem : Block) (e : Nat) : Nat → Nat → State → Option (Except Stop State)
  | 0, _, _ => none
  | n + 1, p, s =>
    if p < e then
      match entry mem p s with
      | .ok (p, s) => scan mem e n p s
      | .error x => some (.error x)
    else some (.ok s)

/-- After the loop. -/
def finish (mem : Block) (mp : Nat) (s : State) : State :=
  if !s.ismp then { s with ncpu := 1, lapic := 0, ioapicid := 0 }
  else { s with imcr := mem (mp + 12) != 0 }

def init : State := ⟨false, 0, 0, 0, 0, fun _ => 0, false⟩

/-- The entries begin after the `struct mpconf`. -/
def first (conf : Nat) : Nat := skip conf 44

/-- The end of the table. -/
def limit (mem : Block) (conf : Nat) : Nat := skip conf (length mem conf)

/-- The first rounds of `mpinit`. -/
def mpinit (n : Nat) (mem : Block) : Option (Except Stop State) :=
  match mpconfig mem with
  | none => some (.ok init)
  | some (mp, conf) =>
    (scan mem (limit mem conf) n (first conf)
      { init with ismp := true, lapic := getLE mem (conf + 36) 4 }).map (·.map (finish mem mp))

/-! ### When it ends -/

/-- The size of an entry of a known type. -/
def size (t : UInt8) : Option Nat :=
  if t = MPPROC then some 20
  else if t = MPIOAPIC then some 8
  else if t = MPBUS ∨ t = MPIOINTR ∨ t = MPLINTR then some 8
  else none

/-- An entry counts as a processor. -/
def procs (t : UInt8) : Nat := if t = MPPROC then 1 else 0

/-- From `p` to `e` there are entries of known types, and `n` of them are processors. -/
inductive Table (mem : Block) (e : Nat) : Nat → Nat → Prop
  | done {p : Nat} : e ≤ p → Table mem e p 0
  | entry {p k n : Nat} : p < e → size (mem p) = some k → Table mem e (skip p k) n →
      Table mem e p (procs (mem p) + n)

/-- Among the entries from `p` to `e` there is one of an unknown type. -/
inductive Unknown (mem : Block) (e : Nat) : Nat → Prop
  | here {p : Nat} : p < e → size (mem p) = none → Unknown mem e p
  | later {p k : Nat} : p < e → size (mem p) = some k → Unknown mem e (skip p k) → Unknown mem e p

variable {mem : Block} {e p k n : Nat} {s s' : State}

theorem Table.not_unknown (h : Table mem e p n) : ¬ Unknown mem e p := by
  induction h with
  | done hp =>
    intro hu
    cases hu with
    | here hlt | later hlt => exact absurd hlt (Nat.not_lt.mpr hp)
  | entry _ hk _ ih =>
    intro hu
    cases hu with
    | here _ hnone => cases hk.symm.trans hnone
    | later _ hk' hu =>
      cases hk.symm.trans hk'
      exact ih hu

/-- A round on an entry of a known type passes it, if there is room for the processor. -/
theorem entry_known (hk : size (mem p) = some k) :
    (s.ncpu + procs (mem p) ≤ NCPU → ∃ s', entry mem p s = .ok (skip p k, s') ∧
      s'.ncpu = s.ncpu + procs (mem p)) ∧
    (NCPU < s.ncpu + procs (mem p) → s.ncpu ≤ NCPU → entry mem p s = .error .outside) := by
  rw [size] at hk
  rw [entry, procs]
  by_cases hproc : mem p = MPPROC
  · simp only [if_pos hproc] at hk ⊢
    cases hk
    refine ⟨fun hroom => ⟨_, if_pos hroom, rfl⟩, fun hfull _ => if_neg (by omega)⟩
  · simp only [if_neg hproc] at hk ⊢
    refine ⟨fun _ => ?_, fun hfull hle => absurd hfull (by omega)⟩
    by_cases hapic : mem p = MPIOAPIC
    · rw [if_pos hapic] at hk
      cases hk
      exact ⟨_, if_pos hapic, rfl⟩
    · rw [if_neg hapic] at hk ⊢
      split at hk
      · next hother =>
        cases hk
        exact ⟨s, if_pos hother, rfl⟩
      · cases hk

theorem entry_unknown (hk : size (mem p) = none) :
    entry mem p s = .ok (p, { s with ismp := false }) := by
  have hproc : mem p ≠ MPPROC := fun h => by rw [size, if_pos h] at hk; cases hk
  rw [size, if_neg hproc] at hk
  have hapic : mem p ≠ MPIOAPIC := fun h => by rw [if_pos h] at hk; cases hk
  rw [if_neg hapic] at hk
  rw [entry, if_neg hproc, if_neg hapic, if_neg fun h => by rw [if_pos h] at hk; cases hk]

/-- The loop does not end on an entry of an unknown type. -/
theorem scan_unknown (hp : p < e) (hk : size (mem p) = none) (n : Nat) : scan mem e n p s = none := by
  induction n generalizing s with
  | zero => rfl
  | succ n ih =>
    rw [scan, if_pos hp, entry_unknown hk]
    exact ih

theorem scan_of_table (h : Table mem e p n) :
    ∀ s : State, s.ncpu + n ≤ NCPU → ∃ m s', scan mem e m p s = some (.ok s') := by
  induction h with
  | done hp => exact fun s _ => ⟨1, s, by rw [scan, if_neg (Nat.not_lt.mpr hp)]⟩
  | entry hp hk _ ih =>
    intro s hroom
    obtain ⟨s₁, he, hn⟩ := (entry_known (s := s) hk).1 (by omega)
    obtain ⟨m, s', hm⟩ := ih s₁ (by omega)
    refine ⟨m + 1, s', ?_⟩
    rw [scan, if_pos hp, he]
    exact hm

/-- A loop that ends has passed every entry. -/
theorem table_of_scan : ∀ m p (s : State), s.ncpu ≤ NCPU → scan mem e m p s = some (.ok s') →
    ∃ n, s.ncpu + n ≤ NCPU ∧ Table mem e p n := by
  intro m
  induction m with
  | zero => nofun
  | succ m ih =>
    intro p s hle hm
    rw [scan] at hm
    split at hm
    · next hp =>
      cases hk : size (mem p) with
      | none =>
        -- the pointer is where it was, and there the loop does not end
        rw [entry_unknown hk] at hm
        cases (scan_unknown hp hk m).symm.trans hm
      | some k =>
        by_cases hroom : s.ncpu + procs (mem p) ≤ NCPU
        · obtain ⟨s₁, he, hn⟩ := (entry_known hk).1 hroom
          rw [he] at hm
          obtain ⟨n, hle', ht⟩ := ih _ s₁ (by omega) hm
          exact ⟨procs (mem p) + n, by omega, .entry hp hk ht⟩
        · rw [(entry_known hk).2 (by omega) hle] at hm
          cases hm
    · next hp => exact ⟨0, hle, .done (Nat.not_lt.mp hp)⟩

/-- **Scanning the multiprocessor table.** For every table that `mpconfig` accepts: `mpinit` ends, uses
no index from `NCPU` on, and falls back to one processor if there is an entry of an unknown type, if
and only if there is no such entry and there are at most `NCPU` processors. -/
theorem mpinit_ends_iff (mem : Block) (mp conf : Nat) (h : mpconfig mem = some (mp, conf)) :
    (∃ n s, mpinit n mem = some (.ok s) ∧
      (Unknown mem (limit mem conf) (first conf) → s.ismp = false ∧ s.ncpu = 1)) ↔
    ∃ n ≤ NCPU, Table mem (limit mem conf) (first conf) n := by
  constructor
  · rintro ⟨m, s, hm, -⟩
    simp only [mpinit, h] at hm
    obtain ⟨x, hx, hmap⟩ := Option.map_eq_some_iff.mp hm
    cases x with
    | error x => cases hmap
    | ok s' =>
      obtain ⟨n, hn, ht⟩ := table_of_scan m _ _ (Nat.zero_le NCPU) hx
      exact ⟨n, (Nat.zero_add n) ▸ hn, ht⟩
  · rintro ⟨n, hn, ht⟩
    obtain ⟨m, s, hm⟩ := scan_of_table ht
      { init with ismp := true, lapic := getLE mem (conf + 36) 4 } ((Nat.zero_add n).le.trans hn)
    refine ⟨m, finish mem mp s, ?_, fun hu => absurd hu ht.not_unknown⟩
    simp only [mpinit, h, hm]
    rfl

/-- A memory with a `struct mp`, a `struct mpconf` with the given length and checksum, and entries. -/
def firmware (length checksum : UInt8) (entries : List UInt8) : Block := fun a =>
  if a < p2v 0x1000 then if a = p2v 0x40F then 1 else 0
  else if a < p2v 0x2000 then
    ([0x5F, 0x4D, 0x50, 0x5F, 0, 0x20, 0, 0, 1, 4, 0x80] : List UInt8).getD (a - p2v 0x1000) 0
  else if a < p2v 0x202C then
    ([0x50, 0x43, 0x4D, 0x50, length, 0, 4, checksum] : List UInt8).getD (a - p2v 0x2000) 0
  else entries.getD (a - p2v 0x202C) 0

/-- One processor. -/
theorem mpinit_ends_one : ∃ n s, mpinit n (firmware 64 0x8C []) = some (.ok s) ∧
    (Unknown (firmware 64 0x8C []) (p2v 0x2040) (p2v 0x202C) → s.ismp = false ∧ s.ncpu = 1) :=
  (mpinit_ends_iff (firmware 64 0x8C []) (p2v 0x1000) (p2v 0x2000) (by decide +kernel)).mpr
    ⟨1, by decide, .entry (k := 20) (n := 0) (by decide) (by decide +kernel) (.done (by decide))⟩

/-- An entry of type 5, and nine processors. -/
theorem mpinit_fails : (mpconfig (firmware 45 0x9A [5])).isSome = true ∧
    (∀ n, mpinit n (firmware 45 0x9A [5]) = none) ∧
    (mpinit 20 (firmware 224 0xC8 ((List.range 9).flatMap fun i => 0 :: UInt8.ofNat i ::
      List.replicate 18 0))).map (·.map State.ncpu) = some (.error .outside) := by
  have hconf : mpconfig (firmware 45 0x9A [5]) = some (p2v 0x1000, p2v 0x2000) := by decide +kernel
  refine ⟨by rw [hconf]; rfl, fun n => ?_, by decide +kernel⟩
  simp only [mpinit, hconf]
  rw [scan_unknown (by decide) (by decide)]
  rfl

end Mp

end Xv6
