import Xv6.Lib.Bytes

/-!
# Programs over a buffered block device

A program is a tree of atomic operations on a machine that has a disk, a buffer
for every sector of it, and a memory of an arbitrary type `μ`. The code that is
modelled is written as such trees (`Prog` is a monad), and everything said about
all of it at once is an induction over the tree.

A buffer that is locked or dirty takes one of the `nbuf` slots of the cache; another one may be
evicted, which does not show in `buf`. With `lim` a limit that is passed stops the machine, without
it that is recorded in `passed` (`run_true_of_run_false`).
-/

open Bytes

namespace Device

/-- Ways in which a program comes to a halt without returning. -/
inductive Stop where
  /-- The code called `panic` with this text. -/
  | panic (msg : String)
  /-- The code called `panic` with this text because a resource ran out. -/
  | exhausted (msg : String)
  /-- The program waits for something only it could release. -/
  | deadlock
  deriving DecidableEq, Repr

/-- The size of the buffer cache, and what it says when it has no buffer left. -/
structure Limits where
  nbuf : Nat
  full : String

/-- The state a program runs on. `ε` is the type of the events it may report. -/
structure Machine (μ ε : Type) where
  /-- What a crash leaves. -/
  disk : Nat → Block
  /-- What reading a sector through the cache gives. -/
  buf : Nat → Block
  /-- The sectors whose buffer is locked. -/
  busy : Finset Nat
  /-- The sectors whose buffer must not be evicted before it is written. -/
  dirty : Finset Nat
  /-- The sector writes made so far, the newest first. -/
  writes : List (Nat × Block)
  /-- The events reported so far, the newest first. -/
  events : List ε
  /-- Whether a limit was passed. -/
  passed : Bool
  mem : μ

/-- The result of a run on a state of type `σ`. -/
inductive Outcome (σ α : Type) where
  | ok (a : α) (s : σ)
  | stop (e : Stop) (s : σ)

namespace Outcome

variable {σ α β : Type}

def bind (x : Outcome σ α) (f : α → σ → Outcome σ β) : Outcome σ β :=
  match x with
  | .ok a s => f a s
  | .stop e s => .stop e s

@[simp] theorem bind_ok (a : α) (s : σ) (f : α → σ → Outcome σ β) :
    (Outcome.ok a s).bind f = f a s := rfl

theorem bind_eq_ok {x : Outcome σ α} {f : α → σ → Outcome σ β} {b : β} {t : σ}
    (h : x.bind f = .ok b t) : ∃ a s, x = .ok a s ∧ f a s = .ok b t := by
  cases x with
  | ok a s => exact ⟨a, s, rfl, h⟩
  | stop e s => cases h

end Outcome

/-! ### Operations and programs -/

inductive Op (μ ε : Type) where
  /-- Lock the buffer of a sector and return its contents; wait while it is locked. -/
  | bread (sec : Nat)
  /-- Change the contents of a buffer in memory. -/
  | store (sec : Nat) (data : Block)
  /-- Write a locked buffer to its sector; it is clean afterwards. -/
  | bwrite (sec : Nat)
  /-- Unlock a buffer. -/
  | brelse (sec : Nat)
  /-- Mark a buffer dirty, so that it stays in the cache. -/
  | pin (sec : Nat)
  /-- Update the memory; the result is the memory before the update. -/
  | mem (f : μ → μ)
  /-- Wait until the memory satisfies `g`, then update it. -/
  | wait (g : μ → Bool) (f : μ → μ)
  /-- Stop unless the memory satisfies `g`: a limit on a resource. -/
  | limit (g : μ → Bool) (msg : String)
  /-- Report an event about the state of the machine. -/
  | emit (e : Machine μ ε → ε)
  | panic (msg : String)
  /-- A point at which another process may run. -/
  | yield

/-- What an operation returns. -/
def Op.Ret {μ ε : Type} : Op μ ε → Type
  | .bread _ => Block
  | .mem _ => μ
  | .panic _ => Empty
  | _ => Unit

/-- A program that returns an `α`. -/
inductive Prog (μ ε α : Type) where
  | ret (a : α)
  | op (o : Op μ ε) (k : o.Ret → Prog μ ε α)

namespace Prog

variable {μ ε α β γ : Type}

def bind : Prog μ ε α → (α → Prog μ ε β) → Prog μ ε β
  | .ret a, f => f a
  | .op o k, f => .op o fun r => (k r).bind f

instance : Monad (Prog μ ε) where
  pure := Prog.ret
  bind := Prog.bind

theorem bind_def (p : Prog μ ε α) (f : α → Prog μ ε β) : p >>= f = p.bind f := rfl

theorem pure_def (a : α) : (pure a : Prog μ ε α) = .ret a := rfl

theorem bind_bind (p : Prog μ ε α) (f : α → Prog μ ε β) (g : β → Prog μ ε γ) :
    (p.bind f).bind g = p.bind fun a => (f a).bind g := by
  induction p with
  | ret a => rfl
  | op o k ih => exact congrArg (Prog.op o) (funext fun r => ih r)

theorem bind_ret (p : Prog μ ε α) : p.bind Prog.ret = p := by
  induction p with
  | ret a => rfl
  | op o k ih => exact congrArg (Prog.op o) (funext fun r => ih r)

instance : LawfulMonad (Prog μ ε) :=
  LawfulMonad.mk' _ (fun p => bind_ret p) (fun _ _ => rfl) bind_bind

end Prog

section Operations

variable {μ ε α : Type}

def bread (sec : Nat) : Prog μ ε Block := .op (.bread sec) .ret
def store (sec : Nat) (data : Block) : Prog μ ε Unit := .op (.store sec data) .ret
def bwrite (sec : Nat) : Prog μ ε Unit := .op (.bwrite sec) .ret
def brelse (sec : Nat) : Prog μ ε Unit := .op (.brelse sec) .ret
def pin (sec : Nat) : Prog μ ε Unit := .op (.pin sec) .ret
def get : Prog μ ε μ := .op (.mem id) .ret
def modify (f : μ → μ) : Prog μ ε Unit := .op (.mem f) fun _ => .ret ()
/-- Update the memory and return it as it was before, in one step. -/
def getModify (f : μ → μ) : Prog μ ε μ := .op (.mem f) .ret
def wait (g : μ → Bool) (f : μ → μ) : Prog μ ε Unit := .op (.wait g f) .ret
def limit (g : μ → Bool) (msg : String) : Prog μ ε Unit := .op (.limit g msg) .ret
def emit (e : Machine μ ε → ε) : Prog μ ε Unit := .op (.emit e) .ret
def halt (msg : String) : Prog μ ε α := .op (.panic msg) nofun
def yield : Prog μ ε Unit := .op .yield .ret

end Operations

/-! ### The two semantics -/

section Run

variable {μ ε α β : Type} (L : Limits)

/-- The number of cache slots in use once `sec` is locked too. -/
def Machine.need (s : Machine μ ε) (sec : Nat) : Nat := (insert sec (s.busy ∪ s.dirty)).card

def exec (lim : Bool) : (o : Op μ ε) → Machine μ ε → Outcome (Machine μ ε) o.Ret
  | .bread sec, s =>
    if sec ∈ s.busy then .stop .deadlock s
    else if L.nbuf < s.need sec then
      if lim then .stop (.exhausted L.full) s
      else .ok (s.buf sec) { s with busy := insert sec s.busy, passed := true }
    else .ok (s.buf sec) { s with busy := insert sec s.busy }
  | .store sec data, s => .ok () { s with buf := Function.update s.buf sec data }
  | .bwrite sec, s =>
    if sec ∈ s.busy then
      .ok () { s with
        disk := Function.update s.disk sec (s.buf sec)
        dirty := s.dirty.erase sec
        writes := (sec, s.buf sec) :: s.writes }
    else .stop (.panic "bwrite") s
  | .brelse sec, s =>
    if sec ∈ s.busy then .ok () { s with busy := s.busy.erase sec }
    else .stop (.panic "brelse") s
  | .pin sec, s => .ok () { s with dirty := insert sec s.dirty }
  | .mem f, s => .ok s.mem { s with mem := f s.mem }
  | .wait g f, s => if g s.mem then .ok () { s with mem := f s.mem } else .stop .deadlock s
  | .limit g msg, s =>
    if g s.mem then .ok () s
    else if lim then .stop (.exhausted msg) s
    else .ok () { s with passed := true }
  | .emit e, s => .ok () { s with events := e s :: s.events }
  | .panic msg, s => .stop (.panic msg) s
  | .yield, s => .ok () s

/-- A program from start to end, alone on the machine. -/
def run (lim : Bool) : Prog μ ε α → Machine μ ε → Outcome (Machine μ ε) α
  | .ret a, s => .ok a s
  | .op o k, s => (exec L lim o s).bind fun r s' => run lim (k r) s'

@[simp] theorem run_ret (lim : Bool) (a : α) (s : Machine μ ε) :
    run L lim (.ret a) s = .ok a s := rfl

@[simp] theorem run_pure (lim : Bool) (a : α) (s : Machine μ ε) :
    run L lim (pure a) s = .ok a s := rfl

theorem run_bind (lim : Bool) (p : Prog μ ε α) (f : α → Prog μ ε β) (s : Machine μ ε) :
    run L lim (p >>= f) s = (run L lim p s).bind fun a s' => run L lim (f a) s' := by
  rw [Prog.bind_def]
  induction p generalizing s with
  | ret a => rfl
  | op o k ih =>
    rw [Prog.bind, run, run]
    cases exec L lim o s with
    | ok r s' => exact ih r s'
    | stop e s' => rfl

/-- A limit that is not enforced is at least recorded: `passed` is never reset. -/
theorem exec_passed {o : Op μ ε} {s s' : Machine μ ε} {r : o.Ret}
    (h : exec L false o s = .ok r s') (hs : s.passed = true) : s'.passed = true := by
  cases o <;> simp only [exec] at h <;> (try split at h) <;> (try split at h) <;>
    cases h <;> first | exact hs | rfl

theorem run_passed {p : Prog μ ε α} {s s' : Machine μ ε} {a : α}
    (h : run L false p s = .ok a s') (hs : s.passed = true) : s'.passed = true := by
  induction p generalizing s with
  | ret a => cases h; exact hs
  | op o k ih =>
    obtain ⟨r, t, h1, h2⟩ := Outcome.bind_eq_ok h
    exact ih r h2 (exec_passed L h1 hs)

/-- Enforcing the limits changes nothing about an operation that returns. -/
theorem exec_false_of_exec_true {o : Op μ ε} {s s' : Machine μ ε} {r : o.Ret}
    (h : exec L true o s = .ok r s') : exec L false o s = .ok r s' := by
  cases o with
  | bread sec =>
    simp only [exec] at h ⊢
    split at h
    · cases h
    · next h1 =>
      split at h
      · cases h
      · next h2 => rw [if_neg h1, if_neg h2]; exact h
  | limit g msg =>
    simp only [exec] at h ⊢
    split at h
    · next h1 => rw [if_pos h1]; exact h
    · cases h
  | _ => exact h

/-- A run under the limits is a run without them. -/
theorem run_false_of_run_true {p : Prog μ ε α} {s s' : Machine μ ε} {a : α}
    (h : run L true p s = .ok a s') : run L false p s = .ok a s' := by
  induction p generalizing s with
  | ret a => exact h
  | op o k ih =>
    obtain ⟨r, t, h1, h2⟩ := Outcome.bind_eq_ok h
    rw [run, exec_false_of_exec_true L h1]
    exact ih r h2

theorem exec_true_of_exec_false {o : Op μ ε} {s s' : Machine μ ε} {r : o.Ret}
    (h : exec L false o s = .ok r s') (hs : s'.passed = false) :
    exec L true o s = .ok r s' := by
  cases o with
  | bread sec =>
    simp only [exec] at h ⊢
    split at h
    · cases h
    · next h1 =>
      split at h
      · cases h; cases hs
      · next h2 => rw [if_neg h1, if_neg h2]; exact h
  | limit g msg =>
    simp only [exec] at h ⊢
    split at h
    · next h1 => rw [if_pos h1]; exact h
    · cases h; cases hs
  | _ => exact h

/-- **Resource soundness.** A run without limits that did not pass one is a run
under the limits. -/
theorem run_true_of_run_false {p : Prog μ ε α} {s s' : Machine μ ε} {a : α}
    (h : run L false p s = .ok a s') (hs : s'.passed = false) :
    run L true p s = .ok a s' := by
  induction p generalizing s with
  | ret a => exact h
  | op o k ih =>
    obtain ⟨r, t, h1, h2⟩ := Outcome.bind_eq_ok h
    have ht : t.passed = false := by
      cases ho : t.passed with
      | false => rfl
      | true => rw [run_passed L h2 ho] at hs; cases hs
    rw [run, exec_true_of_exec_false L h1 ht]
    exact ih r h2

end Run

end Device
