import Xv6.ShGrammar
import Xv6.Sysfile

/-!
# Running a command

`runcmd` of `sh.c` with the kernel's calls for descriptors and processes. The code is a tree of
calls (`Code`), one for each statement of the source, and a machine interleaves the processes that it
makes with all others (`Step`). A program that was given to `exec`, and every process that has
nothing to do with the shell, may make any call at any time.

Entering `runcmd` is a step of its own (`SysCall.enter`), so that one can speak of the state there.
Nobody is killed.
-/

namespace Xv6

namespace Sh

/-! ### Descriptors -/

/-- What a descriptor refers to: a file that was opened, or an end of a pipe. -/
inductive File where
  | inode (path : List Char) (mode : Nat)
  | pipe (n : Nat) (writable : Bool)
  deriving DecidableEq

/-- `proc->ofile`. -/
abbrev Table := Nat → Option File

def firstFree {α : Type} (t : Nat → Option α) : Option Nat :=
  (List.range NOFILE).find? fun fd => (t fd).isNone

/-- `fdalloc`. -/
def fdalloc (t : Table) (f : File) : Option (Nat × Table) :=
  (firstFree t).map fun fd => (fd, Function.update t fd (some f))

/-- `sys_close`. -/
def sysClose (t : Table) (fd : Nat) : Table := Function.update t fd none

/-- `sys_dup`. -/
def sysDup (t : Table) (fd : Nat) : Int × Table :=
  match t fd with
  | none => (-1, t)
  | some f =>
    match fdalloc t f with
    | none => (-1, t)
    | some (fd', t') => (fd', t')

/-- `sys_pipe`, for the new pipe `n`: the read end, then the write end. -/
def sysPipe (t : Table) (n : Nat) : Option ((Nat × Nat) × Table) := do
  let (fd0, t) ← fdalloc t (.pipe n false)
  let (fd1, t) ← fdalloc t (.pipe n true)
  return ((fd0, fd1), t)

/-! ### The code of the shell -/

/-- From where `runcmd` is called. -/
inductive Role where
  | top
  | redir
  | first
  | rest
  | left
  | right
  | back
  deriving DecidableEq

/-- The calls of the shell. -/
inductive SysCall where
  | close (fd : Nat)
  | dup (fd : Nat)
  | openFile (path : List Char) (mode : Nat)
  | pipe
  | fork
  | wait
  | exec (path : List Char) (argv : List (List Char))
  | printf (fd : Nat) (text : List Char)
  | exit
  /-- `runcmd` is entered. -/
  | enter (role : Role) (cmd : Cmd (List Char))

/-- What a call returns; `pipe` also stores the two descriptors. -/
abbrev SysCall.Ret : SysCall → Type
  | .pipe => Option (Nat × Nat)
  | .exit => Empty
  | _ => Int

/-- Code that makes calls. -/
inductive Code (α : Type) where
  | ret (a : α)
  | call (c : SysCall) (k : c.Ret → Code α)

namespace Code

variable {α β : Type}

def bind : Code α → (α → Code β) → Code β
  | .ret a, f => f a
  | .call c k, f => .call c fun r => (k r).bind f

instance : Monad Code where
  pure := .ret
  bind := bind

end Code

def sys (c : SysCall) : Code c.Ret := .call c .ret

def exit {α : Type} : Code α := .call .exit Empty.elim

def panic {α : Type} (s : String) : Code α := do
  let _ ← sys (.printf 2 (s ++ "\n").toList)
  exit

/-- `fork1`. -/
def fork1 : Code Int := do
  let pid ← sys .fork
  if pid = -1 then panic "fork"
  else return pid

/-- `if(fork1() == 0) child;`, where the child does not return. -/
def forkChild (child : Code Unit) : Code Unit := do
  if (← fork1) = 0 then child
  else return ()

/-- `runcmd`. -/
def runcmd : Cmd (List Char) → Code Unit
  | .exec argv =>
    match argv with
    | [] => exit
    | path :: _ => do
      let _ ← sys (.exec path argv)
      let _ ← sys (.printf 2 ("exec ".toList ++ path ++ " failed\n".toList))
      exit
  | .redir cmd file mode fd => do
    let _ ← sys (.close fd)
    if (← sys (.openFile file mode)) < 0 then
      let _ ← sys (.printf 2 ("open ".toList ++ file ++ " failed\n".toList))
      exit
    else
      let _ ← sys (.enter .redir cmd)
      runcmd cmd
      exit
  | .list left right => do
    forkChild do
      let _ ← sys (.enter .first left)
      runcmd left
    let _ ← sys .wait
    let _ ← sys (.enter .rest right)
    runcmd right
    exit
  | .pipe left right => do
    match ← sys .pipe with
    | none => panic "pipe"
    | some p =>
      forkChild do
        let _ ← sys (.close 1)
        let _ ← sys (.dup p.2)
        let _ ← sys (.close p.1)
        let _ ← sys (.close p.2)
        let _ ← sys (.enter .left left)
        runcmd left
      forkChild do
        let _ ← sys (.close 0)
        let _ ← sys (.dup p.1)
        let _ ← sys (.close p.1)
        let _ ← sys (.close p.2)
        let _ ← sys (.enter .right right)
        runcmd right
      let _ ← sys (.close p.1)
      let _ ← sys (.close p.2)
      let _ ← sys .wait
      let _ ← sys .wait
      exit
  | .back cmd => do
    forkChild do
      let _ ← sys (.enter .back cmd)
      runcmd cmd
    exit

/-! ### A process -/

/-- The two sides of a pipe. -/
inductive Side where
  | left
  | right
  deriving DecidableEq

/-- The state of a process: its descriptors, and what is known of the command that it runs. -/
structure Local where
  ofile : Table
  /-- The command of the last `runcmd` entered, and the descriptors there. -/
  node : Cmd (List Char)
  entry : Table
  /-- The pipe that was made for this command. -/
  pipe : Option Nat
  /-- The sides of pipes on which the process is, the innermost first. -/
  sides : List (Nat × Side)

namespace Local

/-- The process enters `runcmd`. -/
def enter (l : Local) (role : Role) (cmd : Cmd (List Char)) : Local where
  ofile := l.ofile
  node := cmd
  entry := l.ofile
  pipe := none
  sides :=
    match role, l.pipe with
    | .left, some n => (n, .left) :: l.sides
    | .right, some n => (n, .right) :: l.sides
    | _, _ => l.sides

end Local

/-- What a call may return, with the process afterwards; a new pipe is called `n`. The calls `fork`
and `wait` change other processes only, and `exec` returns if it fails. -/
def After (n : Nat) : (c : SysCall) → Local → c.Ret → Local → Prop
  | .close fd, l, _, l' => l' = { l with ofile := sysClose l.ofile fd }
  | .dup fd, l, r, l' => ∃ t, (r, t) = sysDup l.ofile fd ∧ l' = { l with ofile := t }
  | .openFile path mode, l, r, l' => (r = -1 ∧ l' = l) ∨
      ∃ fd t, fdalloc l.ofile (.inode path mode) = some (fd, t) ∧ r = fd ∧ l' = { l with ofile := t }
  | .pipe, l, r, l' => (r = none ∧ l' = l) ∨
      ∃ p t, sysPipe l.ofile n = some (p, t) ∧ r = some p ∧
        l' = { l with ofile := t, pipe := some n }
  | .fork, l, _, l' => l' = l
  | .wait, l, _, l' => l' = l
  | .exec _ _, l, r, l' => r = -1 ∧ l' = l
  | .printf _ _, l, _, l' => l' = l
  | .exit, _, _, _ => False
  | .enter role cmd, l, _, l' => l' = l.enter role cmd

/-! ### The system -/

/-- What a process is doing. -/
inductive Act where
  /-- It runs the code of the shell. -/
  | shell (code : Code Unit)
  /-- It runs some other program. -/
  | user
  | zombie

structure Process where
  act : Act
  /-- Its parent; `none` is `init`. -/
  parent : Option Nat
  loc : Local

/-- The slots of the process table, the number of the next pipe, and (ghost) the pipes that the shell
has made. -/
structure Sys where
  procs : Nat → Option Process
  npipe : Nat
  made : List Nat

namespace Sys

def set (s : Sys) (p : Nat) (q : Option Process) : Sys :=
  { s with procs := Function.update s.procs p q }

end Sys

/-- The next call of a process, and what it does with the result. -/
inductive Next : Act → (c : SysCall) → (c.Ret → Act) → Prop
  | shell (c : SysCall) (k : c.Ret → Code Unit) : Next (.shell (.call c k)) c fun r => .shell (k r)
  | user (c : SysCall) (hc : ∀ role cmd, c ≠ .enter role cmd) : Next .user c fun _ => .user

/-- Calls that neither change other processes nor make a pipe. -/
def SysCall.own : SysCall → Bool
  | .pipe | .fork | .wait | .exit => false
  | _ => true

/-- A process when its parent `p` exits. -/
def Process.orphan (p : Nat) (q : Process) : Process :=
  if q.parent = some p then { q with parent := none } else q

/-- A step of the system, by process `p`. -/
inductive Step (s : Sys) : Sys → Prop
  | own {p q c k r l'} : s.procs p = some q → Next q.act c k → c.own = true →
      After s.npipe c q.loc r l' → Step s (s.set p (some { q with act := k r, loc := l' }))
  | pipe {p q k} {r : Option (Nat × Nat)} {l'} : s.procs p = some q → Next q.act .pipe k →
      After s.npipe .pipe q.loc r l' →
      Step s { s.set p (some { q with act := k r, loc := l' }) with
        npipe := s.npipe + 1
        made := match q.act with
          | .shell _ => s.npipe :: s.made
          | _ => s.made }
  | fork {p q k c} {pid : Int} : s.procs p = some q → Next q.act .fork k → s.procs c = none →
      0 < pid → Step s ((s.set p (some { q with act := k pid })).set c
        (some { act := k 0, parent := some p, loc := q.loc }))
  | forkFail {p q k} : s.procs p = some q → Next q.act .fork k →
      Step s (s.set p (some { q with act := k (-1) }))
  | wait {p q k c z} {pid : Int} : s.procs p = some q → Next q.act .wait k →
      s.procs c = some z → z.act = .zombie → z.parent = some p → c ≠ p →
      Step s ((s.set p (some { q with act := k pid })).set c none)
  /-- No children. -/
  | waitFail {p q k} : s.procs p = some q → Next q.act .wait k →
      (∀ c z, s.procs c = some z → z.parent ≠ some p) →
      Step s (s.set p (some { q with act := k (-1) }))
  | exec {p q path argv k} : s.procs p = some q → Next q.act (.exec path argv) k →
      Step s (s.set p (some { q with act := .user }))
  | exit {p q k} : s.procs p = some q → Next q.act .exit k →
      Step s { s with procs := fun i =>
        (Function.update s.procs p (some { q with
          act := .zombie, loc := { q.loc with ofile := fun _ => none } }) i).map (·.orphan p) }
  /-- `init` waits for its children. -/
  | reap {c z} : s.procs c = some z → z.act = .zombie → z.parent = none → Step s (s.set c none)

/-- The system when the shell's child `p` is about to run `cmd`: it has three descriptors. The others
run other programs. -/
structure Start (cmd : Cmd (List Char)) (p : Nat) (s : Sys) : Prop where
  shell : ∃ q, s.procs p = some q ∧ q.loc.sides = [] ∧
    (∀ fd, (q.loc.ofile fd).isSome ↔ fd < 3) ∧
    q.act = .shell (.call (.enter .top cmd) fun _ => runcmd cmd)
  others : ∀ p' q, s.procs p' = some q → p' ≠ p →
    q.act = .user ∨ q.act = .zombie ∧ ∀ fd, q.loc.ofile fd = none
  /-- Every pipe has its number. -/
  below : ∀ p' q fd n w, s.procs p' = some q → q.loc.ofile fd = some (.pipe n w) → n < s.npipe
  made : s.made = []

end Sh

end Xv6
