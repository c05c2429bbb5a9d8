import Xv6.Lib.Monitor
import Xv6.Lib.Ring

/-!
# Pipes

`pipewrite`, `piperead` and `pipeclose` of `pipe.c`, as programs of a monitor: the data is
`struct pipe`, the lock is `p->lock`, and the channels are the addresses of its two counters.
Any number of processes call them in any order, and `kill` each other. When the ends are closed and
the page is freed is left to `file.c`.

What has happened is kept in a history. The bytes accepted and delivered so far are read off it,
and `Honest` says that the calls returned what they did.
-/

namespace Xv6

namespace PipeBuf

open Monitor

def PIPESIZE : Nat := 512

/-- What processes sleep on: `&p->nread` or `&p->nwrite`. -/
inductive Chan where
  | nread
  | nwrite
  deriving DecidableEq, Repr

/-- What has happened: process `p` has put a byte into the pipe or got one out of it; its call
`pipewrite(.., addr, n)` or `piperead(.., n)` returns `r`; the write end (`w`) or the read end was
closed. -/
inductive Event where
  | put (p : Nat) (b : UInt8)
  | got (p : Nat) (b : UInt8)
  | wrote (p : Nat) (addr : Nat → UInt8) (n : Int) (r : Int)
  | read (p : Nat) (n : Int) (r : Int)
  | close (w : Bool)

/-- `struct pipe`, and what has happened, the latest first. -/
structure Buf where
  data : Nat → UInt8
  nread : UInt32
  nwrite : UInt32
  readopen : Bool
  writeopen : Bool
  hist : List Event

namespace Buf

def log (d : Buf) (e : Event) : Buf := { d with hist := e :: d.hist }

/-- `p->nread == p->nwrite` -/
def empty (d : Buf) : Bool := d.nread == d.nwrite

/-- `p->nwrite == p->nread + PIPESIZE` -/
def full (d : Buf) : Bool := d.nwrite == d.nread + UInt32.ofNat PIPESIZE

/-- `p->data[p->nwrite++ % PIPESIZE] = b` -/
def put (d : Buf) (p : Nat) (b : UInt8) : Buf :=
  { d with
    data := Function.update d.data (d.nwrite % UInt32.ofNat PIPESIZE).toNat b
    nwrite := d.nwrite + 1
    hist := .put p b :: d.hist }

/-- `.. = p->data[p->nread++ % PIPESIZE]` -/
def get (d : Buf) (p : Nat) : Buf :=
  { d with
    nread := d.nread + 1
    hist := .got p (d.data (d.nread % UInt32.ofNat PIPESIZE).toNat) :: d.hist }

/-- What `pipeclose` does to the pipe. -/
def close (d : Buf) (writable : Bool) : Buf :=
  if writable then { d with writeopen := false, hist := .close true :: d.hist }
  else { d with readopen := false, hist := .close false :: d.hist }

end Buf

/-- The statements of `pipewrite`. -/
inductive WriteAt where
  | enter
  /-- `for(i < n)` and `while(p->nwrite == p->nread + PIPESIZE)` -/
  | loop
  /-- `p->readopen == 0` -/
  | full
  /-- `proc->killed` -/
  | killed
  | wake
  | sleep
  | fail
  /-- The `wakeup` after the loop. -/
  | wakeLast
  | done
  | leave
  deriving DecidableEq, Repr

/-- The statements of `piperead`. -/
inductive ReadAt where
  | enter
  /-- `while(p->nread == p->nwrite && p->writeopen)` -/
  | loop
  /-- `proc->killed` -/
  | killed
  | sleep
  | fail
  /-- `for(i < n)` -/
  | copy
  | wake
  | leave
  deriving DecidableEq, Repr

/-- The statements of `pipeclose`. -/
inductive CloseAt where
  | enter
  | set
  | wake
  | leave
  deriving DecidableEq, Repr

/-- Where a process is, with its arguments and the loop counter `i`. -/
inductive Pc where
  | idle
  | write (addr : Nat → UInt8) (n : Int) (i : Nat) (l : WriteAt)
  | read (n : Int) (i : Nat) (l : ReadAt)
  | close (writable : Bool) (l : CloseAt)

/-- `pipewrite(p, addr, n)` -/
def pipewrite (p : Nat) (addr : Nat → UInt8) (n : Int) (i : Nat) : WriteAt → Instr Buf Pc Chan
  | .enter => .acquire (.write addr n 0 .loop)
  | .loop => .data fun d =>
    if i < n then
      if d.full then (d, .write addr n i .full)
      else (d.put p (addr i), .write addr n (i + 1) .loop)
    else (d, .write addr n i .wakeLast)
  | .full => .data fun d =>
    (d, if d.readopen then .write addr n i .killed else .write addr n i .fail)
  | .killed => .killed (.write addr n i .fail) (.write addr n i .wake)
  | .wake => .wakeup .nread (.write addr n i .sleep)
  | .sleep => .sleep .nwrite (.write addr n i .loop)
  | .fail => .data fun d => (d.log (.wrote p addr n (-1)), .write addr n i .leave)
  | .wakeLast => .wakeup .nread (.write addr n i .done)
  | .done => .data fun d => (d.log (.wrote p addr n n), .write addr n i .leave)
  | .leave => .release .idle

/-- `piperead(p, .., n)` -/
def piperead (p : Nat) (n : Int) (i : Nat) : ReadAt → Instr Buf Pc Chan
  | .enter => .acquire (.read n 0 .loop)
  | .loop => .data fun d =>
    (d, if d.empty ∧ d.writeopen then .read n i .killed else .read n i .copy)
  | .killed => .killed (.read n i .fail) (.read n i .sleep)
  | .sleep => .sleep .nread (.read n i .loop)
  | .fail => .data fun d => (d.log (.read p n (-1)), .read n i .leave)
  | .copy => .data fun d =>
    if i < n ∧ ¬ d.empty then (d.get p, .read n (i + 1) .copy)
    else (d.log (.read p n i), .read n i .wake)
  | .wake => .wakeup .nwrite (.read n i .leave)
  | .leave => .release .idle

/-- `pipeclose(p, writable)` -/
def pipeclose (writable : Bool) : CloseAt → Instr Buf Pc Chan
  | .enter => .acquire (.close writable .set)
  | .set => .data fun d => (d.close writable, .close writable .wake)
  | .wake => .wakeup (if writable then .nread else .nwrite) (.close writable .leave)
  | .leave => .release .idle

/-- The calls. -/
inductive Op where
  | write (addr : Nat → UInt8) (n : Int)
  | read (n : Int)
  | close (writable : Bool)

/-- The three functions as a program of the monitor. -/
def pipe : Prog Buf Pc Chan Op where
  instr p
    | .idle => .idle
    | .write addr n i l => pipewrite p addr n i l
    | .read n i l => piperead p n i l
    | .close w l => pipeclose w l
  entry
    | .write addr n => .write addr n 0 .enter
    | .read n => .read n 0 .enter
    | .close w => .close w .enter

/-- A pipe after `pipealloc`. What the page held before is there still. -/
def Buf.new (junk : Nat → UInt8) : Buf where
  data := junk
  nread := 0
  nwrite := 0
  readopen := true
  writeopen := true
  hist := []

/-- The processes that use a new pipe, all outside of it. -/
def init (junk : Nat → UInt8) : State Buf Pc Chan := start (Buf.new junk) .idle

/-! ### The history -/

/-- The bytes accepted from the writers, in order. -/
def accepted : List Event → List UInt8
  | [] => []
  | .put _ b :: h => accepted h ++ [b]
  | _ :: h => accepted h

/-- The bytes delivered to the readers, in order. -/
def delivered : List Event → List UInt8
  | [] => []
  | .got _ b :: h => delivered h ++ [b]
  | _ :: h => delivered h

/-- The bytes that process `p` has put into the pipe in its present call, in order. -/
def putBy (p : Nat) : List Event → List UInt8
  | [] => []
  | .put q b :: h => if q = p then putBy p h ++ [b] else putBy p h
  | .wrote q _ _ _ :: h => if q = p then [] else putBy p h
  | _ :: h => putBy p h

/-- The bytes that process `p` has got in its present call, in order. -/
def gotBy (p : Nat) : List Event → List UInt8
  | [] => []
  | .got q b :: h => if q = p then gotBy p h ++ [b] else gotBy p h
  | .read q _ _ :: h => if q = p then [] else gotBy p h
  | _ :: h => gotBy p h

/-- An end was closed. -/
def closed (w : Bool) : List Event → Bool
  | [] => false
  | .close w' :: h => w' == w || closed w h
  | _ :: h => closed w h

/-- The first `n` bytes at `addr`. -/
def bytes (addr : Nat → UInt8) (n : Nat) : List UInt8 := (List.range n).map addr

/-- What a call of `pipewrite(.., addr, n)` has done if it returns `r` after it put `l`. -/
def Wrote (addr : Nat → UInt8) (n r : Int) (l : List UInt8) : Prop :=
  r = n ∧ l = bytes addr n.toNat ∨ r = -1 ∧ l <+: bytes addr n.toNat

/-- What a call of `piperead(.., n)` has done if it returns `r` after it got `l`; `eof` says that
there is nothing left to read and the write end is closed. -/
def Read (n r : Int) (l : List UInt8) (eof : Prop) : Prop :=
  r = l.length ∧ l.length ≤ n.toNat ∧ (0 < n → r = 0 → eof) ∨ r = -1 ∧ l = []

/-- Everything was read and nothing more will come. -/
def Eof (h : List Event) : Prop := delivered h = accepted h ∧ closed true h = true

/-- Every call returned what it did. -/
def Honest : List Event → Prop
  | [] => True
  | .wrote p addr n r :: h => Wrote addr n r (putBy p h) ∧ Honest h
  | .read p n r :: h => Read n r (gotBy p h) (Eof h) ∧ Honest h
  | _ :: h => Honest h

/-- The process that an event is about. -/
def Event.actor : Event → Option Nat
  | .put p _ => some p
  | .got p _ => some p
  | .wrote p _ _ _ => some p
  | .read p _ _ => some p
  | .close _ => none

variable {d : Buf} {p q : Nat} {b : UInt8} {addr : Nat → UInt8} {n r : Int} {h : List Event}
  {e : Event}

theorem putBy_of_ne (he : e.actor ≠ some q) : putBy q (e :: h) = putBy q h := by
  cases e with
  | put p b => exact if_neg fun hq => he (congrArg some hq)
  | wrote p addr n r => exact if_neg fun hq => he (congrArg some hq)
  | got p b => rfl
  | read p n r => rfl
  | close w => rfl

theorem gotBy_of_ne (he : e.actor ≠ some q) : gotBy q (e :: h) = gotBy q h := by
  cases e with
  | got p b => exact if_neg fun hq => he (congrArg some hq)
  | read p n r => exact if_neg fun hq => he (congrArg some hq)
  | put p b => rfl
  | wrote p addr n r => rfl
  | close w => rfl

@[simp] theorem putBy_put_self : putBy p (.put p b :: h) = putBy p h ++ [b] := if_pos rfl

@[simp] theorem gotBy_got_self : gotBy p (.got p b :: h) = gotBy p h ++ [b] := if_pos rfl

@[simp] theorem putBy_wrote_self : putBy p (.wrote p addr n r :: h) = [] := if_pos rfl

@[simp] theorem gotBy_read_self : gotBy p (.read p n r :: h) = [] := if_pos rfl

theorem bytes_succ (addr : Nat → UInt8) (i : Nat) : bytes addr (i + 1) = bytes addr i ++ [addr i] := by
  simp [bytes, List.range_succ]

theorem bytes_isPrefix {i m : Nat} (hi : i ≤ m) : bytes addr i <+: bytes addr m := by
  obtain ⟨j, rfl⟩ := Nat.exists_eq_add_of_le hi
  rw [bytes, bytes, List.range_add, List.map_append]
  exact List.prefix_append ..

/-! ### The pipe -/

/-- The counters and the buffer say what the history says. -/
structure Ok (d : Buf) : Prop where
  read : d.nread = UInt32.ofNat (delivered d.hist).length
  write : d.nwrite = UInt32.ofNat (accepted d.hist).length
  ring : Ring.Holds PIPESIZE d.data (accepted d.hist) (delivered d.hist).length
  fifo : delivered d.hist <+: accepted d.hist
  honest : Honest d.hist
  writeEnd : d.writeopen = !closed true d.hist
  readEnd : d.readopen = !closed false d.hist

theorem ok_new (junk : Nat → UInt8) : Ok (Buf.new junk) where
  read := rfl
  write := rfl
  ring := Ring.holds_nil
  fifo := List.prefix_rfl
  honest := trivial
  writeEnd := rfl
  readEnd := rfl

namespace Ok

theorem empty_iff (h : Ok d) : d.empty = true ↔ delivered d.hist = accepted d.hist := by
  have h1 := h.ring.le
  have h2 := h.ring.room
  rw [Buf.empty, beq_iff_eq, h.read, h.write, eq_comm,
    Ring.ofNat_inj h1 (by have : PIPESIZE = 512 := rfl; omega)]
  exact ⟨fun he => h.fifo.eq_of_length he.symm, fun he => by rw [he]⟩

theorem full_iff (h : Ok d) :
    d.full = true ↔ (accepted d.hist).length = (delivered d.hist).length + PIPESIZE := by
  have h1 := h.ring.le
  have h2 := h.ring.room
  have hp : PIPESIZE = 512 := rfl
  rw [Buf.full, beq_iff_eq, h.read, h.write, ← UInt32.ofNat_add, eq_comm,
    Ring.ofNat_inj h2 (by omega), eq_comm]

theorem put (h : Ok d) (hf : d.full = false) : Ok (d.put p b) := by
  have hplace : (d.nwrite % UInt32.ofNat PIPESIZE).toNat =
      (accepted d.hist).length % PIPESIZE := by
    rw [h.write]
    exact Ring.toNat_mod (by decide) (by decide) _
  have hroom : (accepted d.hist).length < (delivered d.hist).length + PIPESIZE := by
    have h1 := h.ring.room
    have h2 : ¬ _ := fun he => Bool.false_ne_true (hf.symm.trans (h.full_iff.mpr he))
    omega
  exact { h with
    write := by
      change d.nwrite + 1 = UInt32.ofNat (accepted d.hist ++ [b]).length
      rw [h.write, List.length_append, List.length_singleton, UInt32.ofNat_add]
      rfl
    ring := by
      change Ring.Holds PIPESIZE (Function.update d.data _ b) (accepted d.hist ++ [b]) _
      rw [hplace]
      exact h.ring.push hroom
    fifo := h.fifo.trans (List.prefix_append _ [b]) }

theorem get (h : Ok d) (he : d.empty = false) : Ok (d.get p) := by
  have hlt : (delivered d.hist).length < (accepted d.hist).length := by
    refine Nat.lt_of_le_of_ne h.ring.le fun heq => ?_
    rw [h.empty_iff.mpr (h.fifo.eq_of_length heq)] at he
    cases he
  -- the byte at the place of `nread` is the next one in order
  have hbyte : d.data (d.nread % UInt32.ofNat PIPESIZE).toNat =
      (accepted d.hist).get ⟨(delivered d.hist).length, hlt⟩ := by
    rw [h.read, Ring.toNat_mod (by decide) (by decide)]
    exact h.ring.front hlt
  have hlen : (delivered (d.get p).hist).length = (delivered d.hist).length + 1 := by
    simp [Buf.get, delivered]
  exact { h with
    read := by
      rw [hlen, UInt32.ofNat_add, ← h.read]
      rfl
    ring := by
      rw [hlen]
      exact h.ring.pop hlt
    fifo := by
      change delivered d.hist ++ [_] <+: accepted d.hist
      rw [hbyte]
      exact Ring.isPrefix_next h.fifo hlt }

theorem close (h : Ok d) (w : Bool) : Ok (d.close w) := by
  cases w with
  | true =>
    exact { h with
      writeEnd := rfl
      readEnd := h.readEnd }
  | false =>
    exact { h with
      writeEnd := h.writeEnd
      readEnd := rfl }

theorem wrote (h : Ok d) (hw : Wrote addr n r (putBy p d.hist)) :
    Ok (d.log (.wrote p addr n r)) :=
  { h with honest := ⟨hw, h.honest⟩ }

theorem logRead (h : Ok d) (hr : Read n r (gotBy p d.hist) (Eof d.hist)) :
    Ok (d.log (.read p n r)) :=
  { h with honest := ⟨hr, h.honest⟩ }

end Ok

/-! ### The program -/

/-- The program points between `acquire` and `release`. -/
def holds : Pc → Bool
  | .idle => false
  | .write _ _ _ l => l ≠ .enter
  | .read _ _ l => l ≠ .enter
  | .close _ l => l ≠ .enter

theorem wf_pipe : pipe.Wf holds where
  instr p pc := by
    cases pc with
    | idle => rfl
    | write addr n i l =>
      cases l with
      | loop => exact ⟨rfl, fun d => by dsimp only; split <;> (try split) <;> rfl⟩
      | full => exact ⟨rfl, fun d => by dsimp only; split <;> rfl⟩
      | fail => exact ⟨rfl, fun _ => rfl⟩
      | done => exact ⟨rfl, fun _ => rfl⟩
      | killed => exact ⟨rfl, rfl, rfl⟩
      | _ => exact ⟨rfl, rfl⟩
    | read n i l =>
      cases l with
      | loop => exact ⟨rfl, fun d => by dsimp only; split <;> rfl⟩
      | copy => exact ⟨rfl, fun d => by dsimp only; split <;> rfl⟩
      | fail => exact ⟨rfl, fun _ => rfl⟩
      | killed => exact ⟨rfl, rfl, rfl⟩
      | _ => exact ⟨rfl, rfl⟩
    | close w l =>
      cases l with
      | set => exact ⟨rfl, fun _ => rfl⟩
      | _ => exact ⟨rfl, rfl⟩
  entry op := by cases op <;> rfl

/-- What a process has put (`w`) and got (`g`) in its present call, where it is at a program
point. -/
def Progress (w g : List UInt8) : Pc → Prop
  | .idle => w = [] ∧ g = []
  | .write addr n i l => g = [] ∧
    match l with
    | .enter => w = []
    | .leave => w = []
    | .wakeLast => w = bytes addr n.toNat
    | .done => w = bytes addr n.toNat
    | _ => w = bytes addr i ∧ i ≤ n.toNat
  | .read n i l => w = [] ∧
    match l with
    | .copy => g.length = i ∧ i ≤ n.toNat
    | .enter => g = []
    | .wake => g = []
    | .leave => g = []
    | _ => g = [] ∧ i = 0
  | .close _ _ => w = [] ∧ g = []

def Mine (p : Nat) (pc : Pc) (h : List Event) : Prop := Progress (putBy p h) (gotBy p h) pc

/-- What the tests that led to a program point have found, which stays while the lock is held. -/
def Found (d : Buf) : Pc → Prop
  | .write _ _ _ .full => d.full = true
  | .write _ _ _ .killed => d.full = true ∧ d.readopen = true
  | .write _ _ _ .wake => d.full = true ∧ d.readopen = true
  | .write _ _ _ .sleep => d.full = true ∧ d.readopen = true
  | .write _ _ _ .fail => d.full = true
  | .read _ _ .killed => d.empty = true ∧ d.writeopen = true
  | .read _ _ .sleep => d.empty = true ∧ d.writeopen = true
  | .read _ i .copy => i = 0 → d.empty = true → d.writeopen = false
  | _ => True

def Inside (p : Nat) (pc : Pc) (d : Buf) : Prop := Ok d ∧ Mine p pc d.hist ∧ Found d pc

def Outside (p : Nat) (pc : Pc) (d : Buf) : Prop := Mine p pc d.hist

/-- What another process does is none of `q`'s. -/
theorem Mine.frame {pc : Pc} (hm : Mine q pc h) (he : e.actor ≠ some q) : Mine q pc (e :: h) := by
  rwa [Mine, putBy_of_ne he, gotBy_of_ne he]

theorem actor_ne (hq : q ≠ p) (he : e.actor = some p) : e.actor ≠ some q := by
  rw [he]
  exact fun hpq => hq (Option.some.inj hpq).symm

theorem rule_write (p : Nat) (addr : Nat → UInt8) (n : Int) (i : Nat) (l : WriteAt) :
    (pipewrite p addr n i l).Ok Ok Inside Outside p (.write addr n i l) := by
  cases l with
  | enter => exact fun d h1 h2 => ⟨h1, ⟨h2.1, h2.2, Nat.zero_le _⟩, trivial⟩
  | loop =>
    rintro d ⟨hok, ⟨hg, hput, hi⟩, -⟩
    dsimp only
    by_cases hin : (i : Int) < n
    · rw [if_pos hin]
      by_cases hfull : d.full = true
      · rw [if_pos hfull]
        exact ⟨⟨hok, ⟨hg, hput, hi⟩, hfull⟩, fun _ _ _ hm => hm⟩
      · rw [if_neg hfull]
        refine ⟨⟨hok.put (Bool.not_eq_true _ ▸ hfull), ⟨hg, ?_, by omega⟩, trivial⟩,
          fun q hq k hm => hm.frame (actor_ne hq rfl)⟩
        rw [bytes_succ, ← hput]
        exact putBy_put_self
    · rw [if_neg hin]
      have : i = n.toNat := by omega
      exact ⟨⟨hok, ⟨hg, this ▸ hput⟩, trivial⟩, fun _ _ _ hm => hm⟩
  | full =>
    rintro d ⟨hok, hmine, hfull⟩
    refine ⟨⟨hok, ?_⟩, fun _ _ _ hm => hm⟩
    dsimp only
    split
    · next hr => exact ⟨hmine, hfull, hr⟩
    · exact ⟨hmine, hfull⟩
  | killed => exact fun d h => ⟨⟨h.1, h.2.1, h.2.2.1⟩, h⟩
  | wake => exact fun d h => h
  | sleep => exact ⟨fun d h => ⟨h.1, h.2.1⟩, fun d h1 h2 => ⟨h1, h2, trivial⟩⟩
  | fail =>
    rintro d ⟨hok, ⟨hg, hput, hi⟩, -⟩
    refine ⟨⟨hok.wrote (.inr ⟨rfl, ?_⟩), ⟨hg, putBy_wrote_self⟩, trivial⟩,
      fun q hq k hm => hm.frame (actor_ne hq rfl)⟩
    rw [hput]
    exact bytes_isPrefix hi
  | wakeLast => exact fun d h => h
  | done =>
    rintro d ⟨hok, ⟨hg, hput⟩, -⟩
    exact ⟨⟨hok.wrote (.inl ⟨rfl, hput⟩), ⟨hg, putBy_wrote_self⟩, trivial⟩,
      fun q hq k hm => hm.frame (actor_ne hq rfl)⟩
  | leave => exact fun d h => ⟨h.1, h.2.1.2, h.2.1.1⟩

theorem rule_read (p : Nat) (n : Int) (i : Nat) (l : ReadAt) :
    (piperead p n i l).Ok Ok Inside Outside p (.read n i l) := by
  cases l with
  | enter => exact fun d h1 h2 => ⟨h1, ⟨h2.1, h2.2, rfl⟩, trivial⟩
  | loop =>
    rintro d ⟨hok, ⟨hp, hg, hi⟩, -⟩
    refine ⟨⟨hok, ?_⟩, fun _ _ _ hm => hm⟩
    dsimp only
    split
    · next hc => exact ⟨⟨hp, hg, hi⟩, hc⟩
    · next hc =>
      refine ⟨⟨hp, by rw [hg, hi]; rfl, by omega⟩, fun _ he => ?_⟩
      exact Bool.not_eq_true _ ▸ fun hw => hc ⟨he, hw⟩
  | killed => exact fun d h => ⟨⟨h.1, h.2.1, trivial⟩, h⟩
  | sleep => exact ⟨fun d h => ⟨h.1, h.2.1⟩, fun d h1 h2 => ⟨h1, h2, trivial⟩⟩
  | fail =>
    rintro d ⟨hok, ⟨hp, hg, hi⟩, -⟩
    exact ⟨⟨hok.logRead (.inr ⟨rfl, hg⟩), ⟨hp, gotBy_read_self⟩, trivial⟩,
      fun q hq k hm => hm.frame (actor_ne hq rfl)⟩
  | copy =>
    rintro d ⟨hok, ⟨hp, hg, hi⟩, hfound⟩
    dsimp only
    by_cases hc : i < n ∧ ¬ d.empty = true
    · rw [if_pos hc]
      refine ⟨⟨hok.get (Bool.not_eq_true _ ▸ hc.2), ⟨hp, ?_, by omega⟩, nofun⟩,
        fun q hq k hm => hm.frame (actor_ne hq rfl)⟩
      rw [Buf.get, gotBy_got_self, List.length_append, hg]
      rfl
    · rw [if_neg hc]
      refine ⟨⟨hok.logRead (.inl ⟨by rw [hg], by omega, fun hn h0 => ?_⟩), ⟨hp, gotBy_read_self⟩,
        trivial⟩, fun q hq k hm => hm.frame (actor_ne hq rfl)⟩
      -- no byte was there when the loop began, and then the write end was closed
      have hi0 : i = 0 := by omega
      have he : d.empty = true := by
        by_contra he
        exact hc ⟨by omega, he⟩
      refine ⟨hok.empty_iff.mp he, ?_⟩
      have := hok.writeEnd
      rw [hfound hi0 he] at this
      simpa using this
  | wake => exact fun d h => h
  | leave => exact fun d h => ⟨h.1, h.2.1⟩

theorem rule_close (p : Nat) (w : Bool) (l : CloseAt) :
    (pipeclose w l).Ok Ok Inside Outside p (.close w l) := by
  have hact : ∀ q, (Event.close w).actor ≠ some q := nofun
  have hhist : ∀ d : Buf, (d.close w).hist = .close w :: d.hist := fun d => by cases w <;> rfl
  cases l with
  | enter => exact fun d h1 h2 => ⟨h1, h2, trivial⟩
  | set =>
    rintro d ⟨hok, hmine, -⟩
    refine ⟨⟨hok.close w, ?_, trivial⟩, fun q hq k hm => ?_⟩
    · rw [hhist]
      have hmine : Mine p (.close w .wake) d.hist := hmine
      exact hmine.frame (hact p)
    · unfold Outside at hm ⊢
      rw [hhist]
      exact hm.frame (hact q)
  | wake => exact fun d h => h
  | leave => exact fun d h => ⟨h.1, h.2.1⟩

theorem rule_pipe : Rule pipe Ok Inside Outside where
  instr p pc := by
    cases pc with
    | idle => trivial
    | write addr n i l => exact rule_write p addr n i l
    | read n i l => exact rule_read p n i l
    | close w l => exact rule_close p w l
  entry p pc op d hi hm := by
    have hidle : pc = .idle := by
      cases pc with
      | idle => rfl
      | write addr n i l => cases l <;> cases hi
      | read n i l => cases l <;> cases hi
      | close w l => cases l <;> cases hi
    subst hidle
    cases op with
    | write addr n => exact ⟨hm.2, hm.1⟩
    | read n => exact hm
    | close w => exact hm

variable {s : State Buf Pc Chan} {junk : Nat → UInt8} {acts : List (Act Op)}

theorem inv_run (hr : run pipe acts (init junk) = some s) :
    Locked holds s ∧ Fits holds Ok Inside Outside s :=
  fits_run wf_pipe rule_pipe (show holds .idle = false from rfl) (ok_new junk)
    (fun p => (⟨rfl, rfl⟩ : Outside p .idle (Buf.new junk))) hr

theorem ok_of_fits (hl : Locked holds s) (hf : Fits holds Ok Inside Outside s) : Ok s.data :=
  hf.inv hl fun _ _ h => h.1

/-- The bytes in the buffer, the next one to be read first. -/
def buffer (d : Buf) : List UInt8 :=
  (List.range (d.nwrite - d.nread).toNat).map fun i =>
    d.data ((d.nread + UInt32.ofNat i) % UInt32.ofNat PIPESIZE).toNat

theorem buffer_eq (h : Ok d) : buffer d = (accepted d.hist).drop (delivered d.hist).length := by
  have h1 := h.ring.le
  have h2 := h.ring.room
  have hp : PIPESIZE = 512 := rfl
  rw [buffer, ← h.ring.contents, h.write, h.read, Ring.toNat_sub h1 (by omega)]
  refine List.map_congr_left fun i _ => ?_
  rw [← UInt32.ofNat_add, Ring.toNat_mod (by decide) (by decide)]

/-- **A pipe is a bounded FIFO.** In every state that any number of readers and writers can reach,
with counters that wrap: the pipe holds at most `PIPESIZE` unread bytes; what was delivered,
followed by what is in the buffer, is what was accepted; every call that is over has returned
what it did, and a `piperead` that returned 0 found everything read and the write end closed;
and a writer in its loop has put the first `i` of its bytes, in order. -/
theorem pipe_fifo (hr : run pipe acts (init junk) = some s) :
    (s.data.nwrite - s.data.nread).toNat ≤ PIPESIZE ∧
    delivered s.data.hist ++ buffer s.data = accepted s.data.hist ∧
    Honest s.data.hist ∧
    ∀ p addr n i, s.mode p = .code (.write addr n i .loop) → putBy p s.data.hist = bytes addr i := by
  obtain ⟨hl, hf⟩ := inv_run hr
  have hok := ok_of_fits hl hf
  refine ⟨?_, ?_, hok.honest, fun p addr n i hm => ?_⟩
  · have h1 := hok.ring.le
    have h2 := hok.ring.room
    have hp : PIPESIZE = 512 := rfl
    rw [hok.write, hok.read, Ring.toNat_sub h1 (by omega)]
    omega
  · rw [buffer_eq hok]
    conv_lhs => rw [List.prefix_iff_eq_take.mp hok.fifo]
    rw [List.length_take, Nat.min_eq_left hok.ring.le, List.take_append_drop]
  · have hfit := hf.fit p
    rw [hm] at hfit
    exact ((fit_inside rfl).mp hfit).2.1.2.1

/-- One writer puts two bytes, a reader asks for three and gets them. -/
def writeRead : List (Act Op) :=
  List.flatten [[.call 0 (.write (fun i => UInt8.ofNat (i + 7)) 2)], List.replicate 9 (.exec 0),
    [.call 1 (.read 3)], List.replicate 9 (.exec 1)]

theorem pipe_fifo_writeRead : ∃ s, run pipe writeRead (init fun _ => 0) = some s ∧
    delivered s.data.hist = [7, 8] ∧ s.lock = none ∧
    delivered s.data.hist ++ buffer s.data = accepted s.data.hist ∧ Honest s.data.hist := by
  obtain ⟨s, hs⟩ := Option.isSome_iff_exists.mp
    (show (run pipe writeRead (init fun _ => 0)).isSome = true by decide +kernel)
  have hval : (run pipe writeRead (init fun _ => 0)).map
      (fun s => (delivered s.data.hist, s.lock)) = some ([7, 8], none) := by decide +kernel
  rw [hs] at hval
  have hval := Prod.ext_iff.mp (Option.some.inj hval)
  have hfifo := pipe_fifo hs
  exact ⟨s, hs, hval.1, hval.2, hfifo.2.1, hfifo.2.2.1⟩

/-! ### Wakeups -/

/-- A channel on which nobody should sleep: there is something to read, or room, or nobody at the
other end. -/
def ready (c : Chan) (d : Buf) : Prop :=
  match c with
  | .nread => d.empty = false ∨ d.writeopen = false
  | .nwrite => d.full = false ∨ d.readopen = false

/-- Who has to call `wakeup` before it releases the lock: a writer after it may have put a byte, a
reader after it may have got one, and whoever closes an end. -/
def owes (c : Chan) : Pc → Bool
  | .write _ _ _ l => c = .nread ∧
    (l = .loop ∨ l = .full ∨ l = .killed ∨ l = .wake ∨ l = .fail ∨ l = .wakeLast)
  | .read _ _ l => c = .nwrite ∧ (l = .copy ∨ l = .wake)
  | .close w l => c = (if w then .nread else .nwrite) ∧ l = .wake
  | .idle => false

/-- The process is about to return -1 from `pipewrite` because the pipe is full and its read end is
closed or the process was killed. -/
def GivesUp : Mode Pc Chan → Prop
  | .code (.write _ _ _ .fail) => True
  | _ => False

/-- A `pipewrite` that gives up on a full pipe does so while nobody waits for data. -/
def Unheard (s : State Buf Pc Chan) : Act Op → Prop
  | .exec p => GivesUp (s.mode p) → ∀ q, ¬ Waits .nread (s.mode q)
  | _ => True

theorem pays_write {i : Nat} {l : WriteAt} (hf : Inside p (.write addr n i l) s.data)
    (hg : l = .fail → ∀ q, ¬ Waits .nread (s.mode q)) :
    Pays ready owes s p (.write addr n i l) (pipewrite p addr n i l) := by
  cases l with
  | loop =>
    intro q c hw hold hr
    dsimp only at hr ⊢
    cases c with
    | nread => split <;> (try split) <;> rfl
    | nwrite =>
      -- a writer does not make room
      exfalso
      have hnot : ¬ ready .nwrite s.data := fun h0 => nomatch hold h0
      split at hr
      · split at hr
        · exact hnot hr
        · next hfull => exact hnot (.inl (Bool.not_eq_true _ ▸ hfull))
      · exact hnot hr
  | full =>
    intro q c hw hold hr
    dsimp only at hr ⊢
    cases c with
    | nread => split <;> rfl
    | nwrite => exact nomatch hold hr
  | killed =>
    intro q c hw ho
    cases c with
    | nread => split <;> rfl
    | nwrite => cases ho
  | wake =>
    intro q c hw ho
    cases c with
    | nread => exact .inl rfl
    | nwrite => cases ho
  | sleep =>
    obtain ⟨-, -, hfull, hopen⟩ := hf
    refine ⟨fun hr => ?_, fun q c hw => by cases c <;> rfl⟩
    rcases hr with hr | hr
    · rw [hfull] at hr
      cases hr
    · rw [hopen] at hr
      cases hr
  | fail =>
    intro q c hw hold hr
    cases c with
    | nread => exact absurd hw (hg rfl q)
    | nwrite => exact nomatch hold hr
  | wakeLast =>
    intro q c hw ho
    cases c with
    | nread => exact .inl rfl
    | nwrite => cases ho
  | done =>
    intro q c hw hold hr
    cases c with
    | nread => exact nomatch hold hr
    | nwrite => exact nomatch hold hr
  | enter => trivial
  | leave => exact fun q c hw => by cases c <;> rfl

theorem pays_read {i : Nat} {l : ReadAt} (hf : Inside p (.read n i l) s.data) :
    Pays ready owes s p (.read n i l) (piperead p n i l) := by
  cases l with
  | loop =>
    intro q c hw hold hr
    cases c with
    | nread => exact nomatch hold hr
    | nwrite => exact nomatch hold hr
  | killed =>
    intro q c hw ho
    cases c <;> cases ho
  | sleep =>
    obtain ⟨-, -, hempty, hopen⟩ := hf
    refine ⟨fun hr => ?_, fun q c hw => by cases c <;> rfl⟩
    rcases hr with hr | hr
    · rw [hempty] at hr
      cases hr
    · rw [hopen] at hr
      cases hr
  | fail =>
    intro q c hw hold hr
    cases c with
    | nread => exact nomatch hold hr
    | nwrite => exact nomatch hold hr
  | copy =>
    intro q c hw hold hr
    dsimp only at hr ⊢
    cases c with
    | nwrite => split <;> rfl
    | nread =>
      -- a reader does not put anything into the pipe
      exfalso
      have hnot : ¬ ready .nread s.data := fun h0 => nomatch hold h0
      split at hr
      · next hc => exact hnot (.inl (Bool.not_eq_true _ ▸ hc.2))
      · exact hnot hr
  | wake =>
    intro q c hw ho
    cases c with
    | nwrite => exact .inl rfl
    | nread => cases ho
  | enter => trivial
  | leave => exact fun q c hw => by cases c <;> rfl

theorem pays_close {w : Bool} {l : CloseAt} :
    Pays ready owes s p (.close w l) (pipeclose w l) := by
  cases l with
  | set =>
    intro q c hw hold hr
    have hnot : ¬ ready c s.data := fun h0 => by
      have := hold h0
      cases c <;> cases w <;> cases this
    cases c <;> cases w <;> first | rfl | exact absurd hr hnot
  | wake =>
    intro q c hw ho
    cases c <;> cases w <;> first | exact .inl rfl | cases ho
  | enter => trivial
  | leave => exact fun q c hw => by cases c <;> cases w <;> rfl

theorem heard_run (hg : GuardedRun pipe Unheard acts (init junk))
    (hr : run pipe acts (init junk) = some s) :
    Locked holds s ∧ Fits holds Ok Inside Outside s ∧ Heard holds ready owes s := by
  refine run_induct (Q := fun s => Locked holds s ∧ Fits holds Ok Inside Outside s ∧
    Heard holds ready owes s) (fun s a p s' h hg hs => ?_) ?_ hg hr
  · obtain ⟨hl, hf, hh⟩ := h
    refine ⟨hl.step wf_pipe hs, hf.step wf_pipe rule_pipe hl hs, hh.step wf_pipe hl hs
      fun pc ha hm => ?_⟩
    subst ha
    have hfit := hf.fit p
    rw [hm] at hfit
    cases pc with
    | idle => trivial
    | write addr n i l =>
      by_cases hl : l = .enter
      · subst hl
        trivial
      · refine pays_write ((fit_inside (by simp [holds, hl])).mp hfit) fun hl q => ?_
        subst hl
        exact hg (by rw [hm]; trivial) q
    | read n i l =>
      by_cases hl : l = .enter
      · subst hl
        trivial
      · exact pays_read ((fit_inside (by simp [holds, hl])).mp hfit)
    | close w l => exact pays_close
  · exact ⟨locked_start rfl, fits_start rfl (ok_new junk) fun _ => ⟨rfl, rfl⟩, heard_start⟩

/-- **No wakeup of a pipe is missing**, in every state with a free lock that is reached by a run in
which no `pipewrite` gives up on a full pipe while somebody waits for data: who sleeps on
`&p->nread` finds the pipe empty and its write end open, and who sleeps on `&p->nwrite` finds it
full and its read end open. -/
theorem pipe_wakeups (hg : GuardedRun pipe Unheard acts (init junk))
    (hr : run pipe acts (init junk) = some s) (hfree : s.lock = none) (p : Nat) :
    ((s.mode p).sleepsOn .nread = true →
      s.data.nread = s.data.nwrite ∧ s.data.writeopen = true) ∧
    ((s.mode p).sleepsOn .nwrite = true →
      s.data.nwrite = s.data.nread + UInt32.ofNat PIPESIZE ∧ s.data.readopen = true) := by
  obtain ⟨hl, hf, hh⟩ := heard_run hg hr
  constructor
  · intro hm
    have hnot := hh.not_ready hl hfree (waits_of_sleepsOn hm)
    rw [ready, not_or, Bool.not_eq_false, Bool.not_eq_false] at hnot
    exact ⟨beq_iff_eq.mp hnot.1, hnot.2⟩
  · intro hm
    have hnot := hh.not_ready hl hfree (waits_of_sleepsOn hm)
    rw [ready, not_or, Bool.not_eq_false, Bool.not_eq_false] at hnot
    exact ⟨beq_iff_eq.mp hnot.1, hnot.2⟩

/-- The step is no `pipewrite` that gives up. -/
def noGiveUp (s : State Buf Pc Chan) : Act Op → Bool
  | .exec p =>
    match s.mode p with
    | .code (.write _ _ _ .fail) => false
    | _ => true
  | _ => true

theorem unheard_of_noGiveUp (s : State Buf Pc Chan) (a : Act Op) (h : noGiveUp s a = true) :
    Unheard s a := by
  cases a with
  | exec p =>
    intro hg
    rw [noGiveUp] at h
    unfold GivesUp at hg
    split at hg
    · next hm =>
      rw [hm] at h
      cases h
    · cases hg
  | _ => trivial

/-- A reader falls asleep on an empty pipe. -/
def readerSleeps : List (Act Op) := .call 0 (.read 1) :: List.replicate 6 (.exec 0)

theorem pipe_wakeups_readerSleeps : ∃ s, run pipe readerSleeps (init fun _ => 0) = some s ∧
    s.lock = none ∧ (s.mode 0).sleepsOn .nread = true ∧ s.data.nread = s.data.nwrite ∧
    s.data.writeopen = true := by
  obtain ⟨s, hs⟩ := Option.isSome_iff_exists.mp
    (show (run pipe readerSleeps (init fun _ => 0)).isSome = true by decide +kernel)
  have hval : (run pipe readerSleeps (init fun _ => 0)).map
      (fun s => (s.lock, (s.mode 0).sleepsOn .nread)) = some (none, true) := by decide +kernel
  have hg : GuardedRun pipe Unheard readerSleeps (init fun _ => 0) :=
    guardedRun_of_check unheard_of_noGiveUp (by decide +kernel)
  rw [hs] at hval
  have hval := Prod.ext_iff.mp (Option.some.inj hval)
  exact ⟨s, hs, hval.1, hval.2, (pipe_wakeups hg hs hval.1 0).1 hval.2⟩

/-- Process 2 kills process 1, which then writes one byte more than the pipe can hold. -/
def killedWriter : List (Act Op) :=
  List.flatten [[.kill 2 1, .exec 2, .exec 2, .call 1 (.write (fun _ => 0) 513)],
    List.replicate 518 (.exec 1)]

/-- The killed writer has filled the pipe and returned -1, and the reader is still asleep. -/
theorem reader_stranded :
    (run pipe (readerSleeps ++ killedWriter) (init fun _ => 0)).map (fun s =>
      (s.lock, (s.mode 0).sleepsOn .nread, (buffer s.data).length)) = some (none, true, 512) := by
  decide +kernel

end PipeBuf

end Xv6
