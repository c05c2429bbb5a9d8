import Xv6.Lib.Monitor
import Xv6.Lib.Ring

/-!
# The console

`consoleintr` and `consoleread` of `console.c`, as programs of a monitor: the data is `input`, the
lock is `input.lock` and the only channel is `&input.r`. An interrupt may come on any CPU at any
time, so `consoleintr` is a call like any other here, with the characters that `getc` returns
until it returns a negative number. The echo and the process listing change nothing below.

`Tty` is what the console is for: a line that is edited until it is committed, and readers who
take the committed characters in order. `Ok` says that the buffer and its three wrapping
indices are such a terminal, the one that the history of characters and reads leads to.
-/

open List

namespace Xv6

namespace Console

open Monitor

def INPUT_BUF : Nat := 128

/-- `C(x)`: Control-x. -/
def ctrl (x : Char) : Nat := x.toNat - '@'.toNat

def newline : Nat := '\n'.toNat

/-- What processes sleep on: `&input.r`. -/
inductive Chan where
  | r
  deriving DecidableEq, Repr

/-- What has happened: `consoleintr` got the character `c`; a read of process `p` copied `b` to the
user, used up a `^D`, or met a `^D` after it had copied something and left it; its call
`consoleread(.., n)` returns `r`. -/
inductive Event where
  | typed (c : Nat)
  | took (p : Nat) (b : UInt8)
  | eof (p : Nat)
  | left (p : Nat)
  | ret (p : Nat) (n r : Int)
  deriving DecidableEq, Repr

/-- `input`, and what has happened, the latest first. -/
structure Input where
  buf : Nat → UInt8
  r : UInt32
  w : UInt32
  e : UInt32
  hist : List Event

/-- `i % INPUT_BUF` -/
def place (i : UInt32) : Nat := (i % UInt32.ofNat INPUT_BUF).toNat

namespace Input

def log (d : Input) (e : Event) : Input := { d with hist := e :: d.hist }

/-- The loop of `C('U')`, which ends after at most `input.e - input.w` rounds. -/
def killLine : Nat → Input → Input
  | 0, d => d
  | n + 1, d =>
    if d.e ≠ d.w ∧ d.buf (place (d.e - 1)) ≠ UInt8.ofNat newline then
      killLine n { d with e := d.e - 1 }
    else d

/-- `input.buf[input.e++ % INPUT_BUF] = c` and the commit. The second result is whether the readers
are woken up. -/
def store (d : Input) (c : Nat) : Input × Bool :=
  let d := { d with buf := Function.update d.buf (place d.e) (UInt8.ofNat c), e := d.e + 1 }
  if c = newline ∨ c = ctrl 'D' ∨ d.e = d.r + UInt32.ofNat INPUT_BUF then ({ d with w := d.e }, true)
  else (d, false)

/-- The `switch` of `consoleintr`. -/
def getc (d : Input) (c : Nat) : Input × Bool :=
  if c = ctrl 'P' then (d, false)
  else if c = ctrl 'U' then (killLine (d.e - d.w).toNat d, false)
  else if c = ctrl 'H' ∨ c = 0x7f then (if d.e ≠ d.w then { d with e := d.e - 1 } else d, false)
  else if c ≠ 0 ∧ d.e - d.r < UInt32.ofNat INPUT_BUF then
    d.store (if c = '\r'.toNat then newline else c)
  else (d, false)

end Input

/-- The statements of `consoleintr`. -/
inductive IntrAt where
  | enter
  | loop
  | wake
  | leave
  deriving DecidableEq, Repr

/-- The statements of `consoleread`. -/
inductive ReadAt where
  | enter
  /-- `while(n > 0)` and `while(input.r == input.w)` -/
  | loop
  /-- `proc->killed` -/
  | killed
  | sleep
  | fail
  | done
  | leave
  deriving DecidableEq, Repr

/-- Where a process is: in `consoleintr` with the characters that are still to come, or in
`consoleread` with `target` and `n`. -/
inductive Pc where
  | idle
  | intr (cs : List Nat) (l : IntrAt)
  | read (target n : Int) (l : ReadAt)

/-- `consoleintr(getc)` -/
def consoleintr (cs : List Nat) : IntrAt → Instr Input Pc Chan
  | .enter => .acquire (.intr cs .loop)
  | .loop =>
    match cs with
    | [] => .data fun d => (d, .intr [] .leave)
    | c :: cs => .data fun d =>
      ((d.getc c).1.log (.typed c), .intr cs (if (d.getc c).2 then .wake else .loop))
  | .wake => .wakeup .r (.intr cs .loop)
  | .leave => .release .idle

/-- The body of the loop of `consoleread`, when there is a character. -/
def take (p : Nat) (target n : Int) (d : Input) : Input × Pc :=
  let c := d.buf (place d.r)
  let d := { d with r := d.r + 1 }
  if c = UInt8.ofNat (ctrl 'D') then
    -- `n` is positive here, so comparing it as `uint` is the same
    if n < target then ({ d with r := d.r - 1 }.log (.left p), .read target n .done)
    else (d.log (.eof p), .read target n .done)
  else (d.log (.took p c),
    .read target (n - 1) (if c = UInt8.ofNat newline then .done else .loop))

/-- `consoleread(ip, dst, n)`, between `iunlock(ip)` and `ilock(ip)`. -/
def consoleread (p : Nat) (target n : Int) : ReadAt → Instr Input Pc Chan
  | .enter => .acquire (.read target n .loop)
  | .loop => .data fun d =>
    if n > 0 then if d.r = d.w then (d, .read target n .killed) else take p target n d
    else (d, .read target n .done)
  | .killed => .killed (.read target n .fail) (.read target n .sleep)
  | .sleep => .sleep .r (.read target n .loop)
  | .fail => .data fun d => (d.log (.ret p target (-1)), .read target n .leave)
  | .done => .data fun d => (d.log (.ret p target (target - n)), .read target n .leave)
  | .leave => .release .idle

/-- An interrupt, with the characters that `getc` returns, or a read. -/
inductive Op where
  | intr (cs : List Nat)
  | read (n : Int)

/-- The two functions as a program of the monitor. -/
def console : Prog Input Pc Chan Op where
  instr p
    | .idle => .idle
    | .intr cs l => consoleintr cs l
    | .read target n l => consoleread p target n l
  entry
    | .intr cs => .intr cs .enter
    | .read n => .read n n .enter

/-- `input` when the kernel starts. -/
def Input.new : Input where
  buf _ := 0
  r := 0
  w := 0
  e := 0
  hist := []

def init : State Input Pc Chan := start Input.new .idle

/-! ### The terminal -/

/-- A terminal: the characters that were committed so far, the line that is being edited, and how
many of the committed characters readers have used up. -/
structure Tty where
  done : List UInt8
  line : List UInt8
  taken : Nat

namespace Tty

/-- The characters that are in the buffer. -/
def pending (t : Tty) : Nat := t.done.length + t.line.length - t.taken

/-- A character is appended to the line, which is committed if it is at its end or the buffer is
full. -/
def append (t : Tty) (c : Nat) : Tty :=
  if c = newline ∨ c = ctrl 'D' ∨ t.pending + 1 = INPUT_BUF then
    { t with done := t.done ++ (t.line ++ [UInt8.ofNat c]), line := [] }
  else { t with line := t.line ++ [UInt8.ofNat c] }

/-- A key is pressed: `^P` is no character, `^U` deletes the line (back to a newline, should one be
in it), backspace the last character of the line; any other character is appended if there
is room for it. -/
def key (t : Tty) (c : Nat) : Tty :=
  if c = ctrl 'P' then t
  else if c = ctrl 'U' then { t with line := t.line.rdropWhile (· ≠ UInt8.ofNat newline) }
  else if c = ctrl 'H' ∨ c = 0x7f then { t with line := t.line.dropLast }
  else if c ≠ 0 ∧ t.pending < INPUT_BUF then t.append (if c = '\r'.toNat then newline else c)
  else t

end Tty

/-- The terminal that a history leads to. -/
def tty : List Event → Tty
  | [] => ⟨[], [], 0⟩
  | .typed c :: h => (tty h).key c
  | .took _ _ :: h => { tty h with taken := (tty h).taken + 1 }
  | .eof _ :: h => { tty h with taken := (tty h).taken + 1 }
  | _ :: h => tty h

/-- What readers have used up: the characters delivered, in order, and each `^D` that ended a read. -/
def consumed : List Event → List UInt8
  | [] => []
  | .took _ b :: h => consumed h ++ [b]
  | .eof _ :: h => consumed h ++ [UInt8.ofNat (ctrl 'D')]
  | _ :: h => consumed h

/-- What the present read of process `p` has copied so far. -/
def tookBy (p : Nat) : List Event → List UInt8
  | [] => []
  | .took q b :: h => if q = p then tookBy p h ++ [b] else tookBy p h
  | .ret q _ _ :: h => if q = p then [] else tookBy p h
  | _ :: h => tookBy p h

/-- The present read of process `p` has met a `^D`. -/
def metEof (p : Nat) : List Event → Bool
  | [] => false
  | .eof q :: h => q == p || metEof p h
  | .left q :: h => q == p || metEof p h
  | .ret q _ _ :: h => if q = p then false else metEof p h
  | _ :: h => metEof p h

/-- The next character for a reader is `^D`. -/
def AtEof (t : Tty) : Prop := t.done[t.taken]? = some (UInt8.ofNat (ctrl 'D'))

/-- Reads are as they should be: a `^D` is never delivered as a character; a read that uses up a
`^D` has copied nothing; a read that has copied something before a `^D` leaves it; in both cases
the read copies nothing more; and a read returns the number of characters that it has copied, or
-1. -/
def Honest : List Event → Prop
  | [] => True
  | .took p b :: h => (b ≠ UInt8.ofNat (ctrl 'D') ∧ metEof p h = false) ∧ Honest h
  | .eof p :: h => tookBy p h = [] ∧ Honest h
  | .left p :: h => (tookBy p h ≠ [] ∧ AtEof (tty h)) ∧ Honest h
  | .ret p n r :: h => (r = -1 ∨ r = (tookBy p h).length ∧ (tookBy p h).length ≤ n.toNat) ∧ Honest h
  | .typed _ :: h => Honest h

/-! ### The buffer is a terminal -/

/-- The buffer and its indices represent the terminal `t`. -/
structure Repr (d : Input) (t : Tty) : Prop where
  read : d.r = UInt32.ofNat t.taken
  write : d.w = UInt32.ofNat t.done.length
  edit : d.e = UInt32.ofNat (t.done ++ t.line).length
  ring : Ring.Holds INPUT_BUF d.buf (t.done ++ t.line) t.taken
  le : t.taken ≤ t.done.length

theorem repr_new : Repr Input.new ⟨[], [], 0⟩ := ⟨rfl, rfl, rfl, Ring.holds_nil, Nat.le_refl 0⟩

theorem place_ofNat (a : Nat) : place (UInt32.ofNat a) = a % INPUT_BUF :=
  Ring.toNat_mod (by decide) (by decide) a

theorem ofNat_succ_sub (a : Nat) : UInt32.ofNat (a + 1) - 1 = UInt32.ofNat a := by
  rw [UInt32.ofNat_add]
  exact UInt32.add_sub_cancel _ _

section Repr

variable {d : Input} {t : Tty} {c : Nat} {done line l : List UInt8} {taken : Nat} {x : UInt8}

namespace Repr

theorem pending_eq (h : Repr d t) : (d.e - d.r).toNat = t.pending := by
  have h1 := h.ring.le
  have h2 := h.ring.room
  have hp : INPUT_BUF = 128 := rfl
  rw [h.edit, h.read, Ring.toNat_sub h1 (by omega), length_append, Tty.pending]

theorem editing_eq (h : Repr d t) : (d.e - d.w).toNat = t.line.length := by
  have h1 := h.le
  have h2 := h.ring.room
  have hp : INPUT_BUF = 128 := rfl
  rw [length_append] at h2
  rw [h.edit, h.write, length_append, Ring.toNat_sub (by omega) (by omega)]
  omega

theorem edit_ne_iff (h : Repr d t) : d.e ≠ d.w ↔ t.line ≠ [] := by
  have h1 := h.le
  have h2 := h.ring.room
  have hp : INPUT_BUF = 128 := rfl
  rw [length_append] at h2
  rw [not_iff_not, h.edit, h.write, length_append, Ring.ofNat_inj (by omega) (by omega),
    ← length_eq_zero_iff]
  omega

theorem read_eq_iff (h : Repr d t) : d.r = d.w ↔ t.taken = t.done.length := by
  have h1 := h.le
  have h2 := h.ring.room
  have hp : INPUT_BUF = 128 := rfl
  rw [length_append] at h2
  rw [h.read, h.write, eq_comm, Ring.ofNat_inj h1 (by omega), eq_comm]

theorem unpush (h : Repr d ⟨done, l ++ [x], taken⟩) :
    Repr { d with e := d.e - 1 } ⟨done, l, taken⟩ ∧ d.buf (place (d.e - 1)) = x := by
  have hring := h.ring
  have hedit := h.edit
  simp only [← append_assoc] at hring hedit
  have hle : taken ≤ (done ++ l).length := by
    have := h.le
    simp only at this
    simp
    omega
  have hsub : d.e - 1 = UInt32.ofNat (done ++ l).length := by
    rw [hedit, length_append, length_singleton]
    exact ofNat_succ_sub _
  refine ⟨⟨h.read, h.write, hsub, hring.unpush hle, h.le⟩, ?_⟩
  rw [hsub, place_ofNat]
  exact hring.last hle

theorem killLine (h : Repr d ⟨done, line, taken⟩) :
    Repr (d.killLine line.length) ⟨done, line.rdropWhile (· ≠ UInt8.ofNat newline), taken⟩ := by
  induction line using List.reverseRecOn generalizing d with
  | nil => simpa [Input.killLine] using h
  | append_singleton l x ih =>
    obtain ⟨h1, hx⟩ := h.unpush
    have hne : d.e ≠ d.w := h.edit_ne_iff.mpr (by simp)
    rw [length_append, length_singleton, Input.killLine, hx, rdropWhile_concat]
    by_cases hnl : x = UInt8.ofNat newline
    · simpa [hnl] using hnl ▸ h
    · rw [if_pos ⟨hne, hnl⟩, if_pos (by simpa using hnl)]
      exact ih h1

theorem backspace (h : Repr d t) :
    Repr (if d.e ≠ d.w then { d with e := d.e - 1 } else d) { t with line := t.line.dropLast } := by
  obtain ⟨done, line, taken⟩ := t
  rcases eq_nil_or_concat' line with rfl | ⟨l, x, rfl⟩
  · rw [if_neg (fun hne => h.edit_ne_iff.mp hne rfl)]
    exact h
  · rw [if_pos (h.edit_ne_iff.mpr (by simp)), dropLast_concat]
    exact h.unpush.1

/-- A character is stored, and the line is committed or not. -/
theorem store (h : Repr d t) (hroom : t.pending < INPUT_BUF) :
    Repr (d.store c).1 (t.append c) := by
  have h1 := h.ring.le
  have h2 := h.ring.room
  have hle := h.le
  rw [length_append] at h1 h2
  have hp : INPUT_BUF = 128 := rfl
  have hpend : t.done.length + t.line.length < t.taken + INPUT_BUF := by
    rw [Tty.pending] at hroom
    omega
  have hring := h.ring.push (x := UInt8.ofNat c) (by rwa [length_append])
  have hplace : place d.e = (t.done ++ t.line).length % INPUT_BUF := by rw [h.edit, place_ofNat]
  have hedit : d.e + 1 = UInt32.ofNat (t.done ++ (t.line ++ [UInt8.ofNat c])).length := by
    have hlen : (t.done ++ t.line ++ [UInt8.ofNat c]).length = (t.done ++ t.line).length + 1 :=
      length_append
    rw [h.edit, ← append_assoc, hlen, UInt32.ofNat_add]
    rfl
  -- the buffer is full for the code when it is for the terminal
  have hfull : d.e + 1 = d.r + UInt32.ofNat INPUT_BUF ↔ t.pending + 1 = INPUT_BUF := by
    rw [hedit, h.read, ← UInt32.ofNat_add, eq_comm, Tty.pending]
    simp only [length_append, length_singleton]
    rw [Ring.ofNat_inj (by omega) (by omega)]
    omega
  rw [append_assoc] at hring
  simp only [Input.store, Tty.append, hfull, hplace]
  split
  · exact
      { read := h.read
        write := hedit
        edit := by
          rw [append_nil]
          exact hedit
        ring := by
          rw [append_nil]
          exact hring
        le := by
          change t.taken ≤ (t.done ++ (t.line ++ [UInt8.ofNat c])).length
          rw [length_append]
          omega }
  · exact ⟨h.read, h.write, hedit, hring, h.le⟩

/-- One character of `consoleintr` is one key of the terminal. -/
theorem getc (h : Repr d t) : Repr (d.getc c).1 (t.key c) := by
  unfold Input.getc Tty.key
  by_cases h1 : c = ctrl 'P'
  · rwa [if_pos h1, if_pos h1]
  rw [if_neg h1, if_neg h1]
  by_cases h2 : c = ctrl 'U'
  · rw [if_pos h2, if_pos h2, h.editing_eq]
    exact killLine h
  rw [if_neg h2, if_neg h2]
  by_cases h3 : c = ctrl 'H' ∨ c = 0x7f
  · rw [if_pos h3, if_pos h3]
    exact h.backspace
  rw [if_neg h3, if_neg h3]
  have hlt : d.e - d.r < UInt32.ofNat INPUT_BUF ↔ t.pending < INPUT_BUF := by
    rw [UInt32.lt_iff_toNat_lt, h.pending_eq]
    exact Iff.rfl
  by_cases h4 : c ≠ 0 ∧ t.pending < INPUT_BUF
  · rw [if_pos h4, if_pos (h4.imp_right hlt.mpr)]
    exact h.store h4.2
  · rw [if_neg h4, if_neg fun hc => h4 (hc.imp_right hlt.mp)]
    exact h

theorem take (h : Repr d t) (hlt : t.taken < t.done.length) :
    Repr { d with r := d.r + 1 } { t with taken := t.taken + 1 } where
  read := by
    rw [UInt32.ofNat_add, ← h.read]
    rfl
  write := h.write
  edit := h.edit
  ring := h.ring.pop (by rw [length_append]; omega)
  le := hlt

theorem next (h : Repr d t) (hlt : t.taken < t.done.length) :
    t.done[t.taken]? = some (d.buf (place d.r)) := by
  rw [h.read, place_ofNat, h.ring.front (by rw [length_append]; omega),
    getElem_append_left hlt, List.getElem?_eq_getElem hlt]

end Repr

theorem killLine_same (n : Nat) (d : Input) :
    (d.killLine n).r = d.r ∧ (d.killLine n).w = d.w := by
  induction n generalizing d with
  | zero => exact ⟨rfl, rfl⟩
  | succ n ih =>
    rw [Input.killLine]
    split
    · exact ih _
    · exact ⟨rfl, rfl⟩

theorem store_committed (h : (d.store c).2 = false) :
    (d.store c).1.r = d.r ∧ (d.store c).1.w = d.w := by
  unfold Input.store at h ⊢
  dsimp only at h ⊢
  split
  · next hc =>
    rw [if_pos hc] at h
    cases h
  · exact ⟨rfl, rfl⟩

/-- Readers are woken up whenever a character is committed. -/
theorem getc_committed (h : (d.getc c).2 = false) :
    (d.getc c).1.r = d.r ∧ (d.getc c).1.w = d.w := by
  unfold Input.getc at h ⊢
  by_cases h1 : c = ctrl 'P'
  · rw [if_pos h1]
    exact ⟨rfl, rfl⟩
  rw [if_neg h1] at h ⊢
  by_cases h2 : c = ctrl 'U'
  · rw [if_pos h2]
    exact killLine_same _ d
  rw [if_neg h2] at h ⊢
  by_cases h3 : c = ctrl 'H' ∨ c = 0x7f
  · rw [if_pos h3]
    dsimp only
    split <;> exact ⟨rfl, rfl⟩
  rw [if_neg h3] at h ⊢
  by_cases h4 : c ≠ 0 ∧ d.e - d.r < UInt32.ofNat INPUT_BUF
  · rw [if_pos h4] at h ⊢
    exact store_committed h
  · rw [if_neg h4]
    exact ⟨rfl, rfl⟩

end Repr

/-! ### The history -/

section History

variable {h : List Event} {p q : Nat} {e : Event} {t : Tty} {c : Nat}

/-- The process that an event is about. -/
def Event.actor : Event → Option Nat
  | .typed _ => none
  | .took p _ => some p
  | .eof p => some p
  | .left p => some p
  | .ret p _ _ => some p

theorem tookBy_of_ne (he : e.actor ≠ some q) : tookBy q (e :: h) = tookBy q h := by
  cases e with
  | took p b => exact if_neg fun hq => he (congrArg some hq)
  | ret p n r => exact if_neg fun hq => he (congrArg some hq)
  | _ => rfl

theorem metEof_of_ne (he : e.actor ≠ some q) : metEof q (e :: h) = metEof q h := by
  have hne : ∀ {p : Nat}, e.actor = some p → (p == q) = false := fun hp => by
    rw [hp] at he
    exact beq_eq_false_iff_ne.mpr fun hq => he (congrArg some hq)
  cases e with
  | eof p => rw [metEof, hne rfl, Bool.false_or]
  | left p => rw [metEof, hne rfl, Bool.false_or]
  | ret p n r => exact if_neg fun hq => he (congrArg some hq)
  | _ => rfl

/-- A key never takes back what was committed. -/
theorem key_done (t : Tty) (c : Nat) :
    (∃ l, (t.key c).done = t.done ++ l) ∧ (t.key c).taken = t.taken := by
  have hsame : ∃ l, t.done = t.done ++ l := ⟨[], (append_nil _).symm⟩
  have happend : ∀ c, (∃ l, (t.append c).done = t.done ++ l) ∧ (t.append c).taken = t.taken := by
    intro c
    unfold Tty.append
    split
    · exact ⟨⟨_, rfl⟩, rfl⟩
    · exact ⟨hsame, rfl⟩
  unfold Tty.key
  split
  · exact ⟨hsame, rfl⟩
  · split
    · exact ⟨hsame, rfl⟩
    · split
      · exact ⟨hsame, rfl⟩
      · by_cases hc : c ≠ 0 ∧ t.pending < INPUT_BUF
        · rw [if_pos hc]
          exact happend _
        · rw [if_neg hc]
          exact ⟨hsame, rfl⟩

/-- What was committed stays committed. -/
theorem tty_done_isPrefix (e : Event) (h : List Event) : (tty h).done <+: (tty (e :: h)).done := by
  cases e with
  | typed c =>
    obtain ⟨⟨l, hl⟩, -⟩ := key_done (tty h) c
    exact ⟨l, hl.symm⟩
  | _ => exact prefix_rfl

end History

/-! ### The program -/

/-- The buffer is the terminal of the history, and readers have used up its committed characters
in order. -/
structure Ok (d : Input) : Prop where
  repr : Repr d (tty d.hist)
  consumed : consumed d.hist = (tty d.hist).done.take (tty d.hist).taken
  honest : Honest d.hist

theorem ok_new : Ok Input.new := ⟨repr_new, rfl, trivial⟩

section Program

variable {d : Input} {c : Nat} {p q : Nat} {e : Event} {h : List Event}

theorem killLine_hist (n : Nat) (d : Input) : (d.killLine n).hist = d.hist := by
  induction n generalizing d with
  | zero => rfl
  | succ n ih =>
    rw [Input.killLine]
    split
    · exact ih _
    · rfl

theorem store_hist (d : Input) (c : Nat) : (d.store c).1.hist = d.hist := by
  unfold Input.store
  dsimp only
  split <;> rfl

theorem getc_hist (d : Input) (c : Nat) : (d.getc c).1.hist = d.hist := by
  unfold Input.getc
  split
  · rfl
  · split
    · exact killLine_hist _ d
    · split
      · dsimp only
        split <;> rfl
      · by_cases hc : c ≠ 0 ∧ d.e - d.r < UInt32.ofNat INPUT_BUF
        · rw [if_pos hc]
          exact store_hist d _
        · rw [if_neg hc]

namespace Ok

/-- An event that is neither a key nor a character used up. -/
theorem log (h : Ok d) (htty : tty (e :: d.hist) = tty d.hist)
    (hcons : Console.consumed (e :: d.hist) = Console.consumed d.hist)
    (hhonest : Honest (e :: d.hist)) : Ok (d.log e) where
  repr := by
    change Repr _ (tty (e :: d.hist))
    rw [htty]
    exact { h.repr with }
  consumed := by
    change Console.consumed (e :: d.hist) =
      (tty (e :: d.hist)).done.take (tty (e :: d.hist)).taken
    rw [hcons, htty]
    exact h.consumed
  honest := hhonest

theorem getc (h : Ok d) (c : Nat) : Ok ((d.getc c).1.log (.typed c)) := by
  have hhist : ((d.getc c).1.log (.typed c)).hist = .typed c :: d.hist :=
    congrArg (Event.typed c :: ·) (getc_hist d c)
  obtain ⟨⟨l, hl⟩, htaken⟩ := key_done (tty d.hist) c
  refine ⟨?_, ?_, ?_⟩
  · rw [hhist]
    have := h.repr.getc (c := c)
    exact { this with }
  · rw [hhist]
    change Console.consumed d.hist = ((tty d.hist).key c).done.take ((tty d.hist).key c).taken
    rw [hl, htaken, take_append_of_le_length h.repr.le]
    exact h.consumed
  · rw [hhist]
    exact h.honest

/-- The next character is used up by an event that says so. -/
theorem use (h : Ok d) (hlt : (tty d.hist).taken < (tty d.hist).done.length)
    (htty : tty (e :: d.hist) = { tty d.hist with taken := (tty d.hist).taken + 1 })
    (hcons : Console.consumed (e :: d.hist) =
      Console.consumed d.hist ++ [d.buf (place d.r)])
    (hhonest : Honest (e :: d.hist)) : Ok ({ d with r := d.r + 1 }.log e) where
  repr := by
    change Repr _ (tty (e :: d.hist))
    rw [htty]
    exact { h.repr.take hlt with }
  consumed := by
    change Console.consumed (e :: d.hist) =
      (tty (e :: d.hist)).done.take (tty (e :: d.hist)).taken
    rw [hcons, htty, h.consumed]
    change _ = (tty d.hist).done.take ((tty d.hist).taken + 1)
    rw [take_add_one, h.repr.next hlt]
    rfl
  honest := hhonest

end Ok

/-- The program points between `acquire` and `release`. -/
def holds : Pc → Bool
  | .idle => false
  | .intr _ l => l ≠ .enter
  | .read _ _ l => l ≠ .enter

theorem wf_console : console.Wf holds where
  instr p pc := by
    cases pc with
    | idle => rfl
    | intr cs l =>
      cases l with
      | loop =>
        cases cs with
        | nil => exact ⟨rfl, fun _ => rfl⟩
        | cons c cs => exact ⟨rfl, fun d => by dsimp only; split <;> rfl⟩
      | _ => exact ⟨rfl, rfl⟩
    | read target n l =>
      cases l with
      | loop =>
        refine ⟨rfl, fun d => ?_⟩
        dsimp only
        split
        · split
          · rfl
          · unfold take
            dsimp only
            split
            · split <;> rfl
            · split <;> rfl
        · rfl
      | fail => exact ⟨rfl, fun _ => rfl⟩
      | done => exact ⟨rfl, fun _ => rfl⟩
      | killed => exact ⟨rfl, rfl, rfl⟩
      | _ => exact ⟨rfl, rfl⟩
  entry op := by cases op <;> rfl

/-- What a process has copied (`l`) in its present call and whether it has met a `^D` (`m`), where
it is at a program point. -/
def Progress (l : List UInt8) (m : Bool) : Pc → Prop
  | .idle => l = [] ∧ m = false
  | .intr _ _ => l = [] ∧ m = false
  | .read target n .enter => l = [] ∧ m = false ∧ n = target
  | .read _ _ .leave => l = [] ∧ m = false
  | .read target n .done => (l.length : Int) = target - n ∧ (0 ≤ n ∨ n = target)
  | .read target n _ => (l.length : Int) = target - n ∧ (0 ≤ n ∨ n = target) ∧ m = false

def Outside (p : Nat) (pc : Pc) (d : Input) : Prop :=
  Progress (tookBy p d.hist) (metEof p d.hist) pc

/-- A reader that tests its mark, or goes to sleep, has found no character. -/
def Found (d : Input) : Pc → Prop
  | .read _ _ .killed => d.r = d.w
  | .read _ _ .sleep => d.r = d.w
  | _ => True

def Inside (p : Nat) (pc : Pc) (d : Input) : Prop := Ok d ∧ Outside p pc d ∧ Found d pc

/-- What another process does is none of `q`'s. -/
theorem Outside.frame {pc : Pc} {d' : Input} (hm : Outside q pc d) (hd : d'.hist = e :: d.hist)
    (he : e.actor ≠ some q) : Outside q pc d' := by
  rwa [Outside, hd, tookBy_of_ne he, metEof_of_ne he]

theorem actor_ne (hq : q ≠ p) (he : e.actor = some p) : e.actor ≠ some q := by
  rw [he]
  exact fun hpq => hq (Option.some.inj hpq).symm

theorem rule_intr (p : Nat) (cs : List Nat) (l : IntrAt) :
    (consoleintr cs l).Ok Ok Inside Outside p (.intr cs l) := by
  cases l with
  | enter => exact fun d h1 h2 => ⟨h1, h2, trivial⟩
  | loop =>
    cases cs with
    | nil => exact fun d h => ⟨⟨h.1, h.2.1, trivial⟩, fun _ _ _ hm => hm⟩
    | cons c cs =>
      rintro d ⟨hok, hmine, -⟩
      have hhist : ((d.getc c).1.log (.typed c)).hist = .typed c :: d.hist :=
        congrArg (Event.typed c :: ·) (getc_hist d c)
      refine ⟨⟨hok.getc c, ?_, ?_⟩, fun q hq k hm => hm.frame hhist nofun⟩
      · have hmine : Outside p (.intr cs .loop) d := hmine
        have : Outside p (.intr cs .loop) ((d.getc c).1.log (.typed c)) :=
          hmine.frame hhist nofun
        dsimp only
        split <;> exact this
      · dsimp only
        split <;> trivial
  | wake => exact fun d h => h
  | leave => exact fun d h => ⟨h.1, h.2.1⟩

theorem rule_take {target n : Int} (hok : Ok d) (hmine : Outside p (.read target n .loop) d)
    (hn : n > 0) (hne : d.r ≠ d.w) :
    Inside p (take p target n d).2 (take p target n d).1 ∧
      ∀ q ≠ p, ∀ k, Outside q k d → Outside q k (take p target n d).1 := by
  have hlt : (tty d.hist).taken < (tty d.hist).done.length :=
    Nat.lt_of_le_of_ne hok.repr.le fun he => hne (hok.repr.read_eq_iff.mpr he)
  obtain ⟨hlen, hnn, hmet⟩ := hmine
  have hnext := hok.repr.next hlt
  unfold take
  dsimp only
  split
  · next hc =>
    rw [hc] at hnext
    split
    · -- the `^D` stays where it is
      next hlt' =>
      have hr : d.r + 1 - 1 = d.r := UInt32.add_sub_cancel _ _
      rw [hr]
      refine ⟨⟨hok.log rfl rfl ⟨⟨fun h0 => ?_, hnext⟩, hok.honest⟩, ⟨hlen, hnn⟩, trivial⟩,
        fun q hq k hm => hm.frame rfl (actor_ne hq rfl)⟩
      rw [h0] at hlen
      simp at hlen
      omega
    · next hge =>
      refine ⟨⟨hok.use hlt rfl ?_ ⟨?_, hok.honest⟩, ⟨hlen, hnn⟩, trivial⟩,
        fun q hq k hm => hm.frame rfl (actor_ne hq rfl)⟩
      · rw [hc]
        rfl
      · have : (tookBy p d.hist).length = 0 := by omega
        exact eq_nil_of_length_eq_zero this
  · next hc =>
    have hok' := hok.use hlt (e := .took p (d.buf (place d.r))) rfl rfl
      ⟨⟨hc, hmet⟩, hok.honest⟩
    have hlen' : ((tookBy p (.took p (d.buf (place d.r)) :: d.hist)).length : Int) =
        target - (n - 1) := by
      rw [tookBy, if_pos rfl, length_append, length_singleton]
      omega
    refine ⟨⟨hok', ?_, ?_⟩, fun q hq k hm => hm.frame rfl (actor_ne hq rfl)⟩
    · split
      · exact ⟨hlen', .inl (by omega)⟩
      · exact ⟨hlen', .inl (by omega), hmet⟩
    · split <;> trivial

theorem rule_read (p : Nat) (target n : Int) (l : ReadAt) :
    (consoleread p target n l).Ok Ok Inside Outside p (.read target n l) := by
  cases l with
  | enter =>
    rintro d h1 ⟨h2, h3, rfl⟩
    exact ⟨h1, ⟨by rw [h2]; simp, .inr rfl, h3⟩, trivial⟩
  | loop =>
    rintro d ⟨hok, hmine, -⟩
    dsimp only
    split
    · next hn =>
      split
      · next hempty => exact ⟨⟨hok, hmine, hempty⟩, fun _ _ _ hm => hm⟩
      · next hne => exact rule_take hok hmine hn hne
    · exact ⟨⟨hok, ⟨hmine.1, hmine.2.1⟩, trivial⟩, fun _ _ _ hm => hm⟩
  | killed => exact fun d h => ⟨⟨h.1, h.2.1, trivial⟩, h⟩
  | sleep => exact ⟨fun d h => ⟨h.1, h.2.1⟩, fun d h1 h2 => ⟨h1, h2, trivial⟩⟩
  | fail =>
    rintro d ⟨hok, -, -⟩
    exact ⟨⟨hok.log rfl rfl ⟨.inl rfl, hok.honest⟩, ⟨if_pos rfl, if_pos rfl⟩, trivial⟩,
      fun q hq k hm => hm.frame rfl (actor_ne hq rfl)⟩
  | done =>
    rintro d ⟨hok, ⟨hlen, hn⟩, -⟩
    refine ⟨⟨hok.log rfl rfl ⟨.inr ⟨hlen.symm, ?_⟩, hok.honest⟩, ⟨if_pos rfl, if_pos rfl⟩, trivial⟩,
      fun q hq k hm => hm.frame rfl (actor_ne hq rfl)⟩
    omega
  | leave => exact fun d h => ⟨h.1, h.2.1⟩

theorem rule_console : Rule console Ok Inside Outside where
  instr p pc := by
    cases pc with
    | idle => trivial
    | intr cs l => exact rule_intr p cs l
    | read target n l => exact rule_read p target n l
  entry p pc op d hi hm := by
    have hidle : pc = .idle := by
      cases pc with
      | idle => rfl
      | intr cs l =>
        cases l with
        | loop => cases cs <;> cases hi
        | _ => cases hi
      | read target n l => cases l <;> cases hi
    subst hidle
    cases op with
    | intr cs => exact hm
    | read n => exact ⟨hm.1, hm.2, rfl⟩

end Program

/-! ### Wakeups -/

/-- There is something to read. -/
def ready (_ : Chan) (d : Input) : Prop := d.r ≠ d.w

/-- `consoleintr` has committed a character and not called `wakeup` yet. -/
def owes (_ : Chan) : Pc → Bool
  | .intr _ .wake => true
  | _ => false

section Wakeups

variable {s : State Input Pc Chan} {p : Nat} {acts : List (Act Op)}

theorem pays_intr {cs : List Nat} {l : IntrAt} :
    Pays ready owes s p (.intr cs l) (consoleintr cs l) := by
  cases l with
  | loop =>
    cases cs with
    | nil =>
      intro q c hw hold hr
      exact nomatch hold hr
    | cons c cs =>
      intro q ch hw hold hr
      dsimp only at hr ⊢
      cases hwake : (s.data.getc c).2 with
      | true => rfl
      | false =>
        -- without a commit there is still nothing to read
        have hsame := getc_committed hwake
        refine nomatch hold fun he => hr ?_
        change (s.data.getc c).1.r = (s.data.getc c).1.w
        rw [hsame.1, hsame.2, he]
  | wake => exact fun q c hw ho => .inl (by cases c; rfl)
  | enter => trivial
  | leave => exact fun q c hw => rfl

theorem pays_read {target n : Int} {l : ReadAt} (hf : Inside p (.read target n l) s.data) :
    Pays ready owes s p (.read target n l) (consoleread p target n l) := by
  cases l with
  | loop =>
    intro q c hw hold hr
    exfalso
    -- somebody waits, so there is nothing to read
    have hempty : s.data.r = s.data.w := by
      by_contra hne
      exact nomatch hold hne
    dsimp only at hr
    rw [if_pos hempty] at hr
    split at hr <;> exact hr hempty
  | killed => exact fun q c hw ho => nomatch ho
  | sleep => exact ⟨fun hr => hr hf.2.2, fun q c hw => rfl⟩
  | fail => exact fun q c hw hold hr => nomatch hold hr
  | done => exact fun q c hw hold hr => nomatch hold hr
  | enter => trivial
  | leave => exact fun q c hw => rfl

theorem inv_run (hr : run console acts init = some s) :
    Locked holds s ∧ Fits holds Ok Inside Outside s ∧ Heard holds ready owes s := by
  refine run_induct (G := fun _ _ => True) (Q := fun s => Locked holds s ∧
    Fits holds Ok Inside Outside s ∧ Heard holds ready owes s) (fun s a p s' h _ hs => ?_) ?_
    (guardedRun_of_forall (fun _ _ => trivial) _ _) hr
  · obtain ⟨hl, hf, hh⟩ := h
    refine ⟨hl.step wf_console hs, hf.step wf_console rule_console hl hs,
      hh.step wf_console hl hs fun pc ha hm => ?_⟩
    have hfit := hf.fit p
    rw [hm] at hfit
    cases pc with
    | idle => trivial
    | intr cs l => exact pays_intr
    | read target n l =>
      by_cases hl : l = .enter
      · subst hl
        trivial
      · exact pays_read ((fit_inside (by simp [holds, hl])).mp hfit)
  · exact ⟨locked_start rfl, fits_start rfl ok_new fun _ => ⟨rfl, rfl⟩, heard_start⟩

theorem ok_of_fits (hl : Locked holds s) (hf : Fits holds Ok Inside Outside s) : Ok s.data :=
  hf.inv hl fun _ _ h => h.1

theorem done_isPrefix {s' : State Input Pc Chan} (hr : run console acts s = some s') :
    (tty s.data.hist).done <+: (tty s'.data.hist).done := by
  refine run_data (R := fun d d' => (tty d.hist).done <+: (tty d'.hist).done)
    (fun _ => prefix_rfl) (fun _ _ _ h1 h2 => ?_) (fun p pc f d hi => ?_) hr
  · exact h1.trans h2
  cases pc with
  | idle => cases hi
  | intr cs l =>
    cases l with
    | loop =>
      cases cs with
      | nil =>
        cases hi
        exact prefix_rfl
      | cons c cs =>
        cases hi
        change _ <+: (tty (.typed c :: (d.getc c).1.hist)).done
        rw [getc_hist]
        exact tty_done_isPrefix _ _
    | _ => cases hi
  | read target n l =>
    cases l with
    | loop =>
      cases hi
      dsimp only
      split
      · split
        · exact prefix_rfl
        · unfold take
          dsimp only
          split
          · split <;> exact tty_done_isPrefix _ _
          · exact tty_done_isPrefix _ _
      · exact prefix_rfl
    | fail =>
      cases hi
      exact tty_done_isPrefix _ _
    | done =>
      cases hi
      exact tty_done_isPrefix _ _
    | _ => cases hi

/-- The characters in the buffer, the next one to be read first. -/
def contents (d : Input) : List UInt8 :=
  (List.range (d.e - d.r).toNat).map fun i => d.buf (place (d.r + UInt32.ofNat i))

theorem contents_eq {d : Input} {t : Tty} (h : Repr d t) :
    contents d = (t.done ++ t.line).drop t.taken := by
  rw [contents, ← h.ring.contents, h.pending_eq, Tty.pending, length_append, h.read]
  refine map_congr_left fun i _ => ?_
  rw [← UInt32.ofNat_add, place_ofNat]

/-- The user types `ab`, deletes the `b`, types `^D`; a read gets the `a` and the next one nothing. -/
def typeRead : List (Act Op) :=
  List.flatten [[.call 0 (.intr [97, 98, ctrl 'H', ctrl 'D'])], List.replicate 10 (.exec 0),
    [.call 1 (.read 8)], List.replicate 5 (.exec 1), [.call 1 (.read 8)],
    List.replicate 4 (.exec 1)]

end Wakeups

end Console

end Xv6
