import Xv6.ShPlumbing

/-!
# The order of redirections

`parseredirs` puts each redirection around the command read so far, so the last one of the line is
the outermost node, and `runcmd` opens its file first. What is in effect when the command starts is
thus the *first* redirection of a descriptor (`calls_wrap`), where a reader of the line expects the
last one: `redirs_in_order_iff` says for which lines this is the same.
-/

namespace Xv6

namespace Sh

variable {ts : List Token} {c : Cmd (List Char)} {rs : List Redir} {n m : Nat} {l l' : Local}
  {code : Code Unit} {t : Table}

/-! ### Lines and their redirections -/

/-- A simple command or a block, the command without its redirections, and these in the order of the
line. -/
inductive Written : List Token → Cmd (List Char) → List Redir → Prop
  | block {ts us c rs} : Line ts c → Redirs us rs → Written (.sym '(' :: ts ++ .sym ')' :: us) c rs
  | args {ts us ws rs rs'} : Redirs us rs → Args ts ws rs' → ws.length ≤ 9 →
      Written (us ++ ts) (.exec ws) (rs ++ rs')

theorem Written.exec (h : Written ts c rs) : Exec ts (wrap c rs) := by
  cases h with
  | block hl hr => exact .block hl hr
  | args hr ha hlen => exact .args hr ha hlen

theorem Written.fd_le (h : Written ts c rs) : ∀ r ∈ rs, r.fd ≤ 1 := by
  cases h with
  | block _ hr => exact hr.fdOk
  | args hr ha _ => exact fun r hm => (List.mem_append.mp hm).elim (hr.fdOk r) (ha.fdOk r)

/-- Where such a command is the whole line, this is the tree that the parser returns. -/
theorem Written.parsecmd {s : List Char} (h : Written (tokens s) c rs) (hs : NUL ∉ s)
    (hn : 4 * s.length + 4 ≤ n) : parsecmd n s = .ok (wrap c rs) := by
  have hline := Line.pipe 0 (.exec h.exec)
  rw [List.replicate_zero, List.append_nil] at hline
  rcases parsecmd_complete (n := n) hs hline with hp | hp
  · exact hp
  · -- there were enough rounds
    rcases parsecmd_sound hs hn with ⟨t, ht, -⟩ | ⟨e, he, hr⟩
    · cases hp.symm.trans ht
    · cases hp.symm.trans he
      exact absurd hr (by decide)

/-! ### Tables -/

/-- The descriptors after a redirection. -/
def redirect (t : Table) (r : Redir) : Table :=
  Function.update t r.fd (some (.inode r.file r.mode))

/-- The first redirection of a descriptor. -/
def firstOf (fd : Nat) (rs : List Redir) : Option Redir := rs.find? fun r => r.fd = fd

/-- The descriptor `fd` if `r` was its last redirection. -/
def inEffect (t : Table) (fd : Nat) : Option Redir → Option File
  | some r => some (.inode r.file r.mode)
  | none => t fd

theorem foldr_redirect (t : Table) (rs : List Redir) (fd : Nat) :
    rs.foldr (fun r t => redirect t r) t fd = inEffect t fd (firstOf fd rs) := by
  induction rs with
  | nil => rfl
  | cons r rs ih =>
    rw [List.foldr_cons, redirect, firstOf, List.find?_cons]
    by_cases hfd : r.fd = fd
    · subst hfd
      simp [inEffect]
    · rw [Function.update_of_ne (Ne.symm hfd), ih]
      simp [hfd, firstOf]

/-- Applied from left to right, the last redirection of a descriptor is in effect. -/
theorem foldl_redirect (t : Table) (rs : List Redir) (fd : Nat) :
    rs.foldl redirect t fd = inEffect t fd (firstOf fd rs.reverse) := by
  rw [← foldr_redirect, List.foldr_reverse]

/-- Of every descriptor the first and the last redirection open the same file in the same way. -/
def Agree (rs : List Redir) : Prop := ∀ fd, firstOf fd rs = firstOf fd rs.reverse

theorem inEffect_inj {fd : Nat} :
    inEffect t fd (firstOf fd rs) = inEffect t fd (firstOf fd rs.reverse) ↔
      firstOf fd rs = firstOf fd rs.reverse := by
  refine ⟨fun h => ?_, fun h => by rw [h]⟩
  have hnone : firstOf fd rs = none ↔ firstOf fd rs.reverse = none := by
    simp [firstOf, List.find?_eq_none]
  cases hf : firstOf fd rs with
  | none => rw [hnone.mp hf]
  | some r =>
    cases hb : firstOf fd rs.reverse with
    | none => exact absurd (hnone.mpr hb) (by rw [hf]; exact nofun)
    | some r' =>
      -- both are redirections of `fd`, so only the file and the mode are left to compare
      have hr := List.find?_some hf
      have hr' := List.find?_some hb
      rw [hf, hb] at h
      obtain ⟨file, mode, i⟩ := r
      obtain ⟨file', mode', i'⟩ := r'
      simp_all [inEffect]

theorem foldr_eq_foldl_iff :
    rs.foldr (fun r t => redirect t r) t = rs.foldl redirect t ↔ Agree rs := by
  rw [funext_iff]
  refine forall_congr' fun fd => ?_
  rw [foldr_redirect, foldl_redirect]
  exact inEffect_inj

/-! ### The calls of `runcmd` -/

/-- A call that opens a file succeeds. -/
def Opened : (c : SysCall) → c.Ret → Prop
  | .openFile _ _, r => 0 ≤ r
  | _, _ => True

/-- A process makes `m` calls, and each `open` among them succeeds. -/
inductive Calls (n : Nat) : Nat → Code Unit → Local → Code Unit → Local → Prop
  | nil (code : Code Unit) (l : Local) : Calls n 0 code l code l
  | cons {m : Nat} {c : SysCall} {k : c.Ret → Code Unit} {r : c.Ret} {l l₁ l' : Local}
      {code : Code Unit} : After n c l r l₁ → Opened c r → Calls n m (k r) l₁ code l' →
      Calls n (m + 1) (.call c k) l code l'

/-- The code is about to run the command `c`. -/
def Begins (c : Cmd (List Char)) (code : Code Unit) : Prop := ∃ f, code = (runcmd c).bind f

theorem Code.bind_assoc {α β γ : Type} (x : Code α) (f : α → Code β) (g : β → Code γ) :
    (x.bind f).bind g = x.bind fun a => (f a).bind g := by
  induction x with
  | ret a => rfl
  | call c k ih => exact congrArg (Code.call c) (funext ih)

/-- The calls for one redirection. Closing the descriptor makes it the lowest free one. -/
theorem calls_redir (hl : Std l.ofile) {r : Redir} (hr : r.fd ≤ 1) {f : Unit → Code Unit} :
    Calls n (m + 3) ((runcmd (.redir c r.file r.mode r.fd)).bind f) l code l' ↔
      Calls n m ((runcmd c).bind fun _ => exit.bind f)
        ({ l with ofile := redirect l.ofile r }.enter .redir c) code l' := by
  have halloc := fdalloc_sysClose (t := l.ofile) (i := r.fd) (by rw [NOFILE]; omega)
    (fun j hj => (hl j).mpr (by omega)) (.inode r.file r.mode)
  have hneg : ¬ (r.fd : Int) < 0 := by omega
  rw [← Code.bind_assoc]
  constructor
  · intro h
    cases h with | cons hclose _ h =>
    subst hclose
    cases h with | cons hopen hok h =>
    rcases hopen with ⟨rfl, -⟩ | ⟨fd, t, ht, rfl, rfl⟩
    · exact absurd (show (0 : Int) ≤ -1 from hok) (by decide)
    · rw [halloc] at ht
      cases ht
      simp only [Code.bind, if_neg hneg] at h
      cases h with | cons henter _ h =>
      subst henter
      exact h
  · intro h
    refine .cons (r := (0 : Int)) rfl trivial ?_
    have hok : Opened (.openFile r.file r.mode) (r.fd : Int) := Int.natCast_nonneg _
    refine .cons (.inr ⟨r.fd, _, halloc, rfl, rfl⟩) hok ?_
    simp only [Code.bind, if_neg hneg]
    exact .cons (r := (0 : Int)) rfl trivial h

/-- All redirections of a command: the process comes to the command with the files of the first
ones. -/
theorem calls_wrap (rs : List Redir) (hrs : ∀ r ∈ rs, r.fd ≤ 1) :
    ∀ (l : Local), Std l.ofile → ∀ f : Unit → Code Unit,
      (∃ code l', Calls n (3 * rs.length) ((runcmd (wrap c rs)).bind f) l code l') ∧
      ∀ code l', Calls n (3 * rs.length) ((runcmd (wrap c rs)).bind f) l code l' →
        Begins c code ∧ l'.ofile = rs.foldr (fun r t => redirect t r) l.ofile := by
  -- the last redirection of the line is the outermost one and comes first
  induction rs using List.reverseRecOn with
  | nil =>
    intro l _ f
    refine ⟨⟨_, _, .nil _ _⟩, fun code l' h => ?_⟩
    cases h
    exact ⟨⟨f, rfl⟩, rfl⟩
  | append_singleton rs r ih =>
    intro l hl f
    have hr : r.fd ≤ 1 := hrs r (by simp)
    have hwrap : wrap c (rs ++ [r]) = .redir (wrap c rs) r.file r.mode r.fd := wrap_append
    have hlen : 3 * (rs ++ [r]).length = 3 * rs.length + 3 := by
      rw [List.length_append, List.length_singleton, Nat.mul_add]
    have hstd : Std (redirect l.ofile r) := hl.update (by omega) _
    obtain ⟨hex, hall⟩ := ih (fun r' hr' => hrs r' (List.mem_append_left _ hr'))
      ({ l with ofile := redirect l.ofile r }.enter .redir (wrap c rs)) hstd fun _ => exit.bind f
    simp only [hwrap, hlen, calls_redir hl hr]
    refine ⟨hex, fun code l' h => ?_⟩
    rw [List.foldr_append]
    exact hall code l' h

theorem Code.bind_ret {α : Type} (x : Code α) : x.bind .ret = x := by
  induction x with
  | ret a => rfl
  | call c k ih => exact congrArg (Code.call c) (funext ih)

/-- **When redirections apply in the order of the line.** Take a simple command or a block with its
redirections, in a process with the descriptors 0, 1 and 2. If every `open` succeeds, the process
starts the command after three calls for each redirection. Its descriptors then are those obtained by
applying the redirections from left to right if and only if of every descriptor the first and the
last redirection are the same. -/
theorem redirs_in_order_iff (h : Written ts c rs) (hl : Std l.ofile) (k : Nat) :
    (∀ s n, tokens s = ts → NUL ∉ s → 4 * s.length + 4 ≤ n → parsecmd n s = .ok (wrap c rs)) ∧
    (∃ code l', Calls k (3 * rs.length) (runcmd (wrap c rs)) l code l') ∧
    ((∀ code l', Calls k (3 * rs.length) (runcmd (wrap c rs)) l code l' →
        Begins c code ∧ l'.ofile = rs.foldl redirect l.ofile) ↔ Agree rs) := by
  obtain ⟨⟨code, l', hrun⟩, hall⟩ := calls_wrap (n := k) (c := c) rs h.fd_le l hl .ret
  rw [Code.bind_ret] at hrun hall
  refine ⟨fun s n hs hnul hn => Written.parsecmd (hs ▸ h) hnul hn, ⟨code, l', hrun⟩, ?_⟩
  rw [← foldr_eq_foldl_iff (t := l.ofile)]
  constructor
  · -- the run above is one of them
    intro hlaw
    rw [← (hall code l' hrun).2, (hlaw code l' hrun).2]
  · intro heq code l' hrun
    exact ⟨(hall code l' hrun).1, (hall code l' hrun).2.trans heq⟩

/-- A process with a terminal as its three descriptors. -/
def onTerminal : Local where
  ofile fd := if fd < 3 then some (.inode ['t', 't', 'y'] 2) else none
  node := .exec []
  entry _ := none
  pipe := none
  sides := []

theorem onTerminal_std : Std onTerminal.ofile := by
  intro fd
  rw [onTerminal, Option.isSome_ite]

/-- `c <a >b` has one redirection of each descriptor. -/
theorem written_both : Written (tokens "c <a >b".toList) (.exec [['c']])
    [⟨['a'], 0, 0⟩, ⟨['b'], 513, 1⟩] := by
  have htok : tokens "c <a >b".toList =
      [.word ['c'], .sym '<', .word ['a'], .sym '>', .word ['b']] := by decide +kernel
  rw [htok]
  exact .args .nil (.cons ['c'] (.cons ['a'] rfl (.cons ['b'] rfl .nil)) .nil) (by decide)

theorem redirs_in_order_both : ∃ code l',
    Calls 0 6 (runcmd (wrap (.exec [['c']]) [⟨['a'], 0, 0⟩, ⟨['b'], 513, 1⟩])) onTerminal code l' ∧
      Begins (.exec [['c']]) code ∧
      l'.ofile = redirect (redirect onTerminal.ofile ⟨['a'], 0, 0⟩) ⟨['b'], 513, 1⟩ := by
  obtain ⟨-, ⟨code, l', hrun⟩, hlaw⟩ := redirs_in_order_iff written_both onTerminal_std 0
  refine ⟨code, l', hrun, hlaw.mpr (fun fd => ?_) code l' hrun⟩
  match fd with
  | 0 => rfl
  | 1 => rfl
  | fd + 2 => rfl

/-- `c >a >b`: both files are opened, and the output goes to `a`. -/
theorem redirs_first_wins : ∃ cmd, parsecmd 100 "c >a >b".toList = .ok cmd ∧
    ∃ code l', Calls 0 6 (runcmd cmd) onTerminal code l' ∧ Begins (.exec [['c']]) code ∧
      l'.ofile 1 = some (.inode ['a'] 513) := by
  refine ⟨.redir (.redir (.exec [['c']]) ['a'] 513 1) ['b'] 513 1, by decide +kernel, ?_⟩
  obtain ⟨⟨code, l', hrun⟩, hall⟩ := calls_wrap (n := 0) (c := .exec [['c']])
    [⟨['a'], 513, 1⟩, ⟨['b'], 513, 1⟩] (by simp) onTerminal onTerminal_std .ret
  rw [Code.bind_ret] at hrun hall
  obtain ⟨hbegins, htab⟩ := hall code l' hrun
  exact ⟨code, l', hrun, hbegins, by rw [htab]; rfl⟩

end Sh

end Xv6
