import Xv6.Lib.StateWp

/-!
# The shell's parser

`sh.c`, from `gettoken` to `parsecmd`. The line is a list of characters. A pointer into it is the
rest of the line from there, so `es` is the empty list and `*s` is 0 there. The parser keeps its
place in a variable, and stops by calling `panic`. Every call and every round of a loop takes one
from a number that is given to `parsecmd`.
-/

namespace Xv6

namespace Sh

/-- A pointer into the line: the characters from there on. -/
abbrev Ptr := List Char

/-- The character that ends a string. -/
def NUL : Char := Char.ofNat 0

/-- `*s`. -/
def deref (s : Ptr) : Char := s.headD NUL

/-- `whitespace`: space, `\t`, `\r`, `\n` and `\v`. -/
def whitespace : List Char := [' ', '\t', '\r', '\n', Char.ofNat 11]

def symbols : List Char := ['<', '|', '>', '&', ';', '(', ')']

/-- `struct cmd`, with words of any kind. -/
inductive Cmd (α : Type) where
  | exec (argv : List α)
  | redir (cmd : Cmd α) (file : α) (mode fd : Nat)
  | pipe (left right : Cmd α)
  | list (left right : Cmd α)
  | back (cmd : Cmd α)
  deriving Repr, DecidableEq

def O_RDONLY : Nat := 0x000
def O_WRONLY : Nat := 0x001
def O_CREATE : Nat := 0x200

def MAXARGS : Nat := 10

/-- Why the parser stops: `panic` with a text, or a number of rounds that was too small. -/
inductive Stop where
  | panic (msg : String)
  | fuel
  deriving Repr, DecidableEq

/-- Code that moves the pointer `*ps`. -/
abbrev M := StateT Ptr (Except Stop)

/-- A word in the line: where it begins and where it ends. -/
abbrev Span := Ptr × Ptr

/-! ### Tokens -/

/-- `while(s < es && strchr(whitespace, *s)) s++`. -/
def skip (s : Ptr) : Ptr := s.dropWhile (· ∈ whitespace)

/-- The characters of words. -/
def isWord (c : Char) : Bool := c ∉ whitespace ∧ c ∉ symbols

/-- The `switch` of `gettoken`: the result, and where the token ends. -/
def scanToken (q : Ptr) : Char × Ptr :=
  let c := deref q
  if c = NUL then (c, q)
  else if c ∈ ['|', '(', ')', ';', '&', '<'] then (c, q.tail)
  else if c = '>' then
    if deref q.tail = '>' then ('+', q.tail.tail) else (c, q.tail)
  else ('a', q.dropWhile isWord)

/-- `gettoken`: the kind of the token, its beginning and its end. -/
def gettoken : M (Char × Ptr × Ptr) := do
  let q := skip (← get)
  let (ret, eq) := scanToken q
  set (skip eq)
  pure (ret, q, eq)

/-- `peek`. -/
def peek (toks : List Char) : M Bool := do
  let s := skip (← get)
  set s
  pure (deref s ≠ NUL ∧ deref s ∈ toks)

/-! ### The parser -/

/-- `cmd->argv[argc] = q`, in the `execcmd` that the redirections in `cmd` are around. -/
def push (q : Span) : Cmd Span → Cmd Span
  | .exec argv => .exec (argv ++ [q])
  | .redir cmd file mode fd => .redir (push q cmd) file mode fd
  | cmd => cmd

/-- The body of the loop of `parseredirs`. -/
def parseredir (cmd : Cmd Span) : M (Cmd Span) := do
  let (tok, _, _) ← gettoken
  let (tok', q, eq) ← gettoken
  if tok' ≠ 'a' then throw (.panic "missing file for redirection")
  else if tok = '<' then pure (.redir cmd (q, eq) O_RDONLY 0)
  else if tok = '>' then pure (.redir cmd (q, eq) (O_WRONLY ||| O_CREATE) 1)
  else if tok = '+' then pure (.redir cmd (q, eq) (O_WRONLY ||| O_CREATE) 1)
  else pure cmd

def parseredirs : Nat → Cmd Span → M (Cmd Span)
  | 0, _ => throw .fuel
  | n + 1, cmd => do
    if ← peek ['<', '>'] then
      let cmd ← parseredir cmd
      parseredirs n cmd
    else pure cmd

/-- The loop of `parseline`. -/
def parsebacks : Nat → Cmd Span → M (Cmd Span)
  | 0, _ => throw .fuel
  | n + 1, cmd => do
    if ← peek ['&'] then
      let _ ← gettoken
      parsebacks n (.back cmd)
    else pure cmd

/-- The loop of `parseexec`. -/
def parseargs : Nat → Nat → Cmd Span → M (Cmd Span)
  | 0, _, _ => throw .fuel
  | n + 1, argc, ret => do
    if ← peek ['|', ')', '&', ';'] then pure ret
    else
      let (tok, q, eq) ← gettoken
      if tok = NUL then pure ret
      else if tok ≠ 'a' then throw (.panic "syntax")
      else
        let ret := push (q, eq) ret
        let argc := argc + 1
        if argc ≥ MAXARGS then throw (.panic "too many args")
        else
          let ret ← parseredirs n ret
          parseargs n argc ret

mutual

def parseline : Nat → M (Cmd Span)
  | 0 => throw .fuel
  | n + 1 => do
    let cmd ← parsepipe n
    let cmd ← parsebacks n cmd
    if ← peek [';'] then
      let _ ← gettoken
      let right ← parseline n
      pure (.list cmd right)
    else pure cmd

def parsepipe : Nat → M (Cmd Span)
  | 0 => throw .fuel
  | n + 1 => do
    let cmd ← parseexec n
    if ← peek ['|'] then
      let _ ← gettoken
      let right ← parsepipe n
      pure (.pipe cmd right)
    else pure cmd

def parseblock : Nat → M (Cmd Span)
  | 0 => throw .fuel
  | n + 1 => do
    if ← peek ['('] then
      let _ ← gettoken
      let cmd ← parseline n
      if ← peek [')'] then
        let _ ← gettoken
        parseredirs n cmd
      else throw (.panic "syntax - missing )")
    else throw (.panic "parseblock")

def parseexec : Nat → M (Cmd Span)
  | 0 => throw .fuel
  | n + 1 => do
    if ← peek ['('] then parseblock n
    else
      let ret ← parseredirs n (.exec [])
      parseargs n 0 ret

end

/-- `nulterminate`: the places where a 0 is stored, each as the length of the rest of the line. -/
def nulterminate : Cmd Span → List Nat
  | .exec argv => argv.map (·.2.length)
  | .redir cmd file _ _ => nulterminate cmd ++ [file.2.length]
  | .pipe left right => nulterminate left ++ nulterminate right
  | .list left right => nulterminate left ++ nulterminate right
  | .back cmd => nulterminate cmd

/-- The string at a pointer, after zeroes were stored at the places `nuls`. -/
def cstr (nuls : List Nat) : Ptr → List Char
  | [] => []
  | c :: s => if s.length + 1 ∈ nuls then [] else c :: cstr nuls s

/-- The same tree with other words. -/
def Cmd.map {α β : Type} (f : α → β) : Cmd α → Cmd β
  | .exec argv => .exec (argv.map f)
  | .redir cmd file mode fd => .redir (cmd.map f) (f file) mode fd
  | .pipe left right => .pipe (left.map f) (right.map f)
  | .list left right => .list (left.map f) (right.map f)
  | .back cmd => .back (cmd.map f)

/-- `parsecmd`: the tree, with the strings that its pointers stand for when it is returned. -/
def parsecmd (n : Nat) (s : List Char) : Except Stop (Cmd (List Char)) := do
  let (cmd, s) ← (parseline n).run s
  let (_, s) ← (peek []).run s
  if s ≠ [] then throw (.panic "syntax")
  else pure (cmd.map fun q => cstr (nulterminate cmd) q.1)

end Sh

end Xv6
