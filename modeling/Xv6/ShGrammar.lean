import Xv6.Sh

/-!
# The grammar of the shell

The lines that the shell's parser accepts are those whose tokens derive from

    line  ::= pipe '&'* [';' line]
    pipe  ::= exec ['|' pipe]
    exec  ::= block | redirs (word redirs)*       with at most 9 words
    block ::= '(' line ')' redirs
    redirs ::= (('<' | '>' | '>>') word)*

and the tree is the one of the derivation (`parsecmd_iff`). What a function returns derives from the
tokens that it has taken (`parse_sound`), and it takes the next tokens that derive (`parse_complete`).
-/

open List

namespace Xv6

namespace Sh

open StateWp

/-! ### The tokens of a line -/

/-- A symbol, `>>`, or a word. -/
inductive Token where
  | sym (c : Char)
  | append
  | word (w : List Char)
  deriving Repr, DecidableEq

/-- The tokens of a line. A word is a maximal run of characters that are neither whitespace nor
symbols: such a character before the first one of a word belongs to that word. -/
def tokens : List Char → List Token
  | [] => []
  | c :: s =>
    if c ∈ whitespace then tokens s
    else if c = '>' then
      match s with
      | [] => [.sym '>']
      | d :: s' => if d = '>' then .append :: tokens s' else .sym '>' :: tokens (d :: s')
    else if c ∈ symbols then .sym c :: tokens s
    else
      match s, tokens s with
      | d :: _, .word w :: ts => if isWord d then .word (c :: w) :: ts else .word [c] :: .word w :: ts
      | _, ts => .word [c] :: ts

/-- A redirection: its file, and how and as what it is opened. -/
structure Redir where
  file : List Char
  mode : Nat
  fd : Nat

/-- The command inside the redirections, the first one innermost. -/
def wrap (c : Cmd (List Char)) : List Redir → Cmd (List Char)
  | [] => c
  | r :: rs => wrap (.redir c r.file r.mode r.fd) rs

/-- One `BACK` for each `&`. -/
def backs : Nat → Cmd (List Char) → Cmd (List Char)
  | 0, c => c
  | n + 1, c => backs n (.back c)

/-- How `<`, `>` and `>>` open the file, and as which descriptor. -/
def redirOp : Token → Option (Nat × Nat)
  | .sym c =>
    if c = '<' then some (O_RDONLY, 0)
    else if c = '>' then some (O_WRONLY ||| O_CREATE, 1)
    else none
  | .append => some (O_WRONLY ||| O_CREATE, 1)
  | .word _ => none

/-- `(('<' | '>' | '>>') word)*`. -/
inductive Redirs : List Token → List Redir → Prop
  | nil : Redirs [] []
  | cons {op ts rs m fd} (w : List Char) : redirOp op = some (m, fd) → Redirs ts rs →
      Redirs (op :: .word w :: ts) (⟨w, m, fd⟩ :: rs)

/-- `(word redirs)*`. -/
inductive Args : List Token → List (List Char) → List Redir → Prop
  | nil : Args [] [] []
  | cons {us ts rs ws rs'} (w : List Char) : Redirs us rs → Args ts ws rs' →
      Args (.word w :: us ++ ts) (w :: ws) (rs ++ rs')

mutual

inductive Line : List Token → Cmd (List Char) → Prop
  | pipe {ts c} (n : Nat) : Pipe ts c →
      Line (ts ++ List.replicate n (.sym '&')) (backs n c)
  | list {ts us c d} (n : Nat) : Pipe ts c → Line us d →
      Line (ts ++ List.replicate n (.sym '&') ++ .sym ';' :: us) (.list (backs n c) d)

inductive Pipe : List Token → Cmd (List Char) → Prop
  | exec {ts c} : Exec ts c → Pipe ts c
  | pipe {ts us c d} : Exec ts c → Pipe us d → Pipe (ts ++ .sym '|' :: us) (.pipe c d)

inductive Exec : List Token → Cmd (List Char) → Prop
  | block {ts us c rs} : Line ts c → Redirs us rs →
      Exec (.sym '(' :: ts ++ .sym ')' :: us) (wrap c rs)
  | args {ts us ws rs rs'} : Redirs us rs → Args ts ws rs' → ws.length ≤ 9 →
      Exec (us ++ ts) (wrap (.exec ws) (rs ++ rs'))

end

/-! ### The lexer -/

variable {s q r : Ptr} {c d : Char} {ts us : List Token} {w : List Char} {E : Stop → Prop}

theorem tokens_space (hc : c ∈ whitespace) : tokens (c :: s) = tokens s := by
  rw [tokens.eq_def]
  exact if_pos hc

theorem tokens_skip (s : Ptr) : tokens (skip s) = tokens s := by
  induction s with
  | nil => rfl
  | cons c s ih =>
    by_cases hc : c ∈ whitespace
    · rw [skip, dropWhile_cons_of_pos (by simpa using hc), tokens_space hc]
      exact ih
    · rw [skip, dropWhile_cons_of_neg (by simpa using hc)]

theorem tokens_sym (hw : c ∉ whitespace) (hgt : c ≠ '>') (hc : c ∈ symbols) :
    tokens (c :: s) = .sym c :: tokens s := by
  rw [tokens.eq_def]
  dsimp only
  rw [if_neg hw, if_neg hgt, if_pos hc]

theorem tokens_gt (h : deref s ≠ '>') : tokens ('>' :: s) = .sym '>' :: tokens s := by
  cases s with
  | nil => rfl
  | cons d s =>
    have hd : d ≠ '>' := h
    rw [tokens, if_neg (by decide), if_pos rfl]
    simp [hd]

theorem tokens_append : tokens ('>' :: '>' :: s) = .append :: tokens s := by
  rw [tokens, if_neg (by decide), if_pos rfl]
  simp

theorem isWord_iff : isWord c = true ↔ c ∉ whitespace ∧ c ∉ symbols := by
  simp [isWord]

theorem tokens_word (hc : isWord c = true) :
    tokens (c :: s) = .word ((c :: s).takeWhile isWord) :: tokens ((c :: s).dropWhile isWord) := by
  -- by induction over the line, since the word is made from its last character on
  induction s generalizing c with
  | nil =>
    obtain ⟨h1, h2⟩ := isWord_iff.mp hc
    have hgt : c ≠ '>' := fun e => h2 (e ▸ by decide)
    rw [tokens, if_neg h1, if_neg hgt, if_neg h2]
    simp [hc, tokens]
  | cons d s ih =>
    obtain ⟨h1, h2⟩ := isWord_iff.mp hc
    have hgt : c ≠ '>' := fun e => h2 (e ▸ by decide)
    rw [tokens, if_neg h1, if_neg hgt, if_neg h2, takeWhile_cons_of_pos hc,
      dropWhile_cons_of_pos hc]
    by_cases hd : isWord d = true
    · rw [ih hd]
      simp [hd]
    · rw [takeWhile_cons_of_neg hd, dropWhile_cons_of_neg hd]
      -- the next token is not a word that begins with `d`
      split
      · next d' s' w ts hs ht =>
        cases hs
        rw [if_neg hd, ht]
      · rfl

/-- The word `w` of the line `buf`, from `q.1` to `q.2`, is a maximal run of word characters. -/
structure IsSpan (buf : List Char) (q : Span) (w : List Char) : Prop where
  suffix : q.1 <:+ buf
  eq : q.1 = w ++ q.2
  ne : w ≠ []
  word : ∀ c ∈ w, isWord c = true
  maximal : ∀ c ∈ q.2.head?, isWord c = false

/-- The rest `s` of the line `buf` has the tokens `ts`. -/
structure At (buf s : List Char) (ts : List Token) : Prop where
  suffix : s <:+ buf
  tokens : tokens s = ts

/-- Whether the first character of the first token is one of `toks`. -/
def peeks (toks : List Char) : List Token → Bool
  | .sym c :: _ => c ∈ toks
  | .append :: _ => '>' ∈ toks
  | _ => false

theorem skip_suffix (s : Ptr) : skip s <:+ s := dropWhile_suffix _

theorem At.skip {buf : List Char} (h : At buf s ts) : At buf (skip s) ts :=
  ⟨(skip_suffix s).trans h.suffix, (tokens_skip s).trans h.tokens⟩

theorem head_dropWhile {p : Char → Bool} (s : List Char) :
    ∀ c ∈ (s.dropWhile p).head?, p c = false := by
  intro c hc
  have h := List.head?_dropWhile_not p s
  rwa [Option.mem_def.mp hc] at h

theorem skip_cases (s : Ptr) : skip s = [] ∨ ∃ c r, skip s = c :: r ∧ c ∉ whitespace := by
  cases hs : skip s with
  | nil => exact .inl rfl
  | cons c r =>
    have h := head_dropWhile (p := (· ∈ whitespace)) s c
    rw [show s.dropWhile (· ∈ whitespace) = c :: r from hs] at h
    exact .inr ⟨c, r, rfl, by simpa using h rfl⟩

theorem gettoken_eq (s : Ptr) :
    gettoken s = .ok (((scanToken (skip s)).1, skip s, (scanToken (skip s)).2),
      skip (scanToken (skip s)).2) := rfl

/-- How `gettoken` and `peek` see a token: the result, and the first character. -/
def Seen (buf : List Char) : Token → Char → Char → Span → Prop
  | .sym c, ret, first, _ => c ∈ symbols ∧ ret = c ∧ first = c
  | .append, ret, first, _ => ret = '+' ∧ first = '>'
  | .word w, ret, first, q => ret = 'a' ∧ isWord first = true ∧ IsSpan buf q w

section Lex

variable {buf : List Char}

/-- **The lexer.** `gettoken` takes the first token of the rest of the line. -/
theorem lex (hbuf : NUL ∉ buf) (h : At buf s ts) :
    (ts = [] ∧ deref (skip s) = NUL ∧ scanToken (skip s) = (NUL, [])) ∨
    ∃ t ts', ts = t :: ts' ∧ deref (skip s) ≠ NUL ∧ At buf (skip (scanToken (skip s)).2) ts' ∧
      Seen buf t (scanToken (skip s)).1 (deref (skip s)) (skip s, (scanToken (skip s)).2) := by
  have hskip := h.skip
  rcases skip_cases s with he | ⟨c, r, he, hc⟩
  · refine .inl ⟨?_, by rw [he]; rfl, by rw [he]; rfl⟩
    rw [← hskip.tokens, he]
    rfl
  rw [he] at hskip ⊢
  have hr : r <:+ buf := (suffix_cons c r).trans hskip.suffix
  have hnul : c ≠ NUL := fun e => hbuf (hskip.suffix.subset (e ▸ mem_cons_self))
  right
  have hts := hskip.tokens
  have hderef : deref (c :: r) = c := rfl
  by_cases hword : isWord c = true
  · -- a word
    obtain ⟨h1, h2⟩ := isWord_iff.mp hword
    have hscan : scanToken (c :: r) = ('a', (c :: r).dropWhile isWord) := by
      have hno : c ∉ ['|', '(', ')', ';', '&', '<'] := fun hm => h2 (by
        revert hm
        simp only [symbols, mem_cons, not_mem_nil, or_false]
        rintro (h | h | h | h | h | h) <;> simp [h])
      have hgt : c ≠ '>' := fun e => h2 (e ▸ by decide)
      simp only [scanToken, hderef, if_neg hnul, if_neg hno, if_neg hgt]
    rw [tokens_word hword] at hts
    refine ⟨_, _, hts.symm, hderef ▸ hnul, ?_, ?_⟩
    · rw [hscan]
      refine (At.mk ?_ rfl).skip
      exact (dropWhile_suffix _).trans hskip.suffix
    · rw [hscan]
      refine ⟨rfl, hword, hskip.suffix, takeWhile_append_dropWhile.symm, ?_, ?_, ?_⟩
      · rw [takeWhile_cons_of_pos hword]
        exact cons_ne_nil _ _
      · exact fun d hd => mem_takeWhile_imp hd
      · exact head_dropWhile (c :: r)
  · have hsym : c ∈ symbols := by
      by_contra hno
      exact hword (isWord_iff.mpr ⟨hc, hno⟩)
    by_cases hgt : c = '>'
    · subst hgt
      have hno : '>' ∉ ['|', '(', ')', ';', '&', '<'] := by decide
      cases r with
      | nil =>
        rw [tokens_gt (by decide)] at hts
        refine ⟨_, _, hts.symm, by decide, ⟨nil_suffix, rfl⟩, ?_⟩
        exact ⟨hsym, rfl, rfl⟩
      | cons d r =>
        by_cases hd : d = '>'
        · subst hd
          rw [tokens_append] at hts
          refine ⟨_, _, hts.symm, hderef ▸ hnul, ?_, ?_⟩
          · exact (At.mk ((suffix_cons _ r).trans hr) rfl).skip
          · exact ⟨rfl, rfl⟩
        · have hd' : deref (d :: r) ≠ '>' := hd
          rw [tokens_gt hd'] at hts
          have hscan : scanToken ('>' :: d :: r) = ('>', d :: r) := by
            simp only [scanToken, hderef, if_neg hnul, if_neg hno, if_pos, tail_cons,
              if_neg hd']
          rw [hscan]
          exact ⟨_, _, hts.symm, hderef ▸ hnul, (At.mk hr rfl).skip, hsym, rfl, rfl⟩
    · rw [tokens_sym hc hgt hsym] at hts
      have hin : c ∈ ['|', '(', ')', ';', '&', '<'] := by
        revert hsym
        simp only [symbols, mem_cons, not_mem_nil, or_false]
        rintro (h | h | h | h | h | h | h) <;> simp_all
      have hscan : scanToken (c :: r) = (c, r) := by
        simp only [scanToken, hderef, if_neg hnul, if_pos hin, tail_cons]
      rw [hscan]
      exact ⟨_, _, hts.symm, hderef ▸ hnul, (At.mk hr rfl).skip, hsym, rfl, rfl⟩

variable {toks : List Char}

theorem wp_peek (hbuf : NUL ∉ buf) (h : At buf s ts) (htoks : toks ⊆ symbols)
    {Q : Bool → Ptr → Prop} (hQ : ∀ s', At buf s' ts → Q (peeks toks ts) s') :
    wp E (peek toks) Q s := by
  have hres : peek toks s = .ok (decide (deref (skip s) ≠ NUL ∧ deref (skip s) ∈ toks), skip s) := rfl
  rw [wp_of_ok hres]
  have hval : decide (deref (skip s) ≠ NUL ∧ deref (skip s) ∈ toks) = peeks toks ts := by
    rcases lex hbuf h with ⟨rfl, h0, -⟩ | ⟨t, ts', rfl, hne, -, hseen⟩
    · simp [h0, peeks]
    · cases t with
      | sym c => simp [← hseen.2.2, hne, peeks]
      | append =>
        have hgt : '>' ≠ NUL := by decide
        simp [hseen.2, hgt, peeks]
      | word w =>
        have hno : deref (skip s) ∉ toks := fun hm => (isWord_iff.mp hseen.2.1).2 (htoks hm)
        simp [hno, peeks]
  rw [hval]
  exact hQ _ h.skip

theorem wp_gettoken_sym (hbuf : NUL ∉ buf) (h : At buf s (.sym c :: ts))
    {Q : Char × Ptr × Ptr → Ptr → Prop} (hQ : ∀ q e s', At buf s' ts → Q (c, q, e) s') :
    wp E gettoken Q s := by
  rw [wp_of_ok (gettoken_eq s)]
  rcases lex hbuf h with ⟨he, -⟩ | ⟨t, ts', he, -, hat, hseen⟩
  · cases he
  · cases he
    rw [hseen.2.1]
    exact hQ _ _ _ hat

theorem wp_gettoken_append (hbuf : NUL ∉ buf) (h : At buf s (.append :: ts))
    {Q : Char × Ptr × Ptr → Ptr → Prop} (hQ : ∀ q e s', At buf s' ts → Q ('+', q, e) s') :
    wp E gettoken Q s := by
  rw [wp_of_ok (gettoken_eq s)]
  rcases lex hbuf h with ⟨he, -⟩ | ⟨t, ts', he, -, hat, hseen⟩
  · cases he
  · cases he
    rw [hseen.1]
    exact hQ _ _ _ hat

theorem wp_gettoken_word (hbuf : NUL ∉ buf) (h : At buf s (.word w :: ts))
    {Q : Char × Ptr × Ptr → Ptr → Prop}
    (hQ : ∀ q e s', At buf s' ts → IsSpan buf (q, e) w → Q ('a', q, e) s') :
    wp E gettoken Q s := by
  rw [wp_of_ok (gettoken_eq s)]
  rcases lex hbuf h with ⟨he, -⟩ | ⟨t, ts', he, -, hat, hseen⟩
  · cases he
  · cases he
    rw [hseen.1]
    exact hQ _ _ _ hat hseen.2.2

theorem wp_gettoken_nil (hbuf : NUL ∉ buf) (h : At buf s [])
    {Q : Char × Ptr × Ptr → Ptr → Prop} (hQ : ∀ q e s', At buf s' [] → Q (NUL, q, e) s') :
    wp E gettoken Q s := by
  rw [wp_of_ok (gettoken_eq s)]
  rcases lex hbuf h with ⟨-, -, hscan⟩ | ⟨t, ts', he, -⟩
  · rw [hscan]
    exact hQ _ _ _ ⟨nil_suffix, rfl⟩
  · cases he

theorem At.symbol (hbuf : NUL ∉ buf) (h : At buf s (.sym c :: ts)) : c ∈ symbols := by
  rcases lex hbuf h with ⟨he, -⟩ | ⟨t, ts', he, -, -, hseen⟩
  · cases he
  · cases he
    exact hseen.1

end Lex

/-! ### Trees -/

/-- The tree `c` in the line `buf` has the words of the tree `t`. -/
def Reads (buf : List Char) : Cmd Span → Cmd (List Char) → Prop
  | .exec argv, .exec ws => List.Forall₂ (IsSpan buf) argv ws
  | .redir c f m fd, .redir t w m' fd' => Reads buf c t ∧ IsSpan buf f w ∧ m = m' ∧ fd = fd'
  | .pipe c d, .pipe t u => Reads buf c t ∧ Reads buf d u
  | .list c d, .list t u => Reads buf c t ∧ Reads buf d u
  | .back c, .back t => Reads buf c t
  | _, _ => False

section Trees

variable {buf : List Char} {cmd : Cmd Span} {t : Cmd (List Char)} {rs rs' : List Redir} {n : Nat}

theorem wrap_append : wrap t (rs ++ rs') = wrap (wrap t rs) rs' := by
  induction rs generalizing t with
  | nil => rfl
  | cons r rs ih => exact ih

/-- A word is put into the `EXEC` inside the redirections. -/
theorem Reads.push {q : Span} {ws : List (List Char)} (h : Reads buf cmd (wrap (.exec ws) rs))
    (hq : IsSpan buf q w) : Reads buf (push q cmd) (wrap (.exec (ws ++ [w])) rs) := by
  -- the redirections of the tree are those of the list, the last one outermost
  induction rs using List.reverseRecOn generalizing cmd with
  | nil =>
    cases cmd <;> try exact h.elim
    exact rel_append h (.cons hq .nil)
  | append_singleton rs r ih =>
    rw [wrap_append] at h ⊢
    cases cmd <;> try exact h.elim
    exact ⟨ih h.1, h.2⟩

/-! ### What the parser takes derives from the grammar -/

/-- The ways to refuse a line. -/
def Refused (e : Stop) : Prop :=
  e ∈ [.panic "syntax", .panic "missing file for redirection", .panic "syntax - missing )",
    .panic "too many args"]

instance : DecidablePred Refused := fun e => by
  unfold Refused
  infer_instance

/-- A symbol other than `>` is the first token if its character is the next one. -/
theorem peeks_one (hc : c ≠ '>') (h : peeks [c] ts = true) : ∃ ts', ts = .sym c :: ts' := by
  cases ts with
  | nil => cases h
  | cons tk ts =>
    cases tk with
    | word w => cases h
    | append => exact absurd (by simpa [peeks] using h) hc.symm
    | sym d =>
      obtain rfl : d = c := by simpa [peeks] using h
      exact ⟨ts, rfl⟩

theorem peeks_redir :
    peeks ['<', '>'] ts = true ↔ ∃ op ts' m fd, ts = op :: ts' ∧ redirOp op = some (m, fd) := by
  cases ts with
  | nil => simp [peeks]
  | cons tk ts =>
    cases tk with
    | word w => simp [peeks, redirOp]
    | append => simp [peeks, redirOp]
    | sym c =>
      by_cases hlt : c = '<'
      · simp [peeks, redirOp, hlt]
      · by_cases hgt : c = '>' <;> simp [peeks, redirOp, hlt, hgt]

theorem wp_parseredir (hbuf : NUL ∉ buf) {op : Token} (h : At buf s (op :: ts)) {m fd : Nat}
    (hop : redirOp op = some (m, fd)) {Q : Cmd Span → Ptr → Prop}
    (hbad : (∀ w ts', ts ≠ .word w :: ts') → E (.panic "missing file for redirection"))
    (hQ : ∀ w ts' q s', ts = .word w :: ts' → At buf s' ts' → IsSpan buf q w →
      Q (.redir cmd q m fd) s') : wp E (parseredir cmd) Q s := by
  -- the result of the first `gettoken` decides about mode and descriptor
  obtain ⟨tok, hget, hsel⟩ : ∃ tok : Char,
      (∀ {Q : Char × Ptr × Ptr → Ptr → Prop}, (∀ q e s', At buf s' ts → Q (tok, q, e) s') →
        wp E gettoken Q s) ∧
      ∀ q : Span, (if tok = '<' then (pure (.redir cmd q O_RDONLY 0) : M (Cmd Span))
        else if tok = '>' then pure (.redir cmd q (O_WRONLY ||| O_CREATE) 1)
        else if tok = '+' then pure (.redir cmd q (O_WRONLY ||| O_CREATE) 1)
        else pure cmd) = pure (.redir cmd q m fd) := by
    cases op with
    | word w => cases hop
    | append =>
      cases hop
      exact ⟨'+', fun hQ => wp_gettoken_append hbuf h hQ, fun q => rfl⟩
    | sym c =>
      refine ⟨c, fun hQ => wp_gettoken_sym hbuf h hQ, fun q => ?_⟩
      rw [redirOp] at hop
      split at hop
      · next hlt =>
        cases hop
        rw [if_pos hlt]
      · next hlt =>
        split at hop
        · next hgt =>
          cases hop
          rw [if_neg hlt, if_pos hgt]
        · cases hop
  rw [parseredir, wp_bind]
  refine hget fun _ _ s2 h2 => ?_
  rw [wp_bind]
  -- the file: anything but a word is an error
  cases ts with
  | nil => exact wp_gettoken_nil hbuf h2 fun _ _ s3 h3 => hbad nofun
  | cons tk ts =>
    cases tk with
    | sym c =>
      refine wp_gettoken_sym hbuf h2 fun _ _ s3 h3 => ?_
      have hca : c ≠ 'a' := fun e => absurd (h2.symbol hbuf) (e ▸ by decide)
      dsimp only
      rw [if_pos hca]
      exact hbad nofun
    | append => exact wp_gettoken_append hbuf h2 fun _ _ s3 h3 => hbad nofun
    | word w =>
      refine wp_gettoken_word hbuf h2 fun q e s3 h3 hspan => ?_
      dsimp only
      rw [if_neg (not_not.mpr rfl), hsel]
      exact hQ w ts (q, e) s3 rfl h3 hspan

/-- `parseredirs` wraps the command in the redirections that it takes. -/
theorem parseredirs_sound (hbuf : NUL ∉ buf) (h : At buf s ts) (hc : Reads buf cmd t)
    (hn : ts.length < n) :
    wp Refused (parseredirs n cmd) (fun cmd' s' => ∃ us rs ts', ts = us ++ ts' ∧ Redirs us rs ∧
      Reads buf cmd' (wrap t rs) ∧ At buf s' ts') s := by
  induction n generalizing s ts cmd t with
  | zero => exact absurd hn (Nat.not_lt_zero _)
  | succ n ih =>
    rw [parseredirs, wp_bind]
    refine wp_peek hbuf h (by decide) fun s1 h1 => ?_
    cases hp : peeks ['<', '>'] ts with
    | false => exact ⟨[], [], ts, rfl, .nil, hc, h1⟩
    | true =>
      obtain ⟨op, ts, m, fd, rfl, hop⟩ := peeks_redir.mp hp
      rw [if_pos rfl, wp_bind]
      refine wp_parseredir hbuf h1 hop (fun _ => by decide) ?_
      rintro w ts q s2 rfl h2 hspan
      refine wp_mono (ih (t := .redir t w m fd) h2 ⟨hc, hspan, rfl, rfl⟩ ?_) ?_
      · simp only [length_cons] at hn
        omega
      · rintro cmd' s' ⟨us, rs, ts', rfl, hrs, hcmd, hat⟩
        exact ⟨_, _, ts', rfl, .cons w hop hrs, hcmd, hat⟩

/-- The loop of `parseline` puts one `BACK` around the command for each `&`. -/
theorem parsebacks_sound (hbuf : NUL ∉ buf) (h : At buf s ts) (hc : Reads buf cmd t)
    (hn : ts.length < n) :
    wp Refused (parsebacks n cmd) (fun cmd' s' => ∃ k ts',
      ts = List.replicate k (.sym '&') ++ ts' ∧ Reads buf cmd' (backs k t) ∧ At buf s' ts') s := by
  induction n generalizing s ts cmd t with
  | zero => exact absurd hn (Nat.not_lt_zero _)
  | succ n ih =>
    rw [parsebacks, wp_bind]
    refine wp_peek hbuf h (by decide) fun s1 h1 => ?_
    cases hp : peeks ['&'] ts with
    | false => exact ⟨0, ts, rfl, hc, h1⟩
    | true =>
      obtain ⟨ts, rfl⟩ := peeks_one (by decide) hp
      rw [if_pos rfl, wp_bind]
      refine wp_gettoken_sym hbuf h1 fun _ _ s2 h2 => ?_
      refine wp_mono (ih (t := .back t) h2 hc (Nat.lt_of_succ_lt_succ hn)) ?_
      rintro cmd' s' ⟨k, ts', rfl, hcmd, hat⟩
      exact ⟨k + 1, ts', rfl, hcmd, hat⟩

/-- The loop of `parseexec` takes words with redirections behind them. -/
theorem parseargs_sound (hbuf : NUL ∉ buf) (h : At buf s ts) {ws : List (List Char)}
    (hc : Reads buf cmd (wrap (.exec ws) rs)) (hws : ws.length ≤ 9) (hn : ts.length < n) :
    wp Refused (parseargs n ws.length cmd) (fun cmd' s' => ∃ us ws' rs' ts', ts = us ++ ts' ∧
      Args us ws' rs' ∧ (ws ++ ws').length ≤ 9 ∧
      Reads buf cmd' (wrap (.exec (ws ++ ws')) (rs ++ rs')) ∧ At buf s' ts') s := by
  induction n generalizing s ts cmd ws rs with
  | zero => exact absurd hn (Nat.not_lt_zero _)
  | succ n ih =>
    rw [parseargs, wp_bind]
    refine wp_peek hbuf h (by decide) fun s1 h1 => ?_
    have hdone : ∀ s', At buf s' ts → ∃ us ws' rs' ts', ts = us ++ ts' ∧ Args us ws' rs' ∧
        (ws ++ ws').length ≤ 9 ∧ Reads buf cmd (wrap (.exec (ws ++ ws')) (rs ++ rs')) ∧
        At buf s' ts' := fun s' h' =>
      ⟨[], [], [], ts, rfl, .nil, by rwa [append_nil], by rwa [append_nil,
        append_nil], h'⟩
    cases hp : peeks ['|', ')', '&', ';'] ts with
    | true => exact hdone s1 h1
    | false =>
      rw [if_neg Bool.false_ne_true, wp_bind]
      cases ts with
      | nil => exact wp_gettoken_nil hbuf h1 fun _ _ s2 h2 => hdone s2 h2
      | cons tk ts =>
        cases tk with
        | append =>
          exact wp_gettoken_append hbuf h1 fun _ _ s2 h2 =>
            show Refused (.panic "syntax") by decide
        | sym c =>
          -- neither the end of the line nor a word
          refine wp_gettoken_sym hbuf h1 fun _ _ s2 h2 => ?_
          have hc0 : c ≠ NUL := fun e => absurd (h1.symbol hbuf) (e ▸ by decide)
          have hca : c ≠ 'a' := fun e => absurd (h1.symbol hbuf) (e ▸ by decide)
          dsimp only
          rw [if_neg hc0, if_pos hca]
          exact show Refused (.panic "syntax") by decide
        | word w =>
          refine wp_gettoken_word hbuf h1 fun q e s2 h2 hspan => ?_
          dsimp only
          rw [if_neg (by decide), if_neg (not_not.mpr rfl)]
          split
          · exact show Refused (.panic "too many args") by decide
          next hmax =>
          have hlen : (ws ++ [w]).length ≤ 9 := by
            rw [length_append, length_singleton]
            change ¬ ws.length + 1 ≥ 10 at hmax
            omega
          rw [wp_bind]
          have hn' : ts.length < n := Nat.lt_of_succ_lt_succ hn
          refine wp_mono (parseredirs_sound hbuf h2 (hc.push hspan) hn') ?_
          rintro cmd2 s3 ⟨us, rs1, ts1, rfl, hrs, hcmd, h3⟩
          rw [← wrap_append] at hcmd
          rw [show ws.length + 1 = (ws ++ [w]).length by simp]
          refine wp_mono (ih h3 hcmd hlen (by simp at hn'; omega)) ?_
          rintro cmd3 s4 ⟨vs, ws', rs2, ts2, rfl, hargs, hlen', hcmd', h4⟩
          refine ⟨.word w :: us ++ vs, w :: ws', rs1 ++ rs2, ts2, by simp, .cons w hrs hargs, ?_, ?_,
            h4⟩
          · simpa using hlen'
          · simpa [append_assoc] using hcmd'

/-- What a function of the parser returns: a tree for the tokens that it has taken. -/
def Parsed (G : List Token → Cmd (List Char) → Prop) (buf : List Char) (ts : List Token)
    (cmd : Cmd Span) (s' : Ptr) : Prop :=
  ∃ us t ts', ts = us ++ ts' ∧ G us t ∧ Reads buf cmd t ∧ At buf s' ts'

/-- **Soundness.** The functions of the parser return, unless they call `panic`, with a tree of the
tokens that they have taken. Between two tokens taken there are at most four calls. -/
theorem parse_sound (hbuf : NUL ∉ buf) (n : Nat) :
    (∀ s ts, At buf s ts → 4 * ts.length + 4 ≤ n →
      wp Refused (parseline n) (Parsed Line buf ts) s) ∧
    (∀ s ts, At buf s ts → 4 * ts.length + 3 ≤ n →
      wp Refused (parsepipe n) (Parsed Pipe buf ts) s) ∧
    (∀ s ts, At buf s ts → 4 * ts.length + 2 ≤ n →
      wp Refused (parseexec n) (Parsed Exec buf ts) s) ∧
    ∀ s ts, At buf s ts → 4 * ts.length + 1 ≤ n → peeks ['('] ts = true →
      wp Refused (parseblock n) (Parsed Exec buf ts) s := by
  induction n with
  | zero =>
    refine ⟨?_, ?_, ?_, fun s ts _ hn => ?_⟩ <;> first | (intro s ts _ hn; omega) | omega
  | succ n ih =>
    obtain ⟨ihline, ihpipe, ihexec, ihblock⟩ := ih
    refine ⟨?_, ?_, ?_, ?_⟩
    · -- `parseline`: a pipe, `&` and the rest of a list
      intro s ts h hn
      rw [parseline, wp_bind]
      refine wp_mono (ihpipe s ts h (by omega)) ?_
      rintro cmd s1 ⟨us, t, ts1, rfl, hpipe, hcmd, h1⟩
      rw [length_append] at hn
      rw [wp_bind]
      refine wp_mono (parsebacks_sound hbuf h1 hcmd (by omega)) ?_
      rintro cmd2 s2 ⟨k, ts2, rfl, hcmd2, h2⟩
      rw [wp_bind]
      refine wp_peek hbuf h2 (by decide) fun s3 h3 => ?_
      cases hp : peeks [';'] ts2 with
      | false => exact ⟨_, _, ts2, (append_assoc ..).symm, .pipe k hpipe, hcmd2, h3⟩
      | true =>
        obtain ⟨ts3, rfl⟩ := peeks_one (by decide) hp
        rw [if_pos rfl, wp_bind]
        refine wp_gettoken_sym hbuf h3 fun _ _ s4 h4 => ?_
        rw [wp_bind]
        simp only [length_append, length_cons] at hn
        refine wp_mono (ihline s4 ts3 h4 (by omega)) ?_
        rintro cmd4 s5 ⟨vs, u, ts4, rfl, hline, hcmd4, h5⟩
        exact ⟨_, _, ts4, by simp, .list k hpipe hline, ⟨hcmd2, hcmd4⟩, h5⟩
    · -- `parsepipe`
      intro s ts h hn
      rw [parsepipe, wp_bind]
      refine wp_mono (ihexec s ts h (by omega)) ?_
      rintro cmd s1 ⟨us, t, ts1, rfl, hexec, hcmd, h1⟩
      rw [wp_bind]
      refine wp_peek hbuf h1 (by decide) fun s2 h2 => ?_
      cases hp : peeks ['|'] ts1 with
      | false => exact ⟨us, t, ts1, rfl, .exec hexec, hcmd, h2⟩
      | true =>
        obtain ⟨ts2, rfl⟩ := peeks_one (by decide) hp
        rw [if_pos rfl, wp_bind]
        refine wp_gettoken_sym hbuf h2 fun _ _ s3 h3 => ?_
        rw [wp_bind]
        simp only [length_append, length_cons] at hn
        refine wp_mono (ihpipe s3 ts2 h3 (by omega)) ?_
        rintro cmd3 s4 ⟨vs, u, ts3, rfl, hpipe, hcmd3, h4⟩
        exact ⟨_, _, ts3, by simp, .pipe hexec hpipe, ⟨hcmd, hcmd3⟩, h4⟩
    · -- `parseexec`
      intro s ts h hn
      rw [parseexec, wp_bind]
      refine wp_peek hbuf h (by decide) fun s1 h1 => ?_
      cases hp : peeks ['('] ts with
      | true => exact ihblock s1 ts h1 (by omega) hp
      | false =>
        rw [if_neg Bool.false_ne_true, wp_bind]
        have hc : Reads buf (.exec []) (.exec []) := .nil
        refine wp_mono (parseredirs_sound hbuf h1 hc (by omega)) ?_
        rintro cmd s2 ⟨us, rs, ts1, rfl, hrs, hcmd, h2⟩
        rw [length_append] at hn
        refine wp_mono (parseargs_sound hbuf h2 hcmd (by decide) (by omega)) ?_
        rintro cmd2 s3 ⟨vs, ws, rs', ts2, rfl, hargs, hlen, hcmd2, h3⟩
        exact ⟨us ++ vs, _, ts2, (append_assoc ..).symm, .args hrs hargs hlen, hcmd2, h3⟩
    · -- `parseblock`: the line inside is shorter by the parenthesis
      intro s ts h hn hp
      rw [parseblock, wp_bind]
      refine wp_peek hbuf h (by decide) fun s1 h1 => ?_
      obtain ⟨ts1, rfl⟩ := peeks_one (by decide) hp
      rw [hp, if_pos rfl, wp_bind]
      refine wp_gettoken_sym hbuf h1 fun _ _ s2 h2 => ?_
      rw [wp_bind]
      rw [length_cons] at hn
      refine wp_mono (ihline s2 ts1 h2 (by omega)) ?_
      rintro cmd s3 ⟨us, t, ts2, rfl, hline, hcmd, h3⟩
      rw [wp_bind]
      refine wp_peek hbuf h3 (by decide) fun s4 h4 => ?_
      cases hp : peeks [')'] ts2 with
      | false => exact show Refused (.panic "syntax - missing )") by decide
      | true =>
        obtain ⟨ts3, rfl⟩ := peeks_one (by decide) hp
        rw [if_pos rfl, wp_bind]
        refine wp_gettoken_sym hbuf h4 fun _ _ s5 h5 => ?_
        simp only [length_append, length_cons] at hn
        refine wp_mono (parseredirs_sound hbuf h5 hcmd (by omega)) ?_
        rintro cmd2 s6 ⟨vs, rs, ts4, rfl, hrs, hcmd2, h6⟩
        exact ⟨_, _, ts4, by simp, .block hline hrs, hcmd2, h6⟩

/-! ### What derives from the grammar is taken -/

/-- Nothing follows, or one of the symbols `toks`. -/
def Ends (toks : List Char) (ts : List Token) : Prop := ts = [] ∨ ∃ c ∈ toks, ∃ ts', ts = .sym c :: ts'

theorem Ends.mono {toks toks' : List Char} (h : Ends toks ts) (hsub : toks ⊆ toks') :
    Ends toks' ts :=
  h.imp_right fun ⟨c, hc, he⟩ => ⟨c, hsub hc, he⟩

theorem Ends.not_peeks {toks toks' : List Char} (h : Ends toks ts) (hdis : toks.all (· ∉ toks')) :
    peeks toks' ts = false := by
  rcases h with rfl | ⟨c, hc, ts', rfl⟩
  · rfl
  · have hno := all_eq_true.mp hdis c hc
    simpa [peeks] using hno

/-- What follows redirections: not another one. -/
theorem Args.not_redir {ws : List (List Char)} (h : Args us ws rs) (hts : Ends ['|', ')', '&', ';'] ts) :
    peeks ['<', '>'] (us ++ ts) = false := by
  cases h with
  | nil => exact hts.not_peeks (by decide)
  | cons w _ _ => rfl

/-- A command that is not a block does not begin with a parenthesis. -/
theorem Redirs.not_block {ws : List (List Char)} {vs : List Token} (h : Redirs us rs)
    (ha : Args vs ws rs') (hts : Ends ['|', ')', '&', ';'] ts) :
    peeks ['('] (us ++ vs ++ ts) = false := by
  cases h with
  | nil =>
    cases ha with
    | nil => exact hts.not_peeks (by decide)
    | cons w _ _ => rfl
  | @cons op _ _ _ _ w hop _ =>
    cases op with
    | word w => rfl
    | append => rfl
    | sym c =>
      have hc : c ≠ '(' := by
        rintro rfl
        cases hop
      simpa [peeks] using hc

theorem parseredirs_complete (hbuf : NUL ∉ buf) (hrs : Redirs us rs)
    (hts : peeks ['<', '>'] ts = false) (h : At buf s (us ++ ts)) (hc : Reads buf cmd t) :
    wp (· = .fuel) (parseredirs n cmd)
      (fun cmd' s' => Reads buf cmd' (wrap t rs) ∧ At buf s' ts) s := by
  induction n generalizing s us rs cmd t with
  | zero => exact rfl
  | succ n ih =>
    rw [parseredirs, wp_bind]
    refine wp_peek hbuf h (by decide) fun s1 h1 => ?_
    cases hrs with
    | nil =>
      rw [nil_append, hts]
      exact ⟨hc, h1⟩
    | cons w hop hrs =>
      rw [cons_append, peeks_redir.mpr ⟨_, _, _, _, rfl, hop⟩, if_pos rfl, wp_bind]
      refine wp_parseredir hbuf h1 hop (fun hbad => absurd rfl (hbad _ _)) ?_
      intro w' ts' q s2 he h2 hspan
      cases he
      exact ih (t := .redir t w _ _) hrs h2 ⟨hc, hspan, rfl, rfl⟩

theorem parsebacks_complete (hbuf : NUL ∉ buf) {k : Nat} (hts : peeks ['&'] ts = false)
    (h : At buf s (List.replicate k (.sym '&') ++ ts)) (hc : Reads buf cmd t) :
    wp (· = .fuel) (parsebacks n cmd)
      (fun cmd' s' => Reads buf cmd' (backs k t) ∧ At buf s' ts) s := by
  induction n generalizing s k cmd t with
  | zero => exact rfl
  | succ n ih =>
    rw [parsebacks, wp_bind]
    refine wp_peek hbuf h (by decide) fun s1 h1 => ?_
    cases k with
    | zero =>
      rw [replicate_zero, nil_append, hts]
      exact ⟨hc, h1⟩
    | succ k =>
      rw [replicate_succ, cons_append] at h1 ⊢
      rw [show peeks ['&'] (.sym '&' :: (List.replicate k (.sym '&') ++ ts)) = true from rfl,
        if_pos rfl, wp_bind]
      exact wp_gettoken_sym hbuf h1 fun _ _ s2 h2 => ih (t := .back t) h2 hc

theorem parseargs_complete (hbuf : NUL ∉ buf) {ws ws' : List (List Char)} (ha : Args us ws' rs')
    (hts : Ends ['|', ')', '&', ';'] ts) (h : At buf s (us ++ ts))
    (hc : Reads buf cmd (wrap (.exec ws) rs)) (hlen : (ws ++ ws').length ≤ 9) :
    wp (· = .fuel) (parseargs n ws.length cmd) (fun cmd' s' =>
      Reads buf cmd' (wrap (.exec (ws ++ ws')) (rs ++ rs')) ∧ At buf s' ts) s := by
  induction n generalizing s us ws ws' rs rs' cmd with
  | zero => exact rfl
  | succ n ih =>
    rw [parseargs, wp_bind]
    refine wp_peek hbuf h (by decide) fun s1 h1 => ?_
    cases ha with
    | nil =>
      rw [append_nil, append_nil]
      rw [nil_append] at h1 ⊢
      rcases hts with rfl | ⟨c, hcs, ts', rfl⟩
      · -- the end of the line
        rw [show peeks ['|', ')', '&', ';'] [] = false from rfl, if_neg Bool.false_ne_true, wp_bind]
        exact wp_gettoken_nil hbuf h1 fun _ _ s2 h2 => ⟨hc, h2⟩
      · have hp : peeks ['|', ')', '&', ';'] (.sym c :: ts') = true := by simpa [peeks] using hcs
        rw [hp]
        exact ⟨hc, h1⟩
    | @cons us vs rs1 ws2 rs2 w hrs ha =>
      rw [show peeks ['|', ')', '&', ';'] (.word w :: us ++ vs ++ ts) = false from rfl,
        if_neg Bool.false_ne_true, wp_bind]
      refine wp_gettoken_word hbuf
        (show At buf _ (.word w :: (us ++ (vs ++ ts))) by simpa using h1)
        fun q e s2 h2 hspan => ?_
      have hmax : ¬ ws.length + 1 ≥ MAXARGS := by
        simp only [length_append, length_cons] at hlen
        change ¬ ws.length + 1 ≥ 10
        omega
      dsimp only
      rw [if_neg (by decide), if_neg (not_not.mpr rfl), if_neg hmax, wp_bind]
      refine wp_mono (parseredirs_complete hbuf hrs (ha.not_redir hts) h2 (hc.push hspan)) ?_
      rintro cmd2 s3 ⟨hcmd, h3⟩
      rw [← wrap_append] at hcmd
      rw [show ws.length + 1 = (ws ++ [w]).length by simp]
      refine wp_mono (ih ha h3 hcmd (by simpa using hlen)) ?_
      rintro cmd3 s4 ⟨hcmd', h4⟩
      exact ⟨by simpa [append_assoc] using hcmd', h4⟩

/-- **Completeness.** If the next tokens derive, and what follows them ends a phrase of that kind,
then the function for it takes them and returns their tree. -/
theorem parse_complete (hbuf : NUL ∉ buf) (n : Nat) :
    (∀ s us ts t, Line us t → At buf s (us ++ ts) → Ends [')'] ts →
      wp (· = .fuel) (parseline n) (fun cmd s' => Reads buf cmd t ∧ At buf s' ts) s) ∧
    (∀ s us ts t, Pipe us t → At buf s (us ++ ts) → Ends [')', '&', ';'] ts →
      wp (· = .fuel) (parsepipe n) (fun cmd s' => Reads buf cmd t ∧ At buf s' ts) s) ∧
    (∀ s us ts t, Exec us t → At buf s (us ++ ts) → Ends ['|', ')', '&', ';'] ts →
      wp (· = .fuel) (parseexec n) (fun cmd s' => Reads buf cmd t ∧ At buf s' ts) s) ∧
    ∀ s us vs rs ts t, Line us t → Redirs vs rs →
      At buf s (.sym '(' :: us ++ .sym ')' :: vs ++ ts) → peeks ['<', '>'] ts = false →
      wp (· = .fuel) (parseblock n) (fun cmd s' => Reads buf cmd (wrap t rs) ∧ At buf s' ts) s := by
  induction n with
  | zero => exact ⟨fun _ _ _ _ _ _ _ => rfl, fun _ _ _ _ _ _ _ => rfl, fun _ _ _ _ _ _ _ => rfl,
      fun _ _ _ _ _ _ _ _ _ _ => rfl⟩
  | succ n ih =>
    obtain ⟨ihline, ihpipe, ihexec, ihblock⟩ := ih
    refine ⟨?_, ?_, ?_, ?_⟩
    · intro s us ts t hline h hts
      rw [parseline, wp_bind]
      cases hline with
      | @pipe ps c k hpipe =>
        rw [append_assoc] at h
        refine wp_mono (ihpipe s ps _ c hpipe h ?_) ?_
        · cases k with
          | zero => exact hts.mono (by decide)
          | succ k => exact .inr ⟨'&', by decide, _, rfl⟩
        · rintro cmd s1 ⟨hcmd, h1⟩
          rw [wp_bind]
          refine wp_mono (parsebacks_complete hbuf (hts.not_peeks (by decide)) h1 hcmd) ?_
          rintro cmd2 s2 ⟨hcmd2, h2⟩
          rw [wp_bind]
          refine wp_peek hbuf h2 (by decide) fun s3 h3 => ?_
          rw [hts.not_peeks (by decide)]
          exact ⟨hcmd2, h3⟩
      | @list ps vs c d k hpipe hline =>
        rw [append_assoc, append_assoc] at h
        refine wp_mono (ihpipe s ps _ c hpipe h ?_) ?_
        · cases k with
          | zero => exact .inr ⟨';', by decide, _, rfl⟩
          | succ k => exact .inr ⟨'&', by decide, _, rfl⟩
        · rintro cmd s1 ⟨hcmd, h1⟩
          rw [wp_bind]
          have hpeek : peeks ['&'] (.sym ';' :: (vs ++ ts)) = false := rfl
          refine wp_mono (parsebacks_complete hbuf hpeek h1 hcmd) ?_
          rintro cmd2 s2 ⟨hcmd2, h2⟩
          rw [wp_bind]
          refine wp_peek hbuf h2 (by decide) fun s3 h3 => ?_
          rw [show peeks [';'] (.sym ';' :: (vs ++ ts)) = true from rfl, if_pos rfl, wp_bind]
          refine wp_gettoken_sym hbuf h3 fun _ _ s4 h4 => ?_
          rw [wp_bind]
          refine wp_mono (ihline s4 vs ts d hline h4 hts) ?_
          rintro cmd4 s5 ⟨hcmd4, h5⟩
          exact ⟨⟨hcmd2, hcmd4⟩, h5⟩
    · intro s us ts t hpipe h hts
      rw [parsepipe, wp_bind]
      cases hpipe with
      | exec hexec =>
        refine wp_mono (ihexec s us ts t hexec h (hts.mono (by decide))) ?_
        rintro cmd s1 ⟨hcmd, h1⟩
        rw [wp_bind]
        refine wp_peek hbuf h1 (by decide) fun s2 h2 => ?_
        rw [hts.not_peeks (by decide)]
        exact ⟨hcmd, h2⟩
      | @pipe es vs c d hexec hpipe =>
        rw [append_assoc] at h
        refine wp_mono (ihexec s es _ c hexec h (.inr ⟨'|', by decide, _, rfl⟩)) ?_
        rintro cmd s1 ⟨hcmd, h1⟩
        rw [wp_bind]
        refine wp_peek hbuf h1 (by decide) fun s2 h2 => ?_
        rw [show peeks ['|'] (.sym '|' :: vs ++ ts) = true from rfl, if_pos rfl, wp_bind]
        refine wp_gettoken_sym hbuf h2 fun _ _ s3 h3 => ?_
        rw [wp_bind]
        refine wp_mono (ihpipe s3 vs ts d hpipe h3 hts) ?_
        rintro cmd3 s4 ⟨hcmd3, h4⟩
        exact ⟨⟨hcmd, hcmd3⟩, h4⟩
    · intro s us ts t hexec h hts
      rw [parseexec, wp_bind]
      refine wp_peek hbuf h (by decide) fun s1 h1 => ?_
      cases hexec with
      | block hline hrs =>
        exact ihblock s1 _ _ _ ts _ hline hrs h1 (hts.not_peeks (by decide))
      | args hrs ha hlen =>
        rw [hrs.not_block ha hts, if_neg Bool.false_ne_true, wp_bind]
        have hc : Reads buf (.exec []) (.exec []) := .nil
        rw [append_assoc] at h1
        refine wp_mono (parseredirs_complete hbuf hrs (ha.not_redir hts) h1 hc) ?_
        rintro cmd s2 ⟨hcmd, h2⟩
        exact parseargs_complete hbuf ha hts h2 hcmd hlen
    · intro s us vs rs ts t hline hrs h hts
      rw [parseblock, wp_bind]
      refine wp_peek hbuf h (by decide) fun s1 h1 => ?_
      rw [show peeks ['('] (.sym '(' :: us ++ .sym ')' :: vs ++ ts) = true from rfl, if_pos rfl,
        wp_bind]
      refine wp_gettoken_sym hbuf
        (show At buf _ (.sym '(' :: (us ++ .sym ')' :: (vs ++ ts))) by simpa using h1)
        fun _ _ s2 h2 => ?_
      rw [wp_bind]
      refine wp_mono (ihline s2 us _ t hline h2 (.inr ⟨')', by decide, _, rfl⟩)) ?_
      rintro cmd s3 ⟨hcmd, h3⟩
      rw [wp_bind]
      refine wp_peek hbuf h3 (by decide) fun s4 h4 => ?_
      rw [show peeks [')'] (.sym ')' :: (vs ++ ts)) = true from rfl, if_pos rfl, wp_bind]
      exact wp_gettoken_sym hbuf h4 fun _ _ s5 h5 => parseredirs_complete hbuf hrs hts h5 hcmd

/-! ### The strings of the tree -/

/-- A place in the line where no word goes on. -/
def NoWord (buf : List Char) (k : Nat) : Prop :=
  ∃ e : Ptr, e <:+ buf ∧ e.length = k ∧ ∀ c ∈ e.head?, isWord c = false

/-- Zeroes behind words end exactly them. -/
theorem cstr_span {nuls : List Nat} {q : Span} (hnuls : ∀ k ∈ nuls, NoWord buf k)
    (h : IsSpan buf q w) (hmem : q.2.length ∈ nuls) : cstr nuls q.1 = w := by
  obtain ⟨q, e⟩ := q
  obtain ⟨hsuf, he, hne, hword, hmax⟩ := h
  dsimp only at hsuf he hmem ⊢
  subst he
  clear hne hmax
  -- by induction over the word: inside it there is no such place
  induction w with
  | nil =>
    cases e with
    | nil => rfl
    | cons d e => exact if_pos hmem
  | cons c w ih =>
    have hno : (w ++ e).length + 1 ∉ nuls := by
      intro hk
      obtain ⟨e', hsuf', hlen, hhead⟩ := hnuls _ hk
      have heq : e' = c :: w ++ e :=
        (suffix_of_suffix_length_le hsuf' hsuf (by rw [hlen]; rfl)).eq_of_length
          (by rw [hlen]; rfl)
      have hc := hhead c (by rw [heq]; rfl)
      rw [hword c mem_cons_self] at hc
      cases hc
    rw [cons_append, cstr, if_neg hno]
    congr 1
    exact ih (fun d hd => hword d (mem_cons_of_mem c hd)) ((suffix_cons c _).trans hsuf)

theorem IsSpan.noWord {q : Span} (h : IsSpan buf q w) : NoWord buf q.2.length := by
  refine ⟨q.2, ?_, rfl, h.maximal⟩
  exact (h.eq ▸ suffix_append w q.2).trans h.suffix

theorem IsSpan.not_noWord {q : Span} (h : IsSpan buf q w) {k : Nat} (hlo : q.2.length < k)
    (hhi : k ≤ q.1.length) : ¬ NoWord buf k := by
  rintro ⟨e, hsuf, rfl, hhead⟩
  obtain ⟨u, hu⟩ := suffix_of_suffix_length_le hsuf h.suffix hhi
  rw [h.eq] at hu
  -- what is before the place is a part of the word, or more than the word
  rcases append_eq_append_iff.mp hu with ⟨v, rfl, rfl⟩ | ⟨v, -, hv⟩
  · cases v with
    | nil => exact absurd hlo (Nat.lt_irrefl _)
    | cons c v =>
      have hc := h.word c (mem_append_right u mem_cons_self)
      rw [hhead c rfl] at hc
      cases hc
  · rw [hv, length_append] at hlo
    omega

/-- The words of a tree. -/
def Cmd.words {α : Type} : Cmd α → List α
  | .exec argv => argv
  | .redir cmd file _ _ => cmd.words ++ [file]
  | .pipe left right => left.words ++ right.words
  | .list left right => left.words ++ right.words
  | .back cmd => cmd.words

/-- `nulterminate` stores a zero behind each word. -/
theorem nulterminate_eq (cmd : Cmd Span) : nulterminate cmd = cmd.words.map (·.2.length) := by
  induction cmd with
  | exec argv => rfl
  | redir c f m fd ih => rw [nulterminate, ih, Cmd.words, map_append, map_singleton]
  | pipe c d ih1 ih2 => rw [nulterminate, ih1, ih2, Cmd.words, map_append]
  | list c d ih1 ih2 => rw [nulterminate, ih1, ih2, Cmd.words, map_append]
  | back c ih => exact ih

theorem Reads.spans (h : Reads buf cmd t) : ∀ q ∈ cmd.words, ∃ w, IsSpan buf q w := by
  induction cmd generalizing t with
  | exec argv =>
    cases t with
    | exec ws =>
      intro q hq
      obtain ⟨i, hi, rfl⟩ := getElem_of_mem hq
      obtain ⟨hlen, hget⟩ := List.forall₂_iff_get.mp h
      exact ⟨_, hget i hi (hlen ▸ hi)⟩
    | _ => exact h.elim
  | redir c f m fd ih =>
    cases t with
    | redir t w m' fd' =>
      intro q hq
      rcases mem_append.mp hq with hq | hq
      · exact ih h.1 q hq
      · exact ⟨w, mem_singleton.mp hq ▸ h.2.1⟩
    | _ => exact h.elim
  | pipe c d ih1 ih2 =>
    cases t with
    | pipe t u => exact fun q hq => (mem_append.mp hq).elim (ih1 h.1 q) (ih2 h.2 q)
    | _ => exact h.elim
  | list c d ih1 ih2 =>
    cases t with
    | list t u => exact fun q hq => (mem_append.mp hq).elim (ih1 h.1 q) (ih2 h.2 q)
    | _ => exact h.elim
  | back c ih =>
    cases t with
    | back t => exact ih h
    | _ => exact h.elim

theorem Reads.noWord (h : Reads buf cmd t) : ∀ k ∈ nulterminate cmd, NoWord buf k := by
  intro k hk
  rw [nulterminate_eq] at hk
  obtain ⟨q, hq, rfl⟩ := mem_map.mp hk
  obtain ⟨w, hw⟩ := h.spans q hq
  exact hw.noWord

theorem map_cstr_spans {nuls : List Nat} {argv : List Span} {ws : List (List Char)}
    (hnuls : ∀ k ∈ nuls, NoWord buf k) (h : List.Forall₂ (IsSpan buf) argv ws)
    (hsub : ∀ q ∈ argv, q.2.length ∈ nuls) : argv.map (fun q => cstr nuls q.1) = ws := by
  induction h with
  | nil => rfl
  | cons hq _ ih =>
    rw [map_cons, cstr_span hnuls hq (hsub _ mem_cons_self),
      ih fun q hq => hsub q (mem_cons_of_mem _ hq)]

/-- The strings that the pointers of the tree stand for are its words. -/
theorem Reads.strings {nuls : List Nat} (h : Reads buf cmd t) (hnuls : ∀ k ∈ nuls, NoWord buf k)
    (hsub : ∀ k ∈ nulterminate cmd, k ∈ nuls) : cmd.map (fun q => cstr nuls q.1) = t := by
  induction cmd generalizing t with
  | exec argv =>
    cases t with
    | exec ws =>
      exact congrArg Cmd.exec (map_cstr_spans hnuls h fun q hq => hsub _ (mem_map_of_mem hq))
    | _ => exact h.elim
  | redir c f m fd ih =>
    cases t with
    | redir t w m' fd' =>
      obtain ⟨h1, h2, rfl, rfl⟩ := h
      rw [Cmd.map, ih h1 fun k hk => hsub k (mem_append_left _ hk),
        cstr_span hnuls h2 (hsub _ (mem_append_right _ (mem_singleton_self _)))]
    | _ => exact h.elim
  | pipe c d ih1 ih2 =>
    cases t with
    | pipe t u =>
      rw [Cmd.map, ih1 h.1 fun k hk => hsub k (mem_append_left _ hk),
        ih2 h.2 fun k hk => hsub k (mem_append_right _ hk)]
    | _ => exact h.elim
  | list c d ih1 ih2 =>
    cases t with
    | list t u =>
      rw [Cmd.map, ih1 h.1 fun k hk => hsub k (mem_append_left _ hk),
        ih2 h.2 fun k hk => hsub k (mem_append_right _ hk)]
    | _ => exact h.elim
  | back c ih =>
    cases t with
    | back t => exact congrArg Cmd.back (ih h hsub)
    | _ => exact h.elim

/-! ### Whole lines -/

theorem tokens_length_le (s : List Char) : (tokens s).length ≤ s.length := by
  -- along `tokens`, which takes one or two characters for a token or adds one to a word
  fun_induction tokens s with
  | case1 => exact Nat.le_refl _
  | case2 c s hc ih => exact Nat.le_succ_of_le ih
  | case3 => exact Nat.le_refl _
  | case4 => grind
  | case5 => grind
  | case6 => grind
  | case7 => grind
  | case8 => grind
  | case9 => grind

theorem At.skip_eq_nil (hbuf : NUL ∉ buf) (h : At buf s ts) : Sh.skip s = [] ↔ ts = [] := by
  constructor
  · intro hs
    rw [← h.tokens, ← tokens_skip, hs, Sh.tokens]
  · intro hts
    rcases lex hbuf h with ⟨-, hnul, -⟩ | ⟨t, ts', ht, -⟩
    · -- the character at the pointer is no character of the line
      rcases skip_cases s with hs | ⟨c, r, hs, -⟩
      · exact hs
      · have hc : c ∈ buf := (hs ▸ h.skip.suffix).mem mem_cons_self
        rw [hs] at hnul
        exact absurd (hnul ▸ hc) hbuf
    · exact absurd (hts.symm.trans ht) (cons_ne_nil _ _).symm

/-- After `parseline` only whitespace may be left. -/
theorem parsecmd_eq {s1 : Ptr} (h : parseline n s = .ok (cmd, s1)) :
    parsecmd n s = if Sh.skip s1 = [] then .ok (cmd.map fun q => cstr (nulterminate cmd) q.1)
      else .error (.panic "syntax") := by
  unfold parsecmd
  simp only [StateT.run, h]
  change (if Sh.skip s1 ≠ [] then _ else _) = _
  rw [ite_not]
  rfl

theorem parsecmd_sound (hs : NUL ∉ s) (hn : 4 * s.length + 4 ≤ n) :
    (∃ t, parsecmd n s = .ok t ∧ Line (tokens s) t) ∨ ∃ e, parsecmd n s = .error e ∧ Refused e := by
  have hlen := tokens_length_le s
  have h := (parse_sound hs n).1 s (tokens s) ⟨suffix_rfl, rfl⟩ (by omega)
  cases hp : parseline n s with
  | error e =>
    refine .inr ⟨e, ?_, (wp_of_error hp).mp h⟩
    simp only [parsecmd, StateT.run, hp]
    rfl
  | ok p =>
    obtain ⟨us, t, ts, hts, hline, hcmd, hat⟩ := wp_elim h hp
    rw [parsecmd_eq hp]
    split
    · next hskip =>
      rw [(hat.skip_eq_nil hs).mp hskip, append_nil] at hts
      exact .inl ⟨t, congrArg _ (hcmd.strings hcmd.noWord fun _ => id), hts ▸ hline⟩
    · exact .inr ⟨_, rfl, by decide⟩

theorem parsecmd_complete (hs : NUL ∉ s) (hline : Line (tokens s) t) :
    parsecmd n s = .ok t ∨ parsecmd n s = .error .fuel := by
  have h := (parse_complete hs n).1 s (tokens s) [] t hline
    ⟨suffix_rfl, (append_nil _).symm⟩ (.inl rfl)
  cases hp : parseline n s with
  | error e =>
    right
    simp only [parsecmd, StateT.run, hp]
    rw [(wp_of_error hp).mp h]
    rfl
  | ok p =>
    obtain ⟨hcmd, hat⟩ := wp_elim h hp
    rw [parsecmd_eq hp, if_pos ((hat.skip_eq_nil hs).mpr rfl)]
    exact .inl (congrArg _ (hcmd.strings hcmd.noWord fun _ => id))

end Trees

/-- **The parser accepts exactly its grammar.** On every line, with a number of rounds that depends on
its length only, `parsecmd` returns the tree of the derivation of its tokens, and calls `panic` when
there is none. -/
theorem parsecmd_iff (s : List Char) (hs : NUL ∉ s) (n : Nat) (hn : 4 * s.length + 4 ≤ n) :
    (∀ t, parsecmd n s = .ok t ↔ Line (tokens s) t) ∧
    ((∀ t, ¬ Line (tokens s) t) → ∃ e, parsecmd n s = .error e ∧ Refused e) := by
  refine ⟨fun t => ⟨?_, ?_⟩, ?_⟩
  · intro h
    rcases parsecmd_sound hs hn with ⟨t', h', hline⟩ | ⟨e, h', -⟩
    · cases h.symm.trans h'
      exact hline
    · cases h.symm.trans h'
  · intro hline
    rcases parsecmd_complete (n := n) hs hline with h | h
    · exact h
    · -- there were enough rounds
      rcases parsecmd_sound hs hn with ⟨t', h', -⟩ | ⟨e, h', hr⟩
      · cases h.symm.trans h'
      · cases h.symm.trans h'
        exact absurd hr (by decide)
  · intro hno
    rcases parsecmd_sound hs hn with ⟨t, -, hline⟩ | he
    · exact absurd hline (hno t)
    · exact he

theorem parsecmd_iff_pipeAndRest :
    Line (tokens "a>b|(c;d)&".toList) (.back (.pipe (.redir (.exec [['a']]) ['b'] 513 1)
      (.list (.exec [['c']]) (.exec [['d']])))) ∧
    ∃ e, parsecmd 100 "a|(b".toList = .error e ∧ Refused e := by
  refine ⟨?_, ?_⟩
  · exact ((parsecmd_iff "a>b|(c;d)&".toList (by decide) 100 (by decide)).1 _).mp (by decide +kernel)
  · refine (parsecmd_iff "a|(b".toList (by decide) 100 (by decide)).2 fun t ht => ?_
    have h := ((parsecmd_iff "a|(b".toList (by decide) 100 (by decide)).1 t).mpr ht
    rw [show parsecmd 100 "a|(b".toList = .error (.panic "syntax - missing )") by decide +kernel] at h
    cases h

/-- The line after zeroes were stored at the places `nuls`. -/
def terminated (nuls : List Nat) : List Char → List Char
  | [] => []
  | c :: s => (if s.length + 1 ∈ nuls then NUL else c) :: terminated nuls s

/-- The string at offset `i` of a buffer. -/
def stringAt (buf : List Char) (i : Nat) : List Char := (buf.drop i).takeWhile (· ≠ NUL)

theorem drop_terminated (nuls : List Nat) (p q : List Char) :
    (terminated nuls (p ++ q)).drop p.length = terminated nuls q := by
  induction p with
  | nil => rfl
  | cons c p ih => exact ih

theorem takeWhile_terminated {nuls : List Nat} {q : List Char} (hq : NUL ∉ q) :
    (terminated nuls q).takeWhile (· ≠ NUL) = cstr nuls q := by
  induction q with
  | nil => rfl
  | cons c q ih =>
    have hc : c ≠ NUL := fun e => hq (e ▸ mem_cons_self)
    rw [terminated, cstr]
    split
    · rfl
    · rw [takeWhile_cons_of_pos (by simpa using hc), ih fun h => hq (mem_cons_of_mem c h)]

/-- What the parser's pointers stand for is read from the buffer. -/
theorem stringAt_terminated {nuls : List Nat} {q s : List Char} (hs : NUL ∉ s) (hq : q <:+ s) :
    stringAt (terminated nuls s) (s.length - q.length) = cstr nuls q := by
  obtain ⟨p, rfl⟩ := hq
  rw [stringAt, length_append, Nat.add_sub_cancel, drop_terminated]
  exact takeWhile_terminated fun h => hs (mem_append_right p h)

theorem Cmd.map_congr {α β : Type} {f g : α → β} {cmd : Cmd α} (h : ∀ q ∈ cmd.words, f q = g q) :
    cmd.map f = cmd.map g := by
  induction cmd with
  | exec argv => exact congrArg Cmd.exec (map_congr_left h)
  | redir c x m fd ih =>
    rw [Cmd.map, Cmd.map, ih fun q hq => h q (mem_append_left _ hq),
      h x (mem_append_right _ (mem_singleton_self x))]
  | pipe c d ih1 ih2 | list c d ih1 ih2 =>
    rw [Cmd.map, Cmd.map, ih1 fun q hq => h q (mem_append_left _ hq),
      ih2 fun q hq => h q (mem_append_right _ hq)]
  | back c ih => exact congrArg Cmd.back (ih h)

/-- **`nulterminate` yields the texts of the tokens.** For every line that `parsecmd` accepts: in the
tree each word is a token of the line, with its beginning and its end; the string that is read there
from the buffer after `nulterminate` is the text of the token, and no zero was stored inside of it. -/
theorem nulterminate_texts (s : List Char) (hs : NUL ∉ s) (n : Nat) (hn : 4 * s.length + 4 ≤ n)
    (t : Cmd (List Char)) (ht : parsecmd n s = .ok t) :
    ∃ cmd s', parseline n s = .ok (cmd, s') ∧
      t = cmd.map (fun q => stringAt (terminated (nulterminate cmd) s) (s.length - q.1.length)) ∧
      ∀ q ∈ cmd.words, ∃ w, IsSpan s q w ∧
        stringAt (terminated (nulterminate cmd) s) (s.length - q.1.length) = w ∧
        ∀ k ∈ nulterminate cmd, ¬ (q.2.length < k ∧ k ≤ q.1.length) := by
  have hlen := tokens_length_le s
  have h := (parse_sound hs n).1 s (tokens s) ⟨suffix_rfl, rfl⟩ (by omega)
  cases hp : parseline n s with
  | error e =>
    simp only [parsecmd, StateT.run, hp] at ht
    cases ht
  | ok p =>
    obtain ⟨cmd, s'⟩ := p
    obtain ⟨us, t', ts, -, -, hcmd, -⟩ := wp_elim h hp
    have hread : ∀ q ∈ cmd.words, stringAt (terminated (nulterminate cmd) s)
        (s.length - q.1.length) = cstr (nulterminate cmd) q.1 := by
      intro q hq
      obtain ⟨w, hw⟩ := hcmd.spans q hq
      exact stringAt_terminated hs hw.suffix
    refine ⟨cmd, s', rfl, ?_, fun q hq => ?_⟩
    · rw [parsecmd_eq hp] at ht
      split at ht
      · rw [Cmd.map_congr hread]
        exact (Except.ok.inj ht).symm
      · cases ht
    · obtain ⟨w, hw⟩ := hcmd.spans q hq
      have hend : q.2.length ∈ nulterminate cmd := by
        rw [nulterminate_eq]
        exact mem_map_of_mem hq
      exact ⟨w, hw, (hread q hq).trans (cstr_span hcmd.noWord hw hend),
        fun k hk hin => hw.not_noWord hin.1 hin.2 (hcmd.noWord k hk)⟩

theorem nulterminate_texts_tight : ∃ cmd s', parseline 100 "a>b|c".toList = .ok (cmd, s') ∧
    ∀ q ∈ cmd.words, ∃ w, IsSpan "a>b|c".toList q w ∧
      stringAt (terminated (nulterminate cmd) "a>b|c".toList) (5 - q.1.length) = w := by
  obtain ⟨cmd, s', hp, -, hall⟩ := nulterminate_texts "a>b|c".toList (by decide) 100 (by decide)
    (.pipe (.redir (.exec [['a']]) ['b'] 513 1) (.exec [['c']])) (by decide +kernel)
  refine ⟨cmd, s', hp, fun q hq => ?_⟩
  obtain ⟨w, hw, hread, -⟩ := hall q hq
  exact ⟨w, hw, hread⟩

end Sh

end Xv6
