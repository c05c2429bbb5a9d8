import Mathlib

/-!
# grep

`grep.c`: the regular expression matcher.
-/

namespace Xv6

namespace Grep

open Computability

/-! ### The matcher -/

/-- The loop of `matchstar(c, re, text)`, with `matchhere(re, ·)`. -/
def matchstar (c : Char) (matchhere : List Char → Bool) : List Char → Bool
  | [] => matchhere []
  | t :: text => matchhere (t :: text) || ((t == c || c == '.') && matchstar c matchhere text)

/-- `*text!='\0' && (re[0]=='.' || re[0]==*text)`, and then the rest. -/
def matchone (c : Char) (matchhere : List Char → Bool) : List Char → Bool
  | [] => false
  | t :: text => (c == '.' || c == t) && matchhere text

/-- `matchhere`: the pattern at the beginning of the text. -/
def matchhere : List Char → List Char → Bool
  | [], _ => true
  | [c], text => if c = '$' then text.isEmpty else matchone c (matchhere []) text
  | c :: d :: re, text =>
    if d = '*' then matchstar c (matchhere re) text else matchone c (matchhere (d :: re)) text

/-- The loop of `match`. -/
def matchany (re : List Char) : List Char → Bool
  | [] => matchhere re []
  | t :: text => matchhere re (t :: text) || matchany re text

/-- `match` -/
def matchtext (re text : List Char) : Bool :=
  match re with
  | [] => matchany [] text
  | c :: re => if c = '^' then matchhere re text else matchany (c :: re) text

/-! ### What a pattern means -/

/-- The parts of a pattern: a character, with or without a `*`. -/
inductive Item where
  | one (c : Char)
  | star (c : Char)
  deriving DecidableEq, Repr

/-- A pattern as a sequence of items. A `*` that does not follow a character is one itself. -/
def items : List Char → List Item
  | [] => []
  | [c] => [.one c]
  | c :: d :: re => if d = '*' then .star c :: items re else .one c :: items (d :: re)

/-- The strings of one character that `c` stands for. -/
def single (c : Char) : Language Char := {w | ∃ t, w = [t] ∧ (c = '.' ∨ c = t)}

def Item.lang : Item → Language Char
  | .one c => single c
  | .star c => (single c)∗

/-- The pattern ends with a `$` without `*`. -/
def anchored (its : List Item) : Bool := its.getLast? = some (.one '$')

/-- The items without that `$`. -/
def body (its : List Item) : List Item := if anchored its then its.dropLast else its

/-- The language of a sequence of items. -/
def lang (its : List Item) : Language Char := (its.map Item.lang).prod

/-- The pattern describes a part of the text: at its beginning if the pattern begins with `^`, at its
end if it ends with `$`. -/
def Describes (re text : List Char) : Prop :=
  let first := re.head? = some '^'
  let its := items (if first then re.tail else re)
  ∃ pre w post, text = pre ++ w ++ post ∧ w ∈ lang (body its) ∧
    (first → pre = []) ∧ (anchored its = true → post = [])

/-! ### The matcher is right -/

variable {c t : Char} {re text : List Char} {i : Item} {its : List Item}

/-- What the items describe at the beginning of a text. -/
def here (its : List Item) : Language Char := lang (body its) * if anchored its then 1 else ⊤

theorem mem_here : text ∈ here its ↔
    ∃ w post, text = w ++ post ∧ w ∈ lang (body its) ∧ (anchored its = true → post = []) := by
  rw [here, Language.mem_mul]
  have htail : ∀ post : List Char,
      post ∈ (if anchored its then 1 else ⊤ : Language Char) ↔ (anchored its = true → post = []) := by
    intro post
    cases anchored its with
    | true => simp [Language.mem_one]
    | false => exact iff_of_true trivial nofun
  constructor
  · rintro ⟨w, hw, post, hpost, rfl⟩
    exact ⟨w, post, rfl, hw, (htail post).mp hpost⟩
  · rintro ⟨w, post, rfl, hw, hpost⟩
    exact ⟨w, hw, post, (htail post).mpr hpost, rfl⟩

theorem here_nil : text ∈ here [] := mem_here.mpr ⟨[], text, rfl, rfl, nofun⟩

theorem here_dollar : text ∈ here [.one '$'] ↔ text = [] := by
  rw [mem_here]
  constructor
  · rintro ⟨w, post, rfl, hw, hpost⟩
    obtain rfl : w = [] := hw
    exact hpost rfl
  · rintro rfl
    exact ⟨[], [], rfl, rfl, fun _ => rfl⟩

/-- The first item comes before the others, unless it is the `$` at the end. -/
theorem here_cons (h : its = [] → i ≠ .one '$') : here (i :: its) = i.lang * here its := by
  have hlast : anchored (i :: its) = anchored its ∧ body (i :: its) = i :: body its := by
    cases its with
    | nil =>
      have hno : anchored [i] = false := decide_eq_false fun e => h rfl (Option.some.inj e)
      rw [body, hno]
      exact ⟨rfl, rfl⟩
    | cons j its =>
      have hsame : anchored (i :: j :: its) = anchored (j :: its) := by
        rw [anchored, anchored, List.getLast?_cons_cons]
      refine ⟨hsame, ?_⟩
      rw [body, body, hsame, List.dropLast_cons_cons]
      split <;> rfl
  rw [here, here, hlast.1, hlast.2, lang, List.map_cons, List.prod_cons, mul_assoc]
  rfl

theorem mem_single_mul {L : Language Char} : text ∈ single c * L ↔
    ∃ t text', text = t :: text' ∧ (c = '.' ∨ c = t) ∧ text' ∈ L := by
  rw [Language.mem_mul]
  constructor
  · rintro ⟨w, ⟨t, rfl, ht⟩, text', h, rfl⟩
    exact ⟨t, text', rfl, ht, h⟩
  · rintro ⟨t, text', rfl, ht, h⟩
    exact ⟨[t], ⟨t, rfl, ht⟩, text', h, rfl⟩

theorem matchone_iff {m : List Char → Bool} {L : Language Char} (h : ∀ text, m text = true ↔ text ∈ L) :
    matchone c m text = true ↔ text ∈ single c * L := by
  rw [mem_single_mul]
  cases text with
  | nil => simp [matchone]
  | cons t text => simp [matchone, h]

/-- The loop tries every number of repetitions. -/
theorem matchstar_iff {m : List Char → Bool} {L : Language Char}
    (h : ∀ text, m text = true ↔ text ∈ L) :
    matchstar c m text = true ↔ text ∈ (single c)∗ * L := by
  have hunfold : (single c)∗ * L = L + single c * ((single c)∗ * L) := by
    calc (single c)∗ * L = (1 + single c * (single c)∗) * L := by
          rw [Language.one_add_self_mul_kstar_eq_kstar]
      _ = L + single c * ((single c)∗ * L) := by rw [add_mul, one_mul, mul_assoc]
  induction text with
  | nil =>
    rw [hunfold, Language.mem_add, mem_single_mul, matchstar, h]
    simp
  | cons t text ih =>
    have ht : (t == c || c == '.') = true ↔ c = '.' ∨ c = t := by
      rw [Bool.or_eq_true, beq_iff_eq, beq_iff_eq, or_comm, @eq_comm _ t]
    rw [hunfold, Language.mem_add, mem_single_mul, matchstar, Bool.or_eq_true, h, Bool.and_eq_true, ht]
    refine or_congr_right ⟨fun ⟨hc, hrest⟩ => ⟨t, text, rfl, hc, ih.mp hrest⟩, ?_⟩
    rintro ⟨u, rest, e, hc, hrest⟩
    cases e
    exact ⟨hc, ih.mpr hrest⟩

/-- `matchhere` finds the pattern at the beginning of the text, and only there. -/
theorem matchhere_iff (re text : List Char) : matchhere re text = true ↔ text ∈ here (items re) := by
  induction re using items.induct generalizing text with
  | case1 => exact iff_of_true rfl here_nil
  | case2 c =>
    rw [matchhere, items]
    by_cases hc : c = '$'
    · subst hc
      rw [if_pos rfl, here_dollar, List.isEmpty_iff]
    · rw [if_neg hc, here_cons fun _ e => hc (Item.one.inj e)]
      exact matchone_iff fun text => iff_of_true rfl here_nil
  | case3 c re ih =>
    rw [matchhere, items, if_pos rfl, if_pos rfl, here_cons (i := .star c) fun _ e => nomatch e]
    exact matchstar_iff ih
  | case4 c d re hd ih =>
    have hne : items (d :: re) ≠ [] := by
      cases re with
      | nil => nofun
      | cons e re =>
        rw [items]
        split <;> nofun
    rw [matchhere, items, if_neg hd, if_neg hd, here_cons fun e => absurd e hne]
    exact matchone_iff ih

theorem matchany_iff (re text : List Char) :
    matchany re text = true ↔ ∃ pre rest, text = pre ++ rest ∧ matchhere re rest = true := by
  induction text with
  | nil =>
    rw [matchany]
    exact ⟨fun h => ⟨[], [], rfl, h⟩, fun ⟨pre, rest, e, h⟩ => (List.append_eq_nil_iff.mp e.symm).2 ▸ h⟩
  | cons t text ih =>
    rw [matchany, Bool.or_eq_true, ih]
    constructor
    · rintro (h | ⟨pre, rest, rfl, h⟩)
      · exact ⟨[], _, rfl, h⟩
      · exact ⟨t :: pre, rest, rfl, h⟩
    · rintro ⟨pre, rest, e, h⟩
      cases pre with
      | nil => exact .inl (e ▸ h)
      | cons u pre => exact .inr ⟨pre, rest, (List.cons.inj e).2, h⟩

/-- **The matcher is right.** `match` returns 1 exactly if the pattern describes a part of the text. -/
theorem match_iff_describes (re text : List Char) : matchtext re text = true ↔ Describes re text := by
  -- `Describes`, with the text from the beginning of the part on
  have hsplit : ∀ re, (∃ pre rest, text = pre ++ rest ∧ matchhere re rest = true) ↔
      ∃ pre w post, text = pre ++ w ++ post ∧ w ∈ lang (body (items re)) ∧
        (anchored (items re) = true → post = []) := by
    intro re
    constructor
    · rintro ⟨pre, rest, rfl, h⟩
      obtain ⟨w, post, rfl, hw, hpost⟩ := mem_here.mp ((matchhere_iff re rest).mp h)
      exact ⟨pre, w, post, (List.append_assoc ..).symm, hw, hpost⟩
    · rintro ⟨pre, w, post, rfl, hw, hpost⟩
      exact ⟨pre, w ++ post, List.append_assoc .., (matchhere_iff re _).mpr
        (mem_here.mpr ⟨w, post, rfl, hw, hpost⟩)⟩
  have hany : ∀ re, re.head? ≠ some '^' → (matchany re text = true ↔ Describes re text) := by
    intro re hne
    rw [matchany_iff, hsplit, Describes, if_neg hne]
    simp only [hne, false_imp_iff, true_and]
  cases re with
  | nil => exact hany [] nofun
  | cons c re =>
    by_cases hc : c = '^'
    · subst hc
      rw [matchtext, if_pos rfl, matchhere_iff, mem_here]
      constructor
      · rintro ⟨w, post, rfl, hw, hpost⟩
        exact ⟨[], w, post, rfl, hw, fun _ => rfl, hpost⟩
      · rintro ⟨pre, w, post, rfl, hw, hpre, hpost⟩
        exact ⟨w, post, by rw [hpre rfl, List.nil_append], hw, hpost⟩
    · rw [matchtext, if_neg hc]
      exact hany (c :: re) fun e => hc (Option.some.inj e)

end Grep

end Xv6
